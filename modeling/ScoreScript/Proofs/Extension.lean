import ScoreScript.Proofs.Positions.Entry
import ScoreScript.Proofs.Program
import ScoreScript.Proofs.Reading.Extension
import ScoreScript.Proofs.Visits

/-!
# Code that is compiled stays

More statements at the end of a script leave alone what was compiled before them: its functions are
the first functions of the longer script, the entry goes on after the commands that it had, and every
other function has the commands that it had.
-/

namespace ScoreScript

open List

variable {tokens : List Token} {trees : List Tree} {src : Nat} {s t : State} {text : String}

def Package.units (pkg : Package) : List (String × List Command) :=
  pkg.functions.filter (fun function => !phaseFunctions.contains function.1)

namespace State

theorem Steps.units_prefix (steps : Steps s t) : s.units <+: t.units := by
  induction steps with
  | refl => exact prefix_rfl
  | tail _ step ih =>
    apply ih.trans
    cases step with
    | unit => exact prefix_append _ _
    | _ => exact prefix_rfl

def unitFunction (s : State) (unit : OutputUnit) : String × List Command :=
  (unit.path, s.commandsAt unit.scope)

theorem Yields.units_eq {pkg : Package} (yields : s.Yields pkg) :
    pkg.units = s.units.map s.unitFunction := by
  have named : ∀ function ∈ s.units.map s.unitFunction, phaseFunctions.contains function.1 = false := by
    intro function mem
    obtain ⟨unit, isUnit, rfl⟩ := mem_map.mp mem
    obtain ⟨inside, positive, path⟩ := yields.sound.unit_mem yields.root isUnit
    have other := yields.sound.pathAt_not_phase yields.usable inside positive
    rw [← path] at other
    simpa [unitFunction] using other
  rw [Package.units, yields.package_functions]
  have all : s.functions.filter (fun function => !phaseFunctions.contains function.1) =
      (s.units.map s.unitFunction).filter (fun function => !phaseFunctions.contains function.1) := rfl
  rw [all, filter_eq_self]
  intro function mem
  rw [named function mem]
  rfl

theorem Grows.unitFunctions {terms : Terms} (grows : Grows terms s t) (sound : s.Sound)
    {entry : OutputUnit} {others : List OutputUnit} (units : s.units = entry :: others)
    (current : entry.scope = s.current) : ∃ more added, t.units.map t.unitFunction =
      (entry.path, s.commandsAt entry.scope ++ more) :: (others.map s.unitFunction ++ added) := by
  obtain ⟨added, appended⟩ := grows.steps.units_prefix
  have kept : others.map t.unitFunction = others.map s.unitFunction := by
    apply map_congr_left
    intro unit mem
    have isUnit : unit ∈ s.units := by
      rw [units]
      exact mem_cons_of_mem _ mem
    obtain ⟨scope, found, _⟩ := sound.units unit isUnit
    have inside := ScopeTree.lt_size_of_getElem? found
    have elsewhere : unit.scope ≠ s.current := by
      have once := sound.unitsOnce
      rw [units, map_cons, nodup_cons] at once
      intro same
      apply once.1
      rw [current, ← same]
      exact mem_map_of_mem mem
    have none' : commandsOf (s.since t) unit.scope = [] := by
      apply commandsOf_eq_nil
      intro added isAdded same
      rcases grows.emits.place added isAdded with here | new
      · exact elsewhere (same.symm.trans here)
      · omega
    rw [unitFunction, unitFunction, commandsAt_eq grows.emits.kept, none', append_nil]
  refine ⟨commandsOf (s.since t) entry.scope, added.map t.unitFunction, ?_⟩
  rw [← appended, units, cons_append, map_cons, map_append, kept, unitFunction,
    commandsAt_eq grows.emits.kept]

theorem Grows.entry {config : Config} (usable : config.Usable) (grows : Grows .free (begun config src) t) :
    ∃ entry others, t.units = entry :: others ∧ entry.scope = t.current ∧ entry.path = config.entry := by
  obtain ⟨others, units⟩ := grows.steps.units_prefix
  have sound := (ready_begun usable src).sound
  obtain ⟨_, _, _, path⟩ := sound.units _ (mem_singleton_self _)
  exact ⟨_, others, units.symm, grows.current.symm, path.trans (pathAt_begun usable src)⟩

theorem Alike.unitFunctions {f : Footing} (alike : s.Alike f t) :
    s.units.map s.unitFunction = t.units.map t.unitFunction := by
  have cmds : s.commandsAt = t.commandsAt := by
    funext scope
    rw [commandsAt, commandsAt, emissions, emissions, alike.scopes]
  have units := alike.units
  generalize s.units = units at units
  generalize t.units = units' at units
  induction units with
  | nil => rfl
  | cons head _ ih => rw [map_cons, map_cons, ih, unitFunction, unitFunction, head.1, head.2, cmds]

end State

namespace Engine

open Compile

private theorem writeAll_append_ran {engine : Engine} {others : List Tree}
    (ran : (engine.writeAll (trees ++ others)).runFrom s = (.ok (), t)) :
    ∃ mid, (engine.writeAll trees).runFrom s = (.ok (), mid) ∧ (engine.writeAll others).runFrom mid = (.ok (), t) := by
  induction trees generalizing s with
  | nil => exact ⟨s, rfl, ran⟩
  | cons tree trees ih =>
    obtain ⟨_, u, written, rest⟩ := runFrom_bind_eq_ok.mp ran
    obtain ⟨mid, first, second⟩ := ih rest
    exact ⟨mid, runFrom_bind_eq_ok.mpr ⟨_, u, written, first⟩, second⟩

variable {config : Config} {src : Nat}

private theorem writable_of_tokenized (usable : config.Usable)
    (tokenized : Token.tokenize src config.separator text = .ok tokens)
    (read : Layout.readStatements ⟨src, config.separator⟩ tokens = .ok trees) :
    ∀ tree ∈ trees, Writable .free config (depthFor text.length) tree := by
  have few := (Token.tokenize_atMost src config.separator text).2 tokens tokenized
  have compilable : Compilable .free config (depthFor text.length) tokens :=
    ⟨fun _ _ => ⟨.inl Terms.not_guards_free, fun impossible => by cases impossible⟩,
      @depthFor_enough ⟨src, config.separator⟩ text tokens few⟩
  exact Compilable.writable (s := State.begun config src) usable compilable read

private theorem writeAll_append_grows (usable : config.Usable) {others : List Tree}
    (tokenized : Token.tokenize src config.separator text = .ok tokens)
    (read : Layout.readStatements ⟨src, config.separator⟩ tokens = .ok (trees ++ others))
    (ran : ((forText text).writeAll (trees ++ others)).runFrom (State.begun config src) = (.ok (), t)) :
    ∃ mid, ((forText text).writeAll trees).runFrom (State.begun config src) = (.ok (), mid) ∧
      State.Grows .free (State.begun config src) mid ∧ State.Grows .free mid t := by
  have writable := writable_of_tokenized usable tokenized read
  have lawful : (forText text).Lawful config .free (depthFor text.length) :=
    forText_lawful (.inl Terms.not_guards_free) (fun _ => rfl) text
  have ready := State.ready_begun usable src
  obtain ⟨mid, first, second⟩ := writeAll_append_ran ran
  have before : State.Grows .free (State.begun config src) mid :=
    ((Lawful.writeAll_behaves (s := State.begun config src) lawful ready rfl
      (fun tree mem => writable tree (mem_append_left _ mem))).of_ran first).1
  have same : mid.config = config := before.config
  have after := ((lawful.grows before).writeAll_behaves (ready.grows before) rfl
    (fun tree mem => same ▸ writable tree (mem_append_right _ mem))).of_ran second
  exact ⟨mid, first, before, after.1⟩

private theorem writeAll_longer {longer : String} (tokenized : Token.tokenize src config.separator text = .ok tokens)
    (read : Layout.readStatements ⟨src, config.separator⟩ tokens = .ok trees) (length : text.length ≤ longer.length)
    {u : State} (wrote : ((forText text).writeAll trees).runFrom (State.begun config src) = (.ok (), t))
    (wrote' : ((forText longer).writeAll trees).runFrom (State.begun config src) = (.ok (), u)) :
    t.Alike (.anywhere config.separator) u := by
  have few := (Token.tokenize_atMost src config.separator text).2 tokens tokenized
  have alike : Alike (.anywhere config.separator) _ (forText text) (forText longer) :=
    forText_alike trivial (fun _ _ => trivial) (@depthFor_enough ⟨src, config.separator⟩ _ tokens few)
      (@depthFor_enough ⟨src, config.separator⟩ _ tokens (Nat.le_trans few length))
  have within := Layout.readStatements_within read (Nat.le_refl _)
  have same : Tree.Sames Tree.Anywhere trees trees := .refl (fun _ => trivial) trees
  have writes := (Exchange.writeAll same (fun _ => within)).tallies alike
  have start : (State.begun config src).Alike (.anywhere config.separator) (State.begun config src) :=
    .refl (fun _ => trivial) (fun _ => rfl)
  have states := (writes _ _ ⟨start, False.elim⟩).2.1
  simp only [runFrom] at wrote wrote'
  rwa [wrote, wrote'] at states

private theorem compileEntry_reads {engine : Engine}
    (ran : (engine.compileEntry text).runFrom (State.start config src) = (.ok (), t)) :
    ∃ tokens trees, Token.tokenize src config.separator text = .ok tokens ∧
      Layout.readStatements ⟨src, config.separator⟩ tokens = .ok trees := by
  obtain ⟨tokens, tokenized, ran⟩ := compileEntry_begins ran
  cases read : Layout.readStatements ⟨src, config.separator⟩ tokens with
  | ok trees => exact ⟨tokens, trees, tokenized, read⟩
  | error fault =>
    have failed : ({ State.begun config src with current := 1 } : State).layout.readStatements
        tokens = .error fault := read
    simp only [runFrom_inScope, compileTokens, runFrom_bind, runFrom_get, runFrom_lift, failed] at ran
    cases ran

end Engine

private theorem tokenize_append {sep : Char} {first second : String} {all : List Token}
    (tokenized : Token.tokenize src sep first = .ok tokens)
    (tokenized' : Token.tokenize src sep (first ++ "\n" ++ second) = .ok all) :
    ∃ later others, all = tokens ++ later ∧
      Token.tokenize src sep second = .ok others ∧ Token.Sames Tree.Anywhere later others := by
  have whole : (first ++ "\n" ++ second).toList = first.toList ++ '\n' :: second.toList := by
    simp
  rw [Token.tokenize, whole, Token.scan_append tokenized] at tokenized'
  generalize (Position.behind src first.toList).advance '\n' = q at tokenized'
  have concur : Concur Tree.Anywhere (Token.Sames Tree.Anywhere) (Token.scan sep .between q second.toList)
      (Token.scan sep .between (Position.start src) second.toList) :=
    Token.scan_concur _ .between (fun _ _ _ _ => trivial)
  rw [Token.tokenize]
  generalize Token.scan sep .between q second.toList = scanned at tokenized' concur
  generalize Token.scan sep .between (Position.start src) second.toList = other at concur ⊢
  cases concur with
  | error => cases tokenized'
  | ok texts =>
    cases tokenized'
    exact ⟨_, _, rfl, rfl, texts⟩

private theorem readStatements_longer {config : Config} (usable : config.Usable) {first second : String}
    {all : List Token} {trees' : List Tree} (tokenized : Token.tokenize src config.separator first = .ok tokens)
    (ended : Token.Ended config.separator tokens)
    (starts : ∀ later token, Token.tokenize src config.separator second = .ok later →
      later.head? = some token → token.text ≠ "else")
    (tokenized' : Token.tokenize src config.separator (first ++ "\n" ++ second) = .ok all)
    (read : Layout.readStatements ⟨src, config.separator⟩ tokens = .ok trees)
    (read' : Layout.readStatements ⟨src, config.separator⟩ all = .ok trees') :
    ∃ others, trees' = trees ++ others := by
  have plain : Bracket.isBracket config.separator = false := by
    have separates := usable.separator
    simp only [Config.isSeparator, Bool.not_eq_true', Bool.or_eq_false_iff] at separates
    exact separates.1.1.1.2
  obtain ⟨later, words, rfl, tokenized₂, texts⟩ := tokenize_append tokenized tokenized'
  apply Layout.readStatements_append plain ended _ read read'
  intro token isFirst
  cases texts with
  | nil => cases isFirst
  | cons text _ =>
    cases isFirst
    rw [text.1]
    exact starts _ _ tokenized₂ rfl

/-- Statements that are added at the end of a script change no code that was there before. -/
theorem compileSource_append {config : Config} (valid : config.Valid) {src : Nat} {first second : String}
    {tokens : List Token} {last : Token} (tokenized : Token.tokenize src config.separator first = .ok tokens)
    (isLast : tokens.getLast? = some last) (ends : last.isChar config.separator = true)
    (starts : ∀ later token, Token.tokenize src config.separator second = .ok later →
      later.head? = some token → token.text ≠ "else")
    {pkg longer : Package} (compiled : compileSource src first config = .ok pkg)
    (compiled' : compileSource src (first ++ "\n" ++ second) config = .ok longer) :
    ∃ cmds others more added, pkg.units = (config.entry, cmds) :: others ∧
      longer.units = (config.entry, cmds ++ more) :: (others ++ added) := by
  have usable := valid.usable
  have ended : Token.Ended config.separator tokens := by
    intro token isToken
    cases isLast.symm.trans isToken
    exact ends
  obtain ⟨t, ran, _, yields⟩ := compileSource_yields usable compiled
  obtain ⟨u, ran', _, yields'⟩ := compileSource_yields usable compiled'
  obtain ⟨_, trees, tokenized₁, read⟩ := Engine.compileEntry_reads ran
  obtain ⟨all, trees', tokenized', read'⟩ := Engine.compileEntry_reads ran'
  cases tokenized.symm.trans tokenized₁
  obtain ⟨others, rfl⟩ := readStatements_longer usable tokenized ended starts tokenized' read read'
  obtain ⟨t, wrote, rfl⟩ := Engine.compileEntry_ran tokenized read _ ran
  obtain ⟨u, wrote', rfl⟩ := Engine.compileEntry_ran tokenized' read' _ ran'
  -- The first statements are written alike by a deeper engine, and the state only grows from there.
  obtain ⟨mid, wrote₁, before, after⟩ := Engine.writeAll_append_grows usable tokenized' read' wrote'
  have alike := Engine.writeAll_longer tokenized read (by
    simp only [String.length_append]
    omega) wrote wrote₁
  have sound := before.sound usable (State.ready_begun usable src).sound
  obtain ⟨entry, rest, units, current, path⟩ := before.entry usable
  obtain ⟨more, added, functions⟩ := after.unitFunctions sound units current
  refine ⟨mid.commandsAt entry.scope, rest.map mid.unitFunction, more, added, ?_, ?_⟩
  · calc pkg.units = t.units.map t.unitFunction := yields.units_eq
      _ = mid.units.map mid.unitFunction := alike.unitFunctions
      _ = _ := by rw [units, map_cons, State.unitFunction, path]
  · calc longer.units = u.units.map u.unitFunction := yields'.units_eq
      _ = _ := by rw [functions, path]

def nestedScript : String :=
  "int a = 1; \x7b if (a) a = 2; \x7d;"

def appendedScript : String :=
  "// more\nif (a == 2) a = 3; else a = 4;"

theorem compileSource_append_branches : ∃ pkg longer cmds others more added,
    compileSource 0 nestedScript {} = .ok pkg ∧
      compileSource 0 (nestedScript ++ "\n" ++ appendedScript) {} = .ok longer ∧
        pkg.units = ("main", cmds) :: others ∧
          longer.units = ("main", cmds ++ more) :: (others ++ added) := by
  have compiles : (compileSource 0 nestedScript {}).toOption.isSome = true ∧
      (compileSource 0 (nestedScript ++ "\n" ++ appendedScript) {}).toOption.isSome = true := by
    decide +kernel
  obtain ⟨tokens, last, tokenized, isLast, ends⟩ : ∃ tokens last,
      Token.tokenize 0 ({} : Config).separator nestedScript = .ok tokens ∧
        tokens.getLast? = some last ∧ last.isChar ({} : Config).separator = true := by
    refine ⟨(Token.tokenize 0 ({} : Config).separator nestedScript).toOption.getD [], ⟨";", ⟨0, 1, 29⟩⟩, ?_⟩
    decide +kernel
  have starts : (Token.tokenize 0 ({} : Config).separator appendedScript).toOption.all
      (fun later => later.head?.all (fun token => token.text != "else")) = true := by
    decide +kernel
  cases compiled : compileSource 0 nestedScript {} with
  | error fault =>
    rw [compiled] at compiles
    cases compiles.1
  | ok pkg =>
  cases compiled' : compileSource 0 (nestedScript ++ "\n" ++ appendedScript) {} with
  | error fault =>
    rw [compiled'] at compiles
    cases compiles.2
  | ok longer =>
  obtain ⟨cmds, others, more, added, units, units'⟩ := compileSource_append (by decide) tokenized
    isLast ends (by
      intro later token tokenized isFirst
      rw [tokenized] at starts
      simpa [Except.toOption, isFirst] using starts) compiled compiled'
  exact ⟨pkg, longer, cmds, others, more, added, rfl, rfl, units, units'⟩

end ScoreScript
