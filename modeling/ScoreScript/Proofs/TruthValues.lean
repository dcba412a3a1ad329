import ScoreScript.Proofs.CallTree

/-!
# Truth values are zero or one

A truth value that is known while compiling is zero or one, and one in a register is only ever set to
zero or one, or copied from another. Its score can be read as a number, in the same register, but such
a number is a result without a name that a script could use, and nothing is stored in it. So a machine
that starts with zeros and ones in the registers of truth values goes on with them.
-/

namespace ScoreScript

open List

variable {isTruth : Register → Prop} {cmd : Command}

namespace Command

/-- The command sets a truth value to zero or one, copies one into another, or writes none. -/
def KeepsTruth (isTruth : Register → Prop) : Command → Prop
  | set target score => isTruth target → score = 0 ∨ score = 1
  | copy target src => isTruth target → isTruth src
  | add target _ | remove target _ | operate target _ _ | reset target => ¬ isTruth target
  | guarded _ _ cmd => cmd.KeepsTruth isTruth
  | call .. | addObjective .. | removeObjective _ | showObjective .. => True
  | verbatim _ => False

theorem IsForObjective.keepsTruth (outside : cmd.IsForObjective) : cmd.KeepsTruth isTruth := by
  cases cmd <;> trivial

end Command

/-! ## Lines -/

namespace State

variable {s : State}

theorem Sound.registerAt_of_bool (sound : s.Sound) {id : Nat} {var : Variable}
    (found : s.vars[id]? = some var) (isBool : var.type = .bool) {reg : Register}
    (held : var.value = .register reg) : reg = s.registerAt var.scope var.name := by
  have fits := sound.fits id var found
  unfold Fits at fits
  rw [held, isBool] at fits
  obtain ⟨_, _, own | ⟨impossible, _⟩⟩ := fits
  · exact own
  · cases impossible

theorem TakesAny.not_holdsTruth {reg : Register} (takes : s.TakesAny reg) (sound : s.Sound)
    (usable : s.config.Usable) : ¬ s.HoldsTruth reg := by
  rintro ⟨id, var, found, isBool, held⟩
  have own := sound.registerAt_of_bool found isBool held
  rcases takes with foreign | ⟨other, number, isNumber, isInt, called⟩
  · apply foreign
    rw [own]
    rfl
  · have same : other = id :=
      sound.register_injective usable isNumber found (called.symm.trans own)
    subst same
    rw [found] at isNumber
    cases isNumber
    rw [isBool] at isInt
    cases isInt

end State

theorem Command.WellTyped.keepsTruth {s : State} (typed : cmd.WellTyped s) (sound : s.Sound)
    (usable : s.config.Usable) : cmd.KeepsTruth s.HoldsTruth := by
  induction typed with
  | @number cmd target writes takes =>
    have apart := takes.not_holdsTruth sound usable
    cases cmd with
    | set _ _ | copy _ _ =>
      cases writes
      exact fun isTruth => absurd isTruth apart
    | add _ _ | remove _ _ | operate _ _ _ | reset _ =>
      cases writes
      exact apart
    | _ => cases writes
  | truth _ isBit => exact fun _ => isBit
  | share _ shared => exact fun _ => shared
  | guarded _ ih => exact ih
  | call => trivial
  | showObjective => trivial

/-! ## Runs -/

def Board.IsTruthful (isTruth : Register → Prop) (board : Board) : Prop :=
  ∀ reg, isTruth reg → board reg = 0 ∨ board reg = 1

theorem Command.KeepsTruth.effect (keeps : cmd.KeepsTruth isTruth) {board next : Board}
    (effect : cmd.effect? board = some next) (truthful : Board.IsTruthful isTruth board) :
    Board.IsTruthful isTruth next := by
  intro reg isRegister
  by_cases writes : cmd.Writes reg
  · cases cmd with
    | set target score =>
      cases effect
      cases writes
      simpa using keeps isRegister
    | copy target src =>
      cases effect
      cases writes
      simpa using truthful src (keeps isRegister)
    | add _ _ | remove _ _ | operate _ _ _ | reset _ =>
      cases writes
      exact absurd isRegister keeps
    | removeObjective id =>
      cases effect
      left
      exact if_pos writes
    | addObjective _ _ | showObjective _ _ | guarded _ _ _ | call _ _ | verbatim _ => exact writes.elim
  · rw [effect?_apply effect writes]
    exact truthful reg isRegister

theorem Runs.isTruthful {pkg : Package}
    (lines : ∀ path body, pkg.function? path = some body → ∀ cmd ∈ body, cmd.KeepsTruth isTruth)
    {cmds trace : List Command} {board last : Board} (runs : Runs pkg cmds board trace last)
    (start : ∀ cmd ∈ cmds, cmd.KeepsTruth isTruth) (truthful : Board.IsTruthful isTruth board) :
    Board.IsTruthful isTruth last := by
  induction runs with
  | done => exact truthful
  | change effect _ ih =>
    obtain ⟨first, rest⟩ := forall_mem_cons.mp start
    exact ih rest (first.effect effect truthful)
  | skip _ _ ih => exact ih (forall_mem_cons.mp start).2 truthful
  | pass _ _ ih =>
    obtain ⟨first, rest⟩ := forall_mem_cons.mp start
    exact ih (forall_mem_cons.mpr ⟨first, rest⟩) truthful
  | call found _ _ insideIH laterIH =>
    exact laterIH (forall_mem_cons.mp start).2 (insideIH (lines _ _ found) truthful)

theorem Package.canRun_of_isForObjective (pkg : Package) {cmds : List Command}
    (outside : ∀ cmd ∈ cmds, cmd.IsForObjective) : pkg.CanRun cmds := by
  induction cmds with
  | nil => exact fun board => ⟨[], board, .done⟩
  | cons cmd rest ih =>
    obtain ⟨first, later⟩ := forall_mem_cons.mp outside
    intro board
    obtain ⟨next, effect⟩ : ∃ next, cmd.effect? board = some next := by
      cases cmd <;> first | exact ⟨_, rfl⟩ | exact first.elim
    obtain ⟨trace, last, runs⟩ := ih later next
    exact ⟨_, last, .change effect runs⟩

/-! ## Packages -/

namespace Package

/-- Truth values are zero or one in the variables of a state, in every line of a package and, when one
of its functions runs, after each of its lines. -/
structure KeepsTruth (pkg : Package) (s : State) : Prop where
  constants : ∀ (id : Nat) (var : Variable) (score : Score), s.vars[id]? = some var →
    var.type = .bool → var.value = .int score → score = 0 ∨ score = 1
  lines : ∀ function ∈ pkg.functions, ∀ cmd ∈ function.2, cmd.KeepsTruth s.HoldsTruth
  canRun : ∀ function ∈ pkg.functions, pkg.CanRun function.2
  runs : ∀ function ∈ pkg.functions, ∀ done, done <+: function.2 → ∀ board trace last,
    Runs pkg done board trace last → Board.IsTruthful s.HoldsTruth board →
    Board.IsTruthful s.HoldsTruth last

private theorem mem_of_function? {pkg : Package} {path : String} {body : List Command}
    (found : pkg.function? path = some body) : (path, body) ∈ pkg.functions := by
  obtain ⟨before, after, all, _⟩ := lookup_eq_some_iff.mp found
  rw [all]
  simp

end Package

namespace State.Yields

variable {t : State} {pkg : Package}

private theorem function_cases (yields : t.Yields pkg) {function : String × List Command}
    (mem : function ∈ pkg.functions) : (∀ cmd ∈ function.2, cmd.IsForObjective) ∨
      ∃ unit ∈ t.units, function.2 = t.commandsAt unit.scope := by
  rw [yields.package_functions, State.functions, mem_cons, mem_cons] at mem
  rcases mem with rfl | rfl | inside
  · exact .inl (fun _ isCommand => yields.isForObjective (.inl isCommand))
  · exact .inl (fun _ isCommand => yields.isForObjective (.inr isCommand))
  · obtain ⟨unit, isUnit, rfl⟩ := mem_map.mp inside
    exact .inr ⟨unit, isUnit, rfl⟩

private theorem canRun_of_mem (yields : t.Yields pkg) {function : String × List Command}
    (mem : function ∈ pkg.functions) : pkg.CanRun function.2 := by
  rcases yields.function_cases mem with outside | ⟨unit, _, same⟩
  · exact pkg.canRun_of_isForObjective outside
  · rw [same]
    exact yields.canRun unit.scope

theorem keepsTruth (yields : t.Yields pkg)
    (typed : ∀ entry ∈ t.emissions, ∀ cmd ∈ entry.2, cmd.WellTyped t) : pkg.KeepsTruth t := by
  have lines : ∀ function ∈ pkg.functions, ∀ cmd ∈ function.2, cmd.KeepsTruth t.HoldsTruth := by
    intro function mem cmd isCommand
    rcases yields.function_cases mem with outside | ⟨unit, _, same⟩
    · exact (outside cmd isCommand).keepsTruth
    · rw [same] at isCommand
      obtain ⟨cmds, isEntry, inside⟩ := mem_commandsOf.mp isCommand
      exact (typed _ isEntry cmd inside).keepsTruth yields.sound yields.usable
  constructor
  case constants =>
    intro id var score found isBool held
    have fits := yields.sound.fits id var found
    unfold Fits at fits
    rw [held, isBool] at fits
    simpa using fits.2
  case lines => exact lines
  case canRun => exact fun _ => yields.canRun_of_mem
  case runs =>
    intro function mem done before board trace last runs truthful
    refine runs.isTruthful (fun path body found => ?_) (fun cmd isCommand => ?_) truthful
    · exact lines _ (Package.mem_of_function? found)
    · exact lines function mem cmd (before.subset isCommand)

end State.Yields

/-! ## Compiling -/

def Terms.typeful : Terms :=
  { Terms.free with typed := true }

theorem Engine.compileEntry_wellTyped {config : Config} (usable : config.Usable)
    (suits : Terms.typeful.Suits config) {src : Nat} {text : String}
    (words : ∀ tokens, Token.tokenize src config.separator text = .ok tokens →
      ∀ token ∈ tokens, config.isGenerated token.text = false) {t : State}
    (ran : ((forText text).compileEntry text).runFrom (State.start config src) = (.ok (), t)) :
    ∀ entry ∈ t.emissions, ∀ cmd ∈ entry.2, cmd.WellTyped t := by
  obtain ⟨tokens, tokenized, inside⟩ := compileEntry_begins ran
  have few := (Token.tokenize_atMost src config.separator text).2 tokens tokenized
  have compilable : Compilable .typeful config (depthFor text.length) tokens :=
    ⟨fun token mem => ⟨.inr (.inl (words tokens tokenized token mem)), by rintro ⟨⟩⟩,
      @depthFor_enough ⟨src, config.separator⟩ text tokens few⟩
  have ready : (State.begun config src).Ready .typeful := { State.ready_begun usable src with }
  have lawful := forText_lawful suits (fun _ => rfl) text
  have grows := (Lawful.compileTokens_behaves (s := State.begun config src) lawful ready rfl compilable).1
  rw [Compile.runFrom_inScope] at inside
  obtain ⟨_, rfl⟩ := Prod.mk.inj inside
  intro entry mem cmd isCommand
  have since : _ = (0, []) :: _ := State.emissions_eq grows.emits.kept
  rcases mem_cons.mp (since ▸ mem) with rfl | later
  · cases isCommand
  · exact (grows.emits.typed rfl entry later cmd isCommand).keeps (.of_eq rfl rfl rfl)

/-- Truth values are zero or one, while a text is compiled and when its package runs. -/
theorem compileSource_keepsTruth {config : Config} (valid : config.Valid)
    (standard : config.anonymousPrefix = ({} : Config).anonymousPrefix) {src : Nat} {text : String}
    (words : ∀ tokens, Token.tokenize src config.separator text = .ok tokens →
      ∀ token ∈ tokens, config.isGenerated token.text = false)
    {pkg : Package} (compiled : compileSource src text config = .ok pkg) :
    ∃ s, ((Engine.forText text).compileEntry text).runFrom (State.start config src) = (.ok (), s) ∧
      pkg.KeepsTruth s := by
  obtain ⟨s, ran, _, yields⟩ := compileSource_yields valid.usable compiled
  have suits : Terms.typeful.Suits config := by
    right
    simp only [Config.isGenerated, standard]
    decide
  exact ⟨s, ran, yields.keepsTruth (Engine.compileEntry_wellTyped valid.usable suits words ran)⟩

/-- The truth value is also read as a number, whose score is in the same register. -/
theorem compileSource_keepsTruth_aliased : ∃ pkg s,
    compileSource 0 "bool b = true; int n = b; n = n + b; b = !b;" {} = .ok pkg ∧
      s.HoldsTruth ⟨"main.b", "mcs.vars"⟩ ∧ (∃ (id : Nat) (var : Variable), s.vars[id]? = some var ∧ var.type = .int ∧
        var.value = .register ⟨"main.b", "mcs.vars"⟩) ∧ pkg.KeepsTruth s := by
  have compiles : (compileSource 0 "bool b = true; int n = b; n = n + b; b = !b;"
      {}).toOption.isSome = true := by
    decide +kernel
  have plain : ((Token.tokenize 0 ';' "bool b = true; int n = b; n = n + b; b = !b;").toOption.all
      (fun tokens => tokens.all (fun token => !({} : Config).isGenerated token.text))) = true := by
    decide +kernel
  have scores : ∀ score ∈ [(1, ValueType.bool), (3, ValueType.int)],
      (((Engine.forText "bool b = true; int n = b; n = n + b; b = !b;").compileEntry
        "bool b = true; int n = b; n = n + b; b = !b;").runFrom (State.start {} 0)).2.vars[score.1]?.map
          (fun var => (var.type, var.value)) =
        some (score.2, .register ⟨"main.b", "mcs.vars"⟩) := by
    decide +kernel
  cases compiled : compileSource 0 "bool b = true; int n = b; n = n + b; b = !b;" {} with
  | error fault =>
    rw [compiled] at compiles
    cases compiles
  | ok pkg =>
    have words : ∀ tokens, Token.tokenize 0 ';' "bool b = true; int n = b; n = n + b; b = !b;" = .ok tokens →
        ∀ token ∈ tokens, ({} : Config).isGenerated token.text = false := by
      intro tokens tokenized token mem
      rw [tokenized] at plain
      simpa using all_eq_true.mp plain token mem
    obtain ⟨s, ran, keeps⟩ := compileSource_keepsTruth (by decide) rfl words compiled
    rw [ran] at scores
    obtain ⟨truth, foundTruth, isTruth⟩ := Option.map_eq_some_iff.mp (scores (1, .bool) (by simp))
    obtain ⟨number, foundNumber, isNumber⟩ := Option.map_eq_some_iff.mp (scores (3, .int) (by simp))
    obtain ⟨isBool, heldTruth⟩ := Prod.mk.inj isTruth
    obtain ⟨isInt, heldNumber⟩ := Prod.mk.inj isNumber
    exact ⟨pkg, s, rfl, ⟨1, truth, foundTruth, isBool, heldTruth⟩,
      ⟨3, number, foundNumber, isInt, heldNumber⟩, keeps⟩

end ScoreScript
