import ScoreScript.Proofs.Compile.RegularStatements
import ScoreScript.Proofs.Flush

/-!
# Every objective is set up and torn down once

An objective is taken into use when it is constructed, and the variable that stands for the
construction sets it up and tears it down. As long as such a variable goes on referring to what was
constructed, the objectives in use are those that are set up. Nothing but assigning to a
construction changes what it refers to.
-/

namespace ScoreScript

open List

variable {config : Config} {id src : Nat} {pkg : Package} {s t : State} {var : Variable}

/-! ## What is set up -/

section Lists

variable {α β : Type} {f : α → α} {g : α → Option β}

theorem filterMap_modify {items : List α} {i : Nat} (same : ∀ item, items[i]? = some item → g (f item) = g item) :
    (items.modify i f).filterMap g = items.filterMap g := by
  induction items generalizing i with
  | nil => rw [modify_nil]
  | cons item items ih =>
    cases i with
    | zero => rw [modify_zero_cons, filterMap_cons, filterMap_cons, same item rfl]
    | succ i => rw [modify_succ_cons, filterMap_cons, filterMap_cons, ih same]

theorem filterMap_modify_behind {before items : List α} {i : Nat} {item : α} {value : β}
    (behind : before.length ≤ i) (none : ∀ item ∈ items, g item = none)
    (found : (before ++ items)[i]? = some item) (changed : g (f item) = some value) :
    ((before ++ items).modify i f).filterMap g = before.filterMap g ++ [value] := by
  induction before generalizing i with
  | nil =>
    rw [List.nil_append] at found ⊢
    obtain ⟨inside, rfl⟩ := List.getElem?_eq_some_iff.mp found
    rw [List.modify_eq_take_cons_drop inside, List.filterMap_append, List.filterMap_cons, changed,
      List.filterMap_eq_nil_iff.mpr (fun item member => none item (List.mem_of_mem_take member)),
      filterMap_eq_nil_iff.mpr (fun item member => none item (mem_of_mem_drop member))]
    rfl
  | cons first before ih =>
    cases i with
    | zero => cases behind
    | succ i =>
      have rest := ih (Nat.le_of_succ_le_succ behind) found
      rw [cons_append, modify_succ_cons, filterMap_cons, filterMap_cons, rest]
      cases g first <;> rfl

private theorem flatMap_range_length (items : List α) (part : α → List β) :
    (range items.length).flatMap (fun i => (items[i]?.map part).getD []) = items.flatMap part := by
  induction items with
  | nil => rfl
  | cons item items ih =>
    rw [length_cons, range_succ_eq_map, flatMap_cons, flatMap_map, flatMap_cons, ← ih]
    rfl

end Lists

namespace State

def owned (s : State) : List (String × String) :=
  s.vars.toList.filterMap Variable.ownObjective?

private theorem ownObjective?_of_plain (plain : var.constructed = false) : var.ownObjective? = none := by
  rw [Variable.ownObjective?, plain]

theorem owned_onVar {change : Variable → Variable}
    (same : ∀ var, s.vars[id]? = some var → (change var).ownObjective? = var.ownObjective?) :
    (s.onVar id change).owned = s.owned := by
  rw [owned, onVar, Array.toList_modify]
  exact filterMap_modify (fun var found => same var (by rwa [Array.getElem?_toList] at found))

private theorem owned_onValue (plain : s.Plain id) (value : Value) :
    (s.onVar id (fun var => { var with value })).owned = s.owned := by
  refine owned_onVar (fun var found => ?_)
  obtain ⟨_, there, isPlain⟩ := plain
  rw [found] at there
  cases there
  rw [ownObjective?_of_plain isPlain]
  exact ownObjective?_of_plain isPlain

theorem Extends.split (ext : Extends s t) :
    ∃ rest, t.vars.toList = s.vars.toList ++ rest ∧ ∀ var ∈ rest, var.ownObjective? = none := by
  have isPrefix : s.vars.toList <+: t.vars.toList := by
    refine prefix_iff_getElem?.mpr (fun i inside => ?_)
    rw [Array.getElem?_toList]
    refine ext.old i _ ?_
    rw [← Array.getElem?_toList, getElem?_eq_getElem inside]
  obtain ⟨rest, same⟩ := isPrefix
  refine ⟨rest, same.symm, fun var member => ?_⟩
  obtain ⟨i, found⟩ := mem_iff_getElem?.mp member
  refine ownObjective?_of_plain (ext.new (s.vars.size + i) var (Nat.le_add_right ..) ?_).1
  rw [← Array.getElem?_toList, ← same, getElem?_append_right (by simp)]
  simpa using found

theorem Extends.owned (ext : Extends s t) : t.owned = s.owned := by
  obtain ⟨rest, split, none⟩ := ext.split
  rw [State.owned, split, filterMap_append, filterMap_eq_nil_iff.mpr none, append_nil]
  rfl

def Owns (s : State) (first : String) : Prop :=
  s.objectives = first :: s.owned.map Prod.fst

theorem Owns.change {mode : Mode} {first : String} (owns : s.Owns first) (tidy : s.Tidy) (faithful : mode.faithful)
    (sure : ¬ mode.broken) (change : Change mode s t) : t.Owns first := by
  cases change with
  | extend ext => rw [Owns, ext.objectives, ext.owned, owns]
  | bind found unset =>
    rw [Owns, owned_onValue (tidy.plain_of_unset found unset)]
    exact owns
  | @refer id owner objective criterion found type free plain field =>
    obtain ⟨value, there, _⟩ := vars_refresh found owner criterion
    rw [Owns, owned_onValue ⟨_, there, plain faithful⟩]
    unfold refresh
    split
    · next other member =>
        rw [owned_onValue (field faithful other member)]
        exact owns
    · exact owns
  | @make t id var objective criterion ext new found type generated value =>
    obtain ⟨rest, split, none⟩ := ext.split
    have made : (t.onVar id (fun var => { var with constructed := true })).owned =
        s.owned ++ [(objective, criterion)] := by
      have there : (s.vars.toList ++ rest)[id]? = some var := by
        rw [← found, ← Array.getElem?_toList, split]
      rw [owned, onVar, Array.toList_modify, split]
      refine filterMap_modify_behind (by simpa using new) none there ?_
      simp only [Variable.ownObjective?, value]
    rw [Owns, made, map_append, map_singleton, ← cons_append, ← owns]
    exact ext.objectives
  | claim broken => exact absurd broken sure

theorem Owns.changes {mode : Mode} {first : String} (owns : s.Owns first) (tidy : s.Tidy) (faithful : mode.faithful)
    (sure : ¬ mode.broken) (changes : Changes mode s t) : t.Owns first := by
  induction changes with
  | refl => exact owns
  | tail before change ih => exact ih.change (tidy.changes faithful before) faithful sure change

/-! ## What is in the log -/

theorem Steps.objectives_nodup (steps : Steps s t) (once : s.objectives.Nodup) : t.objectives.Nodup := by
  induction steps with
  | refl => exact once
  | tail _ step ih =>
    cases step with
    | claim fresh =>
      exact nodup_append.mpr ⟨ih, nodup_singleton _, fun id member _ isNew same =>
        fresh (mem_singleton.mp isNew ▸ same ▸ member)⟩
    | _ => exact ih

end State

def Entry.declared? (entry : Entry) : Option VarId :=
  match entry.event with
  | .declared id => some id
  | .emitted _ => none

namespace State

def DeclaresAll (s : State) : Prop :=
  s.scopes.log.filterMap Entry.declared? = range s.vars.size

theorem Step.declaresAll (step : Step s t) (all : s.DeclaresAll) : t.DeclaresAll := by
  have changed (id : Nat) (change : Variable → Variable) :
      range (s.onVar id change).vars.size = range s.vars.size := by
    rw [onVar, Array.size_modify]
  cases step with
  | enter =>
    rw [DeclaresAll, enterVar, Array.size_push, range_succ, ← all]
    exact filterMap_append
  | log => exact filterMap_append.trans ((append_nil _).trans all)
  | member | value | members | constructed => exact Eq.trans all (changed _ _).symm
  | move | draw | entry | block | unit | claim | count => exact all

theorem Step.log_prefix (step : Step s t) : s.scopes.log <+: t.scopes.log := by
  cases step with
  | enter | log => exact prefix_append _ _
  | _ => exact prefix_rfl

theorem Steps.declaresAll (steps : Steps s t) (all : s.DeclaresAll) : t.DeclaresAll := by
  induction steps with
  | refl => exact all
  | tail _ step ih => exact step.declaresAll ih

theorem Steps.log_prefix (steps : Steps s t) : s.scopes.log <+: t.scopes.log := by
  induction steps with
  | refl => exact prefix_rfl
  | tail _ step ih => exact ih.trans step.log_prefix

/-- Where something is entered, it is part of exactly one unit or outside all of them. -/
theorem Sound.existsUnique_top (sound : s.Sound) (inside : id < s.scopes.size) :
    ∃ top ∈ 0 :: s.units.map OutputUnit.scope, s.scopes.belongs top id = true ∧
      ∀ other ∈ 0 :: s.units.map OutputUnit.scope, s.scopes.belongs other id = true → other = top := by
  have isHead (top : ScopeId) : top ∈ 0 :: s.units.map OutputUnit.scope ↔ s.scopes.IsHead top := by
    rw [mem_cons, mem_map]
    refine or_congr_right ⟨?_, ?_⟩
    · rintro ⟨unit, member, rfl⟩
      obtain ⟨scope, found, marked, _⟩ := sound.units unit member
      exact ⟨scope, found, marked⟩
    · rintro ⟨scope, found, marked⟩
      exact mem_map.mp (sound.unitsAll top scope found marked)
  simp only [ScopeTree.belongs_iff sound.rooted, isHead]
  exact sound.rooted.exists_head inside

theorem Sound.unitLogs_perm (sound : s.Sound)
    (root : ∀ scope, s.scopes.scopes[0]? = some scope → scope.isUnit = false) : s.unitLogs.Perm s.scopes.log := by
  have parts : s.unitLogs = (0 :: s.units.map OutputUnit.scope).flatMap
      (fun top => s.scopes.log.filter (fun entry => s.scopes.belongs top entry.scope)) := by
    rw [unitLogs, flatMap_cons, flatMap_map]
    rfl
  rw [parts]
  refine flatMap_filter_perm (nodup_cons.mpr ⟨?_, sound.unitsOnce⟩) (fun entry member => ?_)
  · intro member
    obtain ⟨unit, isUnit, isRoot⟩ := mem_map.mp member
    exact absurd isRoot (Nat.ne_of_gt (sound.unit_mem root isUnit).2.1)
  · obtain ⟨scope, found, _⟩ := (sound.log entry member).place
    exact sound.existsUnique_top (ScopeTree.lt_size_of_getElem? found)

end State

/-! ## Setup and teardown -/

def Command.addedObjective? : Command → Option (String × String)
  | addObjective id criterion => some (id, criterion)
  | _ => none

namespace State

theorem Fits.of_ownObjective? (fits : s.Fits var) {objective : String × String}
    (own : var.ownObjective? = some objective) : var.type = .objective ∧ objective.1 ∈ s.objectives ∧
      objective.1 ≠ s.config.registerObjective := by
  unfold Variable.ownObjective? at own
  split at own
  · next id criterion _ value =>
      cases own
      simpa only [Fits, value] using fits
  · cases own

theorem Fits.commands_eq (fits : s.Fits var) : var.commands .setup = var.ownObjective?.toList.map
        (fun objective => .addObjective objective.1 objective.2) ∧ var.commands .teardown = var.ownObjective?.toList.map
        (fun objective => .removeObjective objective.1) := by
  unfold Variable.commands
  cases own : var.ownObjective? with
  | none => cases var.type <;> exact ⟨rfl, rfl⟩
  | some objective =>
    obtain ⟨type, _, _⟩ := fits.of_ownObjective? own
    rw [type]
    exact ⟨rfl, rfl⟩

def objectivesOf (s : State) (entry : Entry) : List (String × String) :=
  match entry.event with
  | .declared id => (s.vars[id]?.bind Variable.ownObjective?).toList
  | .emitted emission => emission.setup.filterMap Command.addedObjective?

theorem Sound.contribution_eq (sound : s.Sound) {entry : Entry} (phases : entry.event.IsActivation ∨
      ∃ id criterion, entry.event = .emitted (.ofObjective id criterion)) : s.contribution .setup entry =
        (s.objectivesOf entry).map (fun objective => .addObjective objective.1 objective.2) ∧
      s.contribution .teardown entry = (s.objectivesOf entry).map (fun objective => .removeObjective objective.1) := by
  unfold contribution objectivesOf
  cases event : entry.event with
  | emitted emission =>
    rw [event] at phases
    rcases phases with ⟨setup, teardown⟩ | ⟨id, criterion, same⟩
    · simp [Emission.commands, setup, teardown]
    · cases same
      exact ⟨rfl, rfl⟩
  | declared id =>
    dsimp only
    cases found : s.vars[id]? with
    | none => exact ⟨rfl, rfl⟩
    | some var => exact (sound.fits id var found).commands_eq

private theorem log_objectives (all : s.DeclaresAll) {first : Entry} {rest : List Entry}
    (log : s.scopes.log = first :: rest) {id criterion : String}
    (isFirst : first.event = .emitted (.ofObjective id criterion)) (others : ∀ entry ∈ rest, entry.event.IsActivation) :
    s.scopes.log.flatMap s.objectivesOf = (id, criterion) :: s.owned := by
  have declared : rest.filterMap Entry.declared? = range s.vars.toList.length := by
    rw [Array.length_toList, ← all, log, filterMap_cons, Entry.declared?, isFirst]
  have later : rest.flatMap s.objectivesOf = (rest.filterMap Entry.declared?).flatMap
      (fun id => (s.vars.toList[id]?.map (fun var => var.ownObjective?.toList)).getD []) := by
    clear log declared
    induction rest with
    | nil => rfl
    | cons entry rest ih =>
      rw [forall_mem_cons] at others
      rw [flatMap_cons, ih others.2, filterMap_cons]
      cases event : entry.event with
      | emitted emission =>
        have empty : emission.setup = [] := by
          have := others.1
          rw [event] at this
          exact this.1
        simp [objectivesOf, Entry.declared?, event, empty]
      | declared id =>
        simp only [objectivesOf, Entry.declared?, event, flatMap_cons, Array.getElem?_toList]
        cases s.vars[id]? <;> rfl
  have opening : s.objectivesOf first = [(id, criterion)] := by
    rw [objectivesOf, isFirst]
    rfl
  rw [log, flatMap_cons, opening, later, declared, flatMap_range_length, owned, filterMap_eq_flatMap_toList]
  rfl

/-- The package sets up every objective in use once, and tears it down once. -/
structure SetsUpOnce (t : State) (pkg : Package) : Prop where
  /-- The objectives in use are the one of the registers and those taken into use since. -/
  inUse : ∃ claimed, t.objectives = t.config.registerObjective :: claimed
  distinct : t.objectives.Nodup
  functions : ∃ objectives : List (String × String), (objectives.map Prod.fst).Perm t.objectives ∧
    pkg.function? "load" = some (objectives.map (fun objective => .addObjective objective.1 objective.2)) ∧
    pkg.function? "unload" = some (objectives.reverse.map (fun objective => .removeObjective objective.1))

theorem Grows.log_begun (grows : Grows .free (begun config src) t) : ∃ first rest, t.scopes.log = first :: rest ∧
      first.event = .emitted (.ofObjective config.registerObjective "dummy") ∧
      ∀ entry ∈ rest, entry.event.IsActivation := by
  obtain ⟨rest, log⟩ := Steps.log_prefix grows.steps
  refine ⟨_, rest, log.symm, rfl, fun entry member => ?_⟩
  have ordered := (Steps.inOrder ((steps_begun config src).trans grows.steps)
    (inOrder_start config src)).ascending
  rw [← log] at ordered
  have later := (pairwise_append.mp ordered).2.2 _ (mem_singleton.mpr rfl) entry member
  refine (grows.emits.phases entry (log ▸ mem_append_right _ member)).resolve_left ?_
  intro isFirst
  rw [mem_singleton.mp isFirst] at later
  exact Nat.lt_irrefl _ later

def setUp (t : State) : List (String × String) :=
  t.unitLogs.flatMap t.objectivesOf

theorem Yields.phaseCommands_eq (yields : t.Yields pkg) :
    t.loadCommands = t.setUp.map (fun objective => .addObjective objective.1 objective.2) ∧
      t.unloadCommands = t.setUp.reverse.map (fun objective => .removeObjective objective.1) := by
  have whole := yields.sound.unitLogs_perm yields.root
  have cmds (entry : Entry) (member : entry ∈ t.unitLogs) :=
    yields.sound.contribution_eq (yields.phases entry (whole.mem_iff.mp member))
  constructor
  · rw [loadCommands, yields.commandsAt_root, append_nil, setUp, map_flatMap]
    exact flatMap_congr (fun entry member => (cmds entry member).1)
  · rw [unloadCommands, setUp, map_reverse, map_flatMap]
    exact congrArg reverse (flatMap_congr (fun entry member => (cmds entry member).2))

theorem Yields.function_phases (yields : t.Yields pkg) : pkg.function? "load" =
        some (t.setUp.map (fun objective => .addObjective objective.1 objective.2)) ∧ pkg.function? "unload" =
        some (t.setUp.reverse.map (fun objective => .removeObjective objective.1)) := by
  obtain ⟨load, unload⟩ := yields.phaseCommands_eq
  rw [Package.function?, Package.function?, yields.package_functions, State.functions, load, unload]
  exact ⟨rfl, rfl⟩

theorem Yields.setsUpOnce (yields : t.Yields pkg) (grows : Grows .free (begun config src) t)
    (owns : t.Owns config.registerObjective) : t.SetsUpOnce pkg := by
  have steps := (steps_begun config src).trans grows.steps
  have config' : t.config = config := grows.config
  obtain ⟨first, rest, log, isFirst, others⟩ := grows.log_begun
  have whole := yields.sound.unitLogs_perm yields.root
  have order : (t.setUp.map Prod.fst).Perm t.objectives := by
    have parts := whole.flatMap_right t.objectivesOf
    rw [log_objectives (Steps.declaresAll steps rfl) log isFirst others] at parts
    rw [owns]
    exact parts.map Prod.fst
  refine ⟨⟨_, by rw [config']; exact owns⟩, Steps.objectives_nodup steps (nodup_singleton _),
    t.setUp, order, yields.function_phases⟩

private theorem tidy_begun (usable : config.Usable) (src : Nat) : (begun config src).Tidy where
  usable := usable
  rooted := (ready_begun usable src).sound.rooted
  named := fun _ _ found => nomatch found
  bound := by
    intro scope name id bound
    obtain ⟨_, found, _⟩ := (ready_begun usable src).sound.bound scope id name bound
    cases found
  made := fun _ _ found => nomatch found
  fields := fun _ _ _ _ found => nomatch found

end State

open Compile in
theorem Engine.compileEntry_changes (usable : config.Usable) {text : String}
    (faithful : ∀ tokens, Token.tokenize src config.separator text = .ok tokens →
      Layout.Faithful ⟨src, config.separator⟩ config tokens)
    (ran : ((forText text).compileEntry text).runFrom (State.start config src) = (.ok (), t)) :
    State.Changes ⟨True, False⟩ (State.begun config src) t := by
  obtain ⟨tokens, tokenized, ran⟩ := compileEntry_begins ran
  have regular : (forText text).Regular ⟨True, True⟩ := Engine.regular trivial _ _
  have fair : (State.begun config src).Fair ⟨True, True⟩ :=
    fun _ => State.tidy_begun usable src
  have acts : Acts ⟨True, True⟩ (State.begun config src)
      (inScope 1 ((forText text).compileTokens tokens)) (fun _ _ => True) :=
    .inScope (regular.compileTokens_acts fair (fun _ => .faithful (faithful tokens tokenized)))
  exact (Leads.of_ran acts ran).1

/-- Where no statement assigns to a construction, the package of a text sets up and tears down each
objective once: that of the registers and those that the text constructs. -/
theorem compileSource_setsUpOnce {config : Config} (valid : config.Valid) {src : Nat} {text : String}
    (faithful : ∀ tokens, Token.tokenize src config.separator text = .ok tokens →
      Layout.Faithful ⟨src, config.separator⟩ config tokens) {pkg : Package}
    (compiled : compileSource src text config = .ok pkg) :
    ∃ t, ((Engine.forText text).compileEntry text).runFrom (State.start config src) =
      (.ok (), t) ∧ t.SetsUpOnce pkg := by
  obtain ⟨t, ran, grows, yields⟩ := compileSource_yields valid.usable compiled
  have changes := Engine.compileEntry_changes valid.usable faithful ran
  have tidy := State.tidy_begun valid.usable src
  have owns : (State.begun config src).Owns config.registerObjective := rfl
  exact ⟨t, ran, yields.setsUpOnce grows (owns.changes tidy trivial id changes)⟩

/-- Whether no statement, in blocks nested less deep than given, assigns to what it constructs. -/
def Layout.isFaithfulWithin (layout : Layout) (config : Config) : Nat → List Token → Bool
  | 0, _ => false
  | depth + 1, tokens =>
    match layout.readStatements tokens with
    | .error _ => true
    | .ok trees => trees.all (fun tree => Tree.isFaithful config tree.items &&
        tree.items.all (fun block =>
          !(block.bracket? == some .brace) ||
            layout.isFaithfulWithin config depth (Engine.bodyTokens block)))

theorem Layout.faithful_of_isFaithfulWithin {layout : Layout} {depth : Nat} {tokens : List Token}
    (within : layout.isFaithfulWithin config depth tokens = true) : layout.Faithful config tokens := by
  intro tree holds
  induction depth generalizing tokens with
  | zero => cases within
  | succ depth ih =>
    rw [isFaithfulWithin] at within
    cases holds with
    | here read member =>
      simp only [read, all_eq_true, Bool.and_eq_true] at within
      exact (within _ member).1
    | inside read member part isBody holds =>
      simp only [read, all_eq_true, Bool.and_eq_true] at within
      obtain ⟨_, _, _, rfl⟩ := isBody
      exact ih (by simpa [Tree.bracket?] using (within _ member).2 _ part) holds

def copyingScript : String :=
  "objective a = new objective(\"dummy\"); \x7b objective b = new objective(\"air\"); a = b; \x7d"

theorem compileSource_setsUpOnce_copied : ∃ pkg, compileSource 0 copyingScript {} = .ok pkg ∧
      ∃ t, ((Engine.forText copyingScript).compileEntry copyingScript).runFrom (State.start {} 0) =
        (.ok (), t) ∧ t.SetsUpOnce pkg := by
  have compiles : (compileSource 0 copyingScript {}).toOption.isSome = true := by decide +kernel
  have faithful : (Token.tokenize 0 ';' copyingScript).toOption.all
      (fun tokens => Layout.isFaithfulWithin ⟨0, ';'⟩ {} 3 tokens) = true := by
    decide +kernel
  cases compiled : compileSource 0 copyingScript {} with
  | error fault =>
    rw [compiled] at compiles
    cases compiles
  | ok pkg =>
    refine ⟨pkg, rfl, compileSource_setsUpOnce (by decide) (fun tokens tokenized => ?_) compiled⟩
    refine @Layout.faithful_of_isFaithfulWithin _ _ 3 _ ?_
    rw [show Token.tokenize 0 ';' copyingScript = .ok tokens from tokenized] at faithful
    exact faithful

def misassigningScript : String :=
  "objective a = new objective(\"dummy\", \"a\"); new objective(\"dummy\", \"b\") = a;"

/-- What is assigned to a construction is set up in its place: `b` is taken into use, but `a` is set
up and torn down twice. -/
theorem compileSource_setsUp_twice : (compileSource 0 misassigningScript {}).toOption.map Package.functions = some
        [("load", [.addObjective "mcs.vars" "dummy", .addObjective "a" "dummy", .addObjective "a" "dummy"]),
        ("unload", [.removeObjective "a", .removeObjective "a", .removeObjective "mcs.vars"]), ("main", [])] ∧
      (((Engine.forText misassigningScript).compileEntry misassigningScript).runFrom
        (State.start {} 0)).2.objectives = ["mcs.vars", "a", "b"] := by
  decide +kernel

end ScoreScript
