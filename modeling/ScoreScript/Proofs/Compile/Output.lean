import Mathlib.Data.List.Nodup
import ScoreScript.Package
import ScoreScript.Proofs.Compile.Grows

/-!
# The functions of a package

The package of a sound state can always be written, and it has a function for every unit: the
commands entered into the scope of the unit, in the order they were entered.
-/

namespace ScoreScript

open List

open ScopeTree

namespace Package

def function? (pkg : Package) (path : String) : Option (List Command) :=
  pkg.functions.lookup path

def paths (pkg : Package) : List String :=
  pkg.functions.map Prod.fst

private theorem insert_of_absent {functions : List (String × List Command)} {path : String}
    (absent : path ∉ functions.map Prod.fst) (cmds : List Command) :
    insert functions path cmds = functions ++ [(path, cmds)] := by
  unfold insert
  rw [if_neg]
  intro present
  obtain ⟨function, mem, same⟩ := any_eq_true.mp present
  exact absent (mem_map.mpr ⟨function, mem, beq_iff_eq.mp same⟩)

private theorem lookup_of_mem {functions : List (String × List Command)} {path : String}
    {cmds : List Command} (once : (functions.map Prod.fst).Nodup)
    (mem : (path, cmds) ∈ functions) : functions.lookup path = some cmds := by
  induction functions with
  | nil => cases mem
  | cons function rest ih =>
    rw [map_cons, nodup_cons] at once
    rw [lookup_cons]
    rcases mem_cons.mp mem with rfl | later
    · simp
    · have apart : path ≠ function.1 := fun same =>
        once.1 (same ▸ mem_map.mpr ⟨_, later, rfl⟩)
      rw [beq_false_of_ne apart]
      exact ih once.2 later

end Package

theorem Variable.commands_eq_nil (var : Variable) {phase : Phase}
    (between : phase = .activation ∨ phase = .tick) : var.commands phase = [] := by
  unfold Variable.commands
  split
  · rcases between with rfl | rfl <;> rfl
  · rfl

/-- The commands of an entry that run with the function of its scope. -/
def Entry.activation (entry : Entry) : List Command :=
  match entry.event with
  | .emitted emission => emission.activation
  | .declared _ => []

namespace State

/-- What an entry contributes to a phase, where the variable it declares is there. -/
def contribution (s : State) (phase : Phase) (entry : Entry) : List Command :=
  match entry.event with
  | .emitted emission => emission.commands phase
  | .declared id => (s.vars[id]?.map (fun var => var.commands phase)).getD []

theorem contribution_activation (s : State) (entry : Entry) : s.contribution .activation entry = entry.activation := by
  unfold contribution Entry.activation
  cases entry.event with
  | emitted emission => rfl
  | declared id =>
    simp only [Variable.commands_eq_nil _ (.inl rfl)]
    cases s.vars[id]? <;> rfl

private theorem contribution_tick (s : State) (entry : Entry) : s.contribution .tick entry = [] := by
  unfold contribution
  cases entry.event with
  | emitted emission => rfl
  | declared id =>
    simp only [Variable.commands_eq_nil _ (.inr rfl)]
    cases s.vars[id]? <;> rfl

variable {s : State}

theorem phaseCommands_eq {entries : List Entry} (recorded : ∀ entry ∈ entries, Recorded s.scopes s.vars.size entry)
    (phase : Phase) : s.phaseCommands phase entries = .ok (entries.flatMap (s.contribution phase)) := by
  induction entries with
  | nil => rfl
  | cons entry rest ih =>
    have first : s.entryCommands phase entry = .ok (s.contribution phase entry) := by
      have known := (recorded entry (mem_cons_self ..)).declared
      unfold entryCommands contribution
      cases event : entry.event with
      | emitted emission => rfl
      | declared id =>
        obtain ⟨var, found⟩ : ∃ var, s.vars[id]? = some var :=
          ⟨_, Array.getElem?_eq_getElem (known id event)⟩
        simp only [found]
        rfl
    rw [phaseCommands, first, ih (fun entry mem => recorded entry (mem_cons_of_mem _ mem))]
    rfl

def unitLog (s : State) (top : Nat) : List Entry :=
  s.scopes.log.filter (fun entry => s.scopes.belongs top entry.scope)

theorem unitEntries_eq {top : Nat} (inside : top < s.scopes.size) : s.scopes.unitEntries top = .ok (s.unitLog top) := by
  obtain ⟨scope, found⟩ := exists_of_lt_size inside
  rw [unitEntries, ScopeTree.scope, found]
  rfl

private theorem unitTable_eq {units : List OutputUnit} (inside : ∀ unit ∈ units, unit.scope < s.scopes.size) :
    s.unitTable units = .ok (units.map (fun unit => (unit.path, s.unitLog unit.scope))) := by
  induction units with
  | nil => rfl
  | cons unit rest ih =>
    rw [unitTable, unitEntries_eq (inside unit (mem_cons_self ..)),
      ih (fun unit mem => inside unit (mem_cons_of_mem _ mem))]
    rfl

private theorem unitFunctions_eq {table : List (String × List Entry)}
    (recorded : ∀ unit ∈ table, ∀ entry ∈ unit.2, Recorded s.scopes s.vars.size entry)
    {functions : List (String × List Command)} (once : (functions.map Prod.fst ++ table.map Prod.fst).Nodup) :
    s.unitFunctions table functions = .ok (functions ++
      table.map (fun unit => (unit.1, unit.2.flatMap (s.contribution .activation)))) := by
  induction table generalizing functions with
  | nil => simp [unitFunctions]
  | cons unit rest ih =>
    obtain ⟨path, entries⟩ := unit
    have cmds := phaseCommands_eq (recorded (path, entries) (mem_cons_self ..)) .activation
    have absent : path ∉ functions.map Prod.fst := fun mem =>
      (nodup_append.mp once).2.2 path mem path (by simp) rfl
    rw [unitFunctions, cmds]
    simp only [bind, Except.bind, Package.insert_of_absent absent]
    rw [ih (fun unit mem => recorded unit (mem_cons_of_mem _ mem)) (by simpa using once)]
    simp

/-! ## The commands of a unit -/

def commandsOf (added : List (Nat × List Command)) (scope : Nat) : List Command :=
  (added.filter (fun entry => entry.1 == scope)).flatMap Prod.snd

@[simp]
theorem commandsOf_append (left right : List (Nat × List Command)) (scope : Nat) :
    commandsOf (left ++ right) scope = commandsOf left scope ++ commandsOf right scope := by
  simp [commandsOf]

@[simp]
theorem commandsOf_here (scope : Nat) (cmds : List Command) : commandsOf [(scope, cmds)] scope = cmds := by
  simp [commandsOf]

theorem commandsOf_eq_nil {added : List (Nat × List Command)} {scope : Nat}
    (elsewhere : ∀ entry ∈ added, entry.1 ≠ scope) : commandsOf added scope = [] := by
  rw [commandsOf, filter_eq_nil_iff.mpr]
  · rfl
  · intro entry mem
    simpa using elsewhere entry mem

theorem mem_commandsOf {added : List (Nat × List Command)} {scope : Nat} {cmd : Command} :
    cmd ∈ commandsOf added scope ↔ ∃ cmds, (scope, cmds) ∈ added ∧ cmd ∈ cmds := by
  simp only [commandsOf, mem_flatMap, mem_filter, beq_iff_eq, Prod.exists]
  constructor
  · rintro ⟨place, cmds, ⟨mem, rfl⟩, inside⟩
    exact ⟨cmds, mem, inside⟩
  · rintro ⟨cmds, mem, inside⟩
    exact ⟨scope, cmds, ⟨mem, rfl⟩, inside⟩

def commandsAt (s : State) (scope : Nat) : List Command :=
  commandsOf s.emissions scope

theorem commandsAt_eq {t : State} (kept : s.emissions <+: t.emissions) (scope : Nat) :
    t.commandsAt scope = s.commandsAt scope ++ commandsOf (s.since t) scope := by
  rw [commandsAt, emissions_eq kept, commandsOf_append, commandsAt]

theorem activation_unitLog (sound : s.Sound) (unit : Nat) :
    (s.unitLog unit).flatMap (s.contribution .activation) = s.commandsAt unit := by
  have recorded := sound.log
  unfold unitLog commandsAt commandsOf emissions
  generalize s.scopes.log = log at recorded
  induction log with
  | nil => rfl
  | cons entry rest ih =>
    have rest := ih (fun entry mem => recorded entry (mem_cons_of_mem _ mem))
    obtain ⟨scope, found, place⟩ := (recorded entry (mem_cons_self ..)).place
    rw [filter_cons, filterMap_cons]
    cases event : entry.event with
    | declared id =>
      have none : s.contribution .activation entry = [] := by
        rw [contribution_activation, Entry.activation, event]
      simp only
      split
      · rw [flatMap_cons, none, nil_append, rest]
      · exact rest
    | emitted emission =>
      have same : s.scopes.belongs unit entry.scope = (entry.scope == unit) := by
        rcases place (by rw [event]; rfl) with root | isUnit
        · obtain ⟨top, isTop, alone, _⟩ := sound.rooted.root
          simp [root, belongs, belongsUpTo, isTop, alone]
        · exact belongs_of_isUnit found isUnit
      have cmds : s.contribution .activation entry = emission.activation := by
        rw [contribution_activation, Entry.activation, event]
      simp only [filter_cons, same]
      split
      · rw [flatMap_cons, flatMap_cons, cmds, rest]
      · exact rest

/-! ## The package of a state -/

theorem Sound.pathAt_not_phase (sound : s.Sound) (usable : s.config.Usable) {id : Nat}
    (inside : id < s.scopes.size) (positive : 0 < id) : s.pathAt id ∉ phaseFunctions := by
  obtain ⟨rest, segments, _⟩ := sound.segments_entry usable inside positive
  rw [pathAt, segments]
  cases rest with
  | nil => simpa using usable.entryFree
  | cons next rest =>
    have slash : '/' ∈ ("/".intercalate (s.config.entry :: next :: rest)).toList := by
      simp [String.toList_intercalate]
    intro mem
    have plain : ∀ name ∈ phaseFunctions, '/' ∉ name.toList := by decide
    exact plain _ mem slash

theorem Sound.unit_mem (sound : s.Sound) (root : ∀ scope, s.scopes.scopes[0]? = some scope → scope.isUnit = false)
    {unit : OutputUnit} (mem : unit ∈ s.units) :
    unit.scope < s.scopes.size ∧ 0 < unit.scope ∧ unit.path = s.pathAt unit.scope := by
  obtain ⟨scope, found, marked, path⟩ := sound.units unit mem
  refine ⟨lt_size_of_getElem? found, ?_, path⟩
  refine Nat.pos_of_ne_zero (fun isRoot => ?_)
  rw [isRoot] at found
  rw [root scope found] at marked
  cases marked

theorem Sound.paths_nodup (sound : s.Sound) (usable : s.config.Usable)
    (root : ∀ scope, s.scopes.scopes[0]? = some scope → scope.isUnit = false) :
    (s.units.map OutputUnit.path).Nodup := by
  refine List.Nodup.map_on ?_ (List.Nodup.of_map _ sound.unitsOnce)
  intro left isLeft right isRight same
  obtain ⟨insideLeft, positiveLeft, pathLeft⟩ := sound.unit_mem root isLeft
  obtain ⟨insideRight, positiveRight, pathRight⟩ := sound.unit_mem root isRight
  refine inj_on_of_nodup_map sound.unitsOnce isLeft isRight ?_
  exact sound.path_injective usable insideLeft insideRight positiveLeft positiveRight
    (pathLeft.symm.trans (same.trans pathRight))

def unitLogs (s : State) : List Entry :=
  s.unitLog 0 ++ s.units.flatMap (fun unit => s.unitLog unit.scope)

def loadCommands (s : State) : List Command :=
  s.unitLogs.flatMap (s.contribution .setup) ++ s.commandsAt 0

def unloadCommands (s : State) : List Command :=
  (s.unitLogs.flatMap (s.contribution .teardown)).reverse

/-- The functions of a sound state: two for the setup and the teardown, and one for each unit. -/
def functions (s : State) : List (String × List Command) :=
  ("load", s.loadCommands) :: ("unload", s.unloadCommands) ::
    s.units.map (fun unit => (unit.path, s.commandsAt unit.scope))

theorem functions_paths (s : State) : s.functions.map Prod.fst = "load" :: "unload" :: s.units.map OutputUnit.path := by
  simp [functions]

section

variable (sound : s.Sound) (usable : s.config.Usable)
  (root : ∀ scope, s.scopes.scopes[0]? = some scope → scope.isUnit = false)
include sound usable root

theorem Sound.functions_nodup : (s.functions.map Prod.fst).Nodup := by
  have apart : ∀ name ∈ phaseFunctions, name ∉ s.units.map OutputUnit.path := by
    intro name isPhase mem
    obtain ⟨unit, isUnit, rfl⟩ := mem_map.mp mem
    obtain ⟨inside, positive, path⟩ := sound.unit_mem root isUnit
    exact sound.pathAt_not_phase usable inside positive (path ▸ isPhase)
  rw [functions_paths, nodup_cons, nodup_cons, mem_cons]
  refine ⟨?_, apart _ (by decide), sound.paths_nodup usable root⟩
  rintro (same | mem)
  · exact absurd same (by decide)
  · exact apart _ (by decide) mem

theorem Sound.flush_functions : s.flush = .ok { nameSpace := s.config.nameSpace, functions := s.functions } := by
  have positive : 0 < s.scopes.size := Nat.zero_lt_of_lt sound.current
  have recorded : ∀ top : Nat, ∀ entry ∈ s.unitLog top, Recorded s.scopes s.vars.size entry :=
    fun top entry mem => sound.log entry (mem_filter.mp mem).1
  let table := s.units.map (fun unit => (unit.path, s.unitLog unit.scope))
  have inTable : ∀ unit ∈ table, ∀ entry ∈ unit.2, Recorded s.scopes s.vars.size entry := by
    intro unit mem
    obtain ⟨output, _, rfl⟩ := mem_map.mp mem
    exact recorded output.scope
  have logs : s.unitLog 0 ++ table.flatMap Prod.snd = s.unitLogs := by
    simp [table, unitLogs, flatMap_map]
  have all : ∀ entry ∈ s.unitLogs, Recorded s.scopes s.vars.size entry := by
    intro entry mem
    rcases mem_append.mp mem with outside | unit
    · exact recorded 0 entry outside
    · obtain ⟨unit, _, isEntry⟩ := mem_flatMap.mp unit
      exact recorded unit.scope entry isEntry
  have still : s.unitLogs.flatMap (s.contribution .tick) = [] :=
    flatMap_eq_nil_iff.mpr (fun entry _ => s.contribution_tick entry)
  have once := sound.functions_nodup usable root
  unfold flush
  rw [show ScopeTree.root = 0 from rfl, unitEntries_eq positive,
    unitTable_eq (fun unit mem => (sound.unit_mem root mem).1)]
  simp only [bind, Except.bind]
  rw [logs, phaseCommands_eq all, phaseCommands_eq (recorded 0), phaseCommands_eq all, phaseCommands_eq all]
  simp only [still, isEmpty_nil, if_true]
  rw [Package.insert_of_absent (by simp), unitFunctions_eq inTable (by
    simpa [table, functions, Function.comp_def] using once)]
  simp only [table, functions, map_map, Function.comp_def, activation_unitLog sound]
  rfl

theorem Sound.flush_eq : ∃ pkg, s.flush = .ok pkg ∧ pkg.nameSpace = s.config.nameSpace ∧
      ∀ (id : Nat) (scope : Scope), s.scopes.scopes[id]? = some scope → scope.isUnit = true →
        pkg.function? (s.pathAt id) = some (s.commandsAt id) := by
  refine ⟨_, sound.flush_functions usable root, rfl, ?_⟩
  intro id scope found marked
  obtain ⟨unit, mem, rfl⟩ := mem_map.mp (sound.unitsAll id scope found marked)
  obtain ⟨_, _, path⟩ := sound.unit_mem root mem
  refine Package.lookup_of_mem (sound.functions_nodup usable root) ?_
  rw [← path]
  exact mem_cons_of_mem _ (mem_cons_of_mem _ (mem_map_of_mem mem))

end

end State

end ScoreScript
