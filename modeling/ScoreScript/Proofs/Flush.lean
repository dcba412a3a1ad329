import Mathlib.Data.List.Sort
import ScoreScript.Proofs.Program

/-!
# Everything entered is written once

Commands are entered into units, each with a number that counts all entries. The function of a unit
has the commands of its own part of the log; put together by their numbers, the functions of all
units give back everything that was entered. Nothing is lost on the way, written twice or moved.
-/

namespace ScoreScript

open List

variable {s : State}

namespace State

theorem Step.inOrder {t : State} (step : Step s t) (ordered : s.scopes.InOrder) : t.scopes.InOrder := by
  have enter := ordered.enter s.current
  cases step with
  | enter =>
    have entered := enter (.declared s.vars.size)
    exact ⟨entered.ascending, entered.below⟩
  | log => exact enter _
  | _ => exact ⟨ordered.ascending, ordered.below⟩

theorem Steps.inOrder {t : State} (steps : Steps s t) (ordered : s.scopes.InOrder) : t.scopes.InOrder := by
  induction steps with
  | refl => exact ordered
  | tail _ step ih => exact step.inOrder ih

theorem inOrder_start (config : Config) (src : Nat) : (start config src).scopes.InOrder := by
  have empty : ({} : ScopeTree).InOrder := ⟨.nil, nofun⟩
  exact empty.enter _ _

end State

/-! ## Commands with their numbers -/

/-- A command as it was entered: the number of its entry, its place there, and the scope. -/
structure Registered where
  seq : Nat
  place : Nat
  scope : ScopeId
  command : Command
deriving DecidableEq

def Registered.before (first second : Registered) : Bool :=
  first.seq < second.seq || (first.seq == second.seq && first.place ≤ second.place)

theorem Registered.before_trans (a b c : Registered) (first : a.before b = true)
    (second : b.before c = true) : a.before c = true := by
  simp only [before, Bool.or_eq_true, Bool.and_eq_true, decide_eq_true_eq, beq_iff_eq] at *
  omega

theorem Registered.before_total (a b : Registered) : (a.before b || b.before a) = true := by
  simp only [before, Bool.or_eq_true, Bool.and_eq_true, decide_eq_true_eq, beq_iff_eq]
  omega

def Entry.registered (entry : Entry) : List Registered :=
  entry.activation.zipIdx.map (fun numbered => ⟨entry.seq, numbered.2, entry.scope, numbered.1⟩)

theorem Entry.registered_commands (entry : Entry) : entry.registered.map Registered.command = entry.activation := by
  rw [registered, map_map]
  exact zipIdx_map_fst 0 _

variable {line : Registered}

theorem Entry.mem_registered {entry : Entry} (mem : line ∈ entry.registered) :
    line.seq = entry.seq ∧ line.scope = entry.scope ∧ line.command ∈ entry.activation := by
  obtain ⟨numbered, isNumbered, rfl⟩ := mem_map.mp mem
  exact ⟨rfl, rfl, fst_mem_of_mem_zipIdx isNumbered⟩

theorem Entry.registered_ascending (entry : Entry) : entry.registered.Pairwise (fun first second =>
      first.seq = second.seq ∧ first.place < second.place) := by
  rw [registered, pairwise_map, pairwise_iff_getElem]
  intro i j _ _ smaller
  simpa using smaller

variable {pkg : Package}

namespace State

def registered (s : State) : List Registered :=
  s.scopes.log.flatMap Entry.registered

def registeredIn (s : State) (unit : ScopeId) : List Registered :=
  s.registered.filter (fun line => s.scopes.belongs unit line.scope)

theorem registered_commands (s : State) : s.registered.map Registered.command = s.emitted := by
  rw [registered, map_flatMap, emitted]
  refine congrArg (fun part => s.scopes.log.flatMap part) (funext fun entry => ?_)
  exact entry.registered_commands

theorem registered_ascending (ordered : s.scopes.InOrder) :
    s.registered.Pairwise (fun first second => first.before second ∧ ¬ second.before first) := by
  refine pairwise_flatMap.mpr ⟨fun entry _ => ?_, ordered.ascending.imp ?_⟩
  · refine entry.registered_ascending.imp ?_
    rintro first second ⟨same, apart⟩
    simp [Registered.before, same, apart, Nat.le_of_lt apart]
  · intro first second smaller line isLine other isOther
    obtain ⟨seq, _⟩ := Entry.mem_registered isLine
    obtain ⟨seq', _⟩ := Entry.mem_registered isOther
    simp only [Registered.before, seq, seq', Bool.or_eq_true, Bool.and_eq_true, decide_eq_true_eq, beq_iff_eq]
    omega

private theorem registeredIn_commands (sound : s.Sound) (unit : ScopeId) :
    (s.registeredIn unit).map Registered.command = s.commandsAt unit := by
  have activation : s.contribution .activation = Entry.activation :=
    funext s.contribution_activation
  rw [← activation_unitLog sound, registeredIn, registered, unitLog, filter_flatMap, map_flatMap, activation]
  induction s.scopes.log with
  | nil => rfl
  | cons entry rest ih =>
    have part : (entry.registered.filter (fun line => s.scopes.belongs unit line.scope)).map
        Registered.command =
        if s.scopes.belongs unit entry.scope = true then entry.activation else [] := by
      split
      · next belongs =>
          rw [filter_eq_self.mpr, entry.registered_commands]
          intro line mem
          rw [(Entry.mem_registered mem).2.1, belongs]
      · next apart =>
          rw [filter_eq_nil_iff.mpr, map_nil]
          intro line mem
          rw [(Entry.mem_registered mem).2.1]
          exact apart
    rw [flatMap_cons, filter_cons, part, ih]
    split <;> simp

theorem Yields.unit_of_registered (yields : s.Yields pkg) (mem : line ∈ s.registered) :
    ∃ scope, s.scopes.scopes[line.scope]? = some scope ∧ scope.isUnit = true := by
  obtain ⟨entry, isEntry, inside⟩ := mem_flatMap.mp mem
  obtain ⟨_, place, entered⟩ := Entry.mem_registered inside
  cases event : entry.event with
  | declared id => simp [Entry.activation, event] at entered
  | emitted emission =>
    rw [Entry.activation, event] at entered
    rw [place]
    exact yields.placed (entry.scope, emission.activation)
      (mem_filterMap.mpr ⟨entry, isEntry, by rw [event]⟩) (ne_nil_of_mem entered)

theorem Yields.existsUnique_unit (yields : s.Yields pkg) (mem : line ∈ s.registered) :
    ∃ unit ∈ s.units, s.scopes.belongs unit.scope line.scope = true ∧
      ∀ other ∈ s.units, s.scopes.belongs other.scope line.scope = true → other = unit := by
  obtain ⟨scope, found, isUnit⟩ := yields.unit_of_registered mem
  obtain ⟨unit, inside, place⟩ := mem_map.mp (yields.sound.unitsAll _ scope found isUnit)
  have belongs : ∀ top, s.scopes.belongs top line.scope = true ↔ line.scope = top := by
    intro top
    rw [ScopeTree.belongs_of_isUnit found isUnit, beq_iff_eq]
  refine ⟨unit, inside, (belongs _).mpr place.symm, ?_⟩
  intro other isOther isPart
  exact inj_on_of_nodup_map yields.sound.unitsOnce isOther inside (((belongs _).mp isPart).symm.trans place.symm)

end State

theorem flatMap_filter_perm {α β : Type} {parts : List α} {items : List β} {isIn : α → β → Bool} (once : parts.Nodup)
    (one : ∀ item ∈ items, ∃ part ∈ parts, isIn part item = true ∧
      ∀ other ∈ parts, isIn other item = true → other = part) :
    (parts.flatMap (fun part => items.filter (isIn part))).Perm items := by
  induction parts generalizing items with
  | nil =>
    cases items with
    | nil => exact .nil
    | cons item _ =>
      obtain ⟨_, impossible, _⟩ := one item (mem_cons_self ..)
      cases impossible
  | cons first rest ih =>
    obtain ⟨new, once⟩ := nodup_cons.mp once
    -- What is not in the first part is shared out among the rest.
    have others : ∀ part ∈ rest, items.filter (isIn part) =
        (items.filter (fun item => !isIn first item)).filter (isIn part) := by
      intro part mem
      rw [filter_filter]
      refine filter_congr (fun item inside => ?_)
      obtain ⟨own, _, _, only⟩ := one item inside
      cases isPart : isIn part item with
      | false => rfl
      | true =>
        have apart : isIn first item = false := by
          refine Bool.eq_false_iff.mpr (fun isFirst => ?_)
          have same := (only _ (mem_cons_self ..) isFirst).trans
            (only _ (mem_cons_of_mem _ mem) isPart).symm
          exact new (same ▸ mem)
        simp [apart]
    have later : (rest.flatMap (fun part => items.filter (isIn part))).Perm
        (items.filter (fun item => !isIn first item)) := by
      rw [flatMap_congr others]
      refine ih once (fun item mem => ?_)
      obtain ⟨inside, apart⟩ := mem_filter.mp mem
      obtain ⟨own, isOwn, holds, only⟩ := one item inside
      refine ⟨own, ?_, holds, fun other isOther => only other (mem_cons_of_mem _ isOther)⟩
      refine (mem_cons.mp isOwn).resolve_left ?_
      rintro rfl
      rw [holds] at apart
      cases apart
    rw [flatMap_cons]
    exact (later.append_left _).trans (filter_append_perm (isIn first) items)

namespace State

theorem Yields.mergeSort_registered (yields : s.Yields pkg) (ordered : s.scopes.InOrder) :
    (s.units.flatMap (fun unit => s.registeredIn unit.scope)).mergeSort Registered.before = s.registered := by
  have ascending := registered_ascending ordered
  have parts : (s.units.flatMap (fun unit => s.registeredIn unit.scope)).Perm s.registered :=
    flatMap_filter_perm (List.Nodup.of_map _ yields.sound.unitsOnce)
      (fun _ mem => yields.existsUnique_unit mem)
  have sorted := pairwise_mergeSort Registered.before_trans Registered.before_total
    (s.units.flatMap (fun unit => s.registeredIn unit.scope))
  have whole := (mergeSort_perm _ Registered.before).trans parts
  refine whole.eq_of_pairwise ?_ sorted (ascending.imp And.left)
  -- Of two different commands only one was entered before the other.
  intro first second isFirst isSecond before after
  obtain ⟨i, _, rfl⟩ := getElem_of_mem (whole.mem_iff.mp isFirst)
  obtain ⟨j, _, rfl⟩ := getElem_of_mem isSecond
  rcases Nat.lt_trichotomy i j with smaller | rfl | larger
  · exact absurd after (pairwise_iff_getElem.mp ascending i j _ _ smaller).2
  · rfl
  · exact absurd before (pairwise_iff_getElem.mp ascending j i _ _ larger).2

/-- What the package of a state has of everything that was entered. -/
structure WritesAll (s : State) (pkg : Package) : Prop where
  distinct : (s.units.map OutputUnit.path).Nodup
  named : ∀ unit ∈ s.units, unit.path ∉ phaseFunctions
  /-- There are no other functions, and those of the units stand in the order they were opened. -/
  paths : pkg.paths = "load" :: "unload" :: s.units.map OutputUnit.path
  /-- A function has the commands that were entered into the scope of its unit or into one inside
  that is no unit of its own, in the order they were entered. -/
  function : ∀ unit ∈ s.units, pkg.function? unit.path = some ((s.registeredIn unit.scope).map Registered.command)
  part : ∀ unit ∈ s.units, ∀ line,
    line ∈ s.registeredIn unit.scope ↔ line ∈ s.registered ∧ s.scopes.LiesIn unit.scope line.scope
  subsequence : ∀ unit ∈ s.units, (s.registeredIn unit.scope).Sublist s.registered
  /-- Put together in the order they were entered, the commands of all units are everything. -/
  whole : (s.units.flatMap (fun unit => s.registeredIn unit.scope)).mergeSort Registered.before = s.registered
  emitted : s.registered.map Registered.command = s.emitted

theorem Yields.writesAll (yields : s.Yields pkg) (ordered : s.scopes.InOrder) : s.WritesAll pkg := by
  refine
    { distinct := yields.sound.paths_nodup yields.usable yields.root
      named := ?named
      paths := by rw [Package.paths, yields.package_functions, functions_paths]
      function := ?function
      part := ?part
      subsequence := fun unit _ => filter_sublist
      whole := yields.mergeSort_registered ordered
      emitted := s.registered_commands }
  case named =>
    intro unit mem
    obtain ⟨inside, positive, path⟩ := yields.sound.unit_mem yields.root mem
    exact path ▸ yields.sound.pathAt_not_phase yields.usable inside positive
  case function =>
    intro unit mem
    obtain ⟨scope, found, isUnit, path⟩ := yields.sound.units unit mem
    rw [registeredIn_commands yields.sound, path]
    exact yields.functions unit.scope scope found isUnit
  case part =>
    intro unit _ line
    rw [registeredIn, mem_filter, ScopeTree.belongs_iff yields.sound.rooted]

end State

/-- The package of a text has all the commands that were entered while it was compiled, each in the
function of its unit, in the order they were entered. -/
theorem compileSource_writesAll {config : Config} (valid : config.Valid) {src : Nat}
    {text : String} {pkg : Package} (compiled : compileSource src text config = .ok pkg) :
    ∃ t, ((Engine.forText text).compileEntry text).runFrom (State.start config src) =
      (.ok (), t) ∧ t.WritesAll pkg := by
  obtain ⟨t, ran, grows, yields⟩ := compileSource_yields valid.usable compiled
  have ordered : t.scopes.InOrder :=
    State.Steps.inOrder ((State.steps_begun config src).trans grows.steps)
      (State.inOrder_start config src)
  exact ⟨t, ran, yields.writesAll ordered⟩

/-- The block and its `if` are units inside the entry. -/
theorem compileSource_writesAll_nested :
    ∃ pkg, compileSource 0 "int a = 1; \x7b if (a) a = 2; \x7d" {} = .ok pkg ∧
      ∃ t, ((Engine.forText "int a = 1; \x7b if (a) a = 2; \x7d").compileEntry
          "int a = 1; \x7b if (a) a = 2; \x7d").runFrom (State.start {} 0) = (.ok (), t) ∧
        t.WritesAll pkg := by
  have compiles : (compileSource 0 "int a = 1; \x7b if (a) a = 2; \x7d" {}).toOption.isSome = true := by
    decide +kernel
  cases compiled : compileSource 0 "int a = 1; \x7b if (a) a = 2; \x7d" {} with
  | error fault =>
    rw [compiled] at compiles
    cases compiles
  | ok pkg => exact ⟨pkg, rfl, compileSource_writesAll (by decide) compiled⟩

end ScoreScript
