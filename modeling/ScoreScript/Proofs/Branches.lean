import Mathlib.Data.List.Flatten
import ScoreScript.Proofs.Program
import ScoreScript.Proofs.Visits

/-!
# Exactly one branch runs

An `if` with two bodies becomes two commands, one after the other, that call the bodies under opposite
guards. Between the two the first body may run, with everything that it calls. None of its commands
writes the register that the guards read: that is the register of a generated name, and the words of
the script are no generated names.
-/

namespace ScoreScript

open List

open Engine ScopeTree State

variable {after before : List Command} {id outer unit : Nat} {reg : Register} {s u : State}

open Engine (guardedCall)

/-- Each time the function with a path runs, it calls exactly one of two others: its lines call them
under opposite guards on a register, which is not written between the two lines. -/
structure Package.TakesOneBranch (pkg : Package) (path : String) (reg : Register)
    (first second : String) : Prop where
  lines : ∃ before after, pkg.function? path = some
    (before ++ [guardedCall false reg pkg.nameSpace first,
      guardedCall true reg pkg.nameSpace second] ++ after)
  distinct : first ≠ second
  canRun : ∀ body, pkg.function? path = some body → pkg.CanRun body
  one : ∀ body board trace last, pkg.function? path = some body → Runs pkg body board trace last →
    trace.count (.call pkg.nameSpace first) + trace.count (.call pkg.nameSpace second) = 1
  kept : ∀ board trace last, Runs pkg [guardedCall false reg pkg.nameSpace first] board trace last →
    ∀ cmd ∈ trace, ¬ cmd.Writes reg

/-! ## Guarded calls -/

namespace Runs

variable {pkg : Package} {trace : List Command} {board last : Board}

private theorem guardedCall_cases {ifZero : Bool} {path : String}
    (runs : Runs pkg [guardedCall ifZero reg pkg.nameSpace path] board trace last) :
    (decide (board reg = 0) ≠ ifZero ∧ trace = [] ∧ last = board) ∨
      decide (board reg = 0) = ifZero ∧ ∃ body inner, pkg.function? path = some body ∧
        Runs pkg body board inner last ∧ trace = .call pkg.nameSpace path :: inner := by
  cases runs with
  | change effect _ => cases effect
  | skip fails later =>
    cases later
    exact .inl ⟨fails, rfl, rfl⟩
  | pass succeeds later =>
    cases later with
    | change effect _ => cases effect
    | call found inside later =>
      cases later
      exact .inr ⟨succeeds, _, _, found, inside, by rw [append_nil]⟩

end Runs

namespace State

variable {t : State} {pkg : Package}

theorem Yields.callees_nodup (yields : t.Yields pkg) (id : Nat) :
    ((t.commandsAt id).filterMap Command.callee?).Nodup := by
  have same : (t.commandsAt id).filterMap Command.callee? =
      callees (t.emissions.filter (fun entry => entry.1 == id)) := by
    simp only [commandsAt, commandsOf, callees, filterMap_flatMap]
  rw [same]
  exact yields.once.sublist (filter_sublist.flatMap _)

def IsUnitIn (t : State) (unit outer : Nat) : Prop :=
  ∃ scope, t.scopes.scopes[unit]? = some scope ∧ scope.isUnit = true ∧ scope.parent = some outer

theorem Yields.function_of_unit (yields : t.Yields pkg) (isUnit : t.IsUnitIn unit outer) :
    pkg.function? (t.pathAt unit) = some (t.commandsAt unit) := by
  obtain ⟨scope, found, marked, _⟩ := isUnit
  exact yields.functions unit scope found marked

theorem Yields.lt_of_unit (yields : t.Yields pkg) (isUnit : t.IsUnitIn unit outer) : outer < unit := by
  obtain ⟨scope, found, _, parent⟩ := isUnit
  exact yields.sound.rooted.lt_of_parent found parent

theorem Continues.isUnitIn {old : Nat} (continues : Continues old s t) (isUnit : s.IsUnitIn unit outer) :
    t.IsUnitIn unit outer := by
  obtain ⟨scope, found, marked, parent⟩ := isUnit
  obtain ⟨later, there, keeps⟩ := continues.scopes unit scope found
  exact ⟨later, there, keeps.isUnit.trans marked, keeps.parent.trans parent⟩

/-- The command calls no other units than those after `outer`, and one of them not. -/
def CallsAside (t : State) (outer avoided : Nat) (cmd : Command) : Prop :=
  ∀ callee, cmd.callee? = some callee → ∃ (unit : Nat) (scope : Scope), outer < unit ∧
    unit ≠ avoided ∧ t.scopes.scopes[unit]? = some scope ∧ scope.isUnit = true ∧
      callee = (t.config.nameSpace, t.pathAt unit)

theorem Yields.callsAside_of_inside (yields : t.Yields pkg) {avoided : Nat}
    (isAvoided : t.IsUnitIn avoided outer) (inside : outer < id) {cmd : Command}
    (mem : cmd ∈ t.commandsAt id) : t.CallsAside outer avoided cmd := by
  intro callee called
  obtain ⟨unit, scope, _, found, isUnit, parent, isCallee⟩ := yields.callsUnit_of_mem mem called
  have after := yields.sound.rooted.lt_of_parent found parent
  refine ⟨unit, scope, Nat.lt_trans inside after, ?_, found, isUnit, isCallee⟩
  rintro rfl
  obtain ⟨other, isOther, _, parent'⟩ := isAvoided
  rw [found] at isOther
  cases isOther
  rw [parent] at parent'
  cases parent'
  exact Nat.lt_irrefl _ inside

theorem Yields.callsAside_of_beside (yields : t.Yields pkg) {avoided : Nat} {call : Command}
    (lines : t.commandsAt outer = before ++ call :: after)
    (calls : call.callee? = some (t.config.nameSpace, t.pathAt avoided)) :
    ∀ cmd ∈ before ++ after, t.CallsAside outer avoided cmd := by
  have once := yields.callees_nodup outer
  rw [lines, filterMap_append, filterMap_cons_some calls, nodup_middle, ← filterMap_append] at once
  intro cmd mem callee called
  have isCommand : cmd ∈ t.commandsAt outer := by
    rw [lines]
    exact mem_append.mpr ((mem_append.mp mem).imp_right (mem_cons_of_mem _))
  obtain ⟨unit, scope, _, found, isUnit, parent, rfl⟩ := yields.callsUnit_of_mem isCommand called
  refine ⟨unit, scope, yields.sound.rooted.lt_of_parent found parent, ?_, found, isUnit, rfl⟩
  rintro rfl
  exact (nodup_cons.mp once).1 (mem_filterMap.mpr ⟨cmd, mem, called⟩)

variable {board last : Board} {trace : List Command}

theorem Yields.count_eq_zero (yields : t.Yields pkg) {avoided : Nat} (isAvoided : t.IsUnitIn avoided outer)
    {cmds : List Command} (runs : Runs pkg cmds board trace last)
    (aside : ∀ cmd ∈ cmds, t.CallsAside outer avoided cmd) :
    trace.count (.call pkg.nameSpace (t.pathAt avoided)) = 0 := by
  have all : ∀ cmd ∈ trace, t.CallsAside outer avoided cmd := by
    refine runs.trace_forall (fun _ _ _ => id) ?_ aside
    intro path body called found cmd mem
    obtain ⟨unit, scope, after, _, isUnit, marked, same⟩ := called _ rfl
    cases (Prod.mk.inj same).2
    rw [yields.functions unit scope isUnit marked] at found
    cases found
    exact yields.callsAside_of_inside isAvoided after mem
  refine List.count_eq_zero.mpr (fun mem => ?_)
  obtain ⟨unit, scope, after, apart, found, _, same⟩ := all _ mem _ rfl
  have before := yields.lt_of_unit isAvoided
  obtain ⟨other, isOther, _⟩ := isAvoided
  refine apart (yields.sound.path_injective yields.usable (lt_size_of_getElem? found)
    (lt_size_of_getElem? isOther) (Nat.zero_lt_of_lt after) (Nat.zero_lt_of_lt before) ?_)
  exact (Prod.mk.inj same).2.symm

theorem Yields.count_guardedCall (yields : t.Yields pkg) (isUnit : t.IsUnitIn unit outer) {ifZero : Bool}
    {trace : List Command} {board last : Board}
    (runs : Runs pkg [guardedCall ifZero reg pkg.nameSpace (t.pathAt unit)] board trace last) :
    trace.count (.call pkg.nameSpace (t.pathAt unit)) = if decide (board reg = 0) = ifZero then 1 else 0 := by
  rcases runs.guardedCall_cases with ⟨fails, rfl, rfl⟩ | ⟨succeeds, body, inner, found, inside, rfl⟩
  · rw [if_neg fails, count_nil]
  · rw [yields.function_of_unit isUnit] at found
    cases found
    rw [if_pos succeeds, count_cons_self, yields.count_eq_zero isUnit inside
      (fun _ => yields.callsAside_of_inside isUnit (yields.lt_of_unit isUnit))]

theorem Yields.one_branch (yields : t.Yields pkg) {one two : Nat} (isOne : t.IsUnitIn one outer)
    (isTwo : t.IsUnitIn two outer) (lines : t.commandsAt outer = before ++
      [guardedCall false reg pkg.nameSpace (t.pathAt one),
        guardedCall true reg pkg.nameSpace (t.pathAt two)] ++ after) (kept : ∀ board trace last,
      Runs pkg [guardedCall false reg pkg.nameSpace (t.pathAt one)] board trace last →
      last reg = board reg) {board last : Board} {trace : List Command}
    (runs : Runs pkg (t.commandsAt outer) board trace last) : trace.count (.call pkg.nameSpace (t.pathAt one)) +
      trace.count (.call pkg.nameSpace (t.pathAt two)) = 1 := by
  have besideOne : ∀ cmd ∈ before ++ guardedCall true reg pkg.nameSpace (t.pathAt two) :: after,
      t.CallsAside outer one cmd :=
    yields.callsAside_of_beside (by simpa using lines) (by rw [← yields.nameSpace]; rfl)
  have besideTwo : ∀ cmd ∈ before ++ [guardedCall false reg pkg.nameSpace (t.pathAt one)] ++ after,
      t.CallsAside outer two cmd :=
    yields.callsAside_of_beside (by simpa using lines) (by rw [← yields.nameSpace]; rfl)
  rw [lines] at runs
  obtain ⟨_, middle, _, upTo, ranAfter, rfl⟩ := runs.of_append
  obtain ⟨_, start, _, ranBefore, both, rfl⟩ := upTo.of_append
  obtain ⟨_, between, _, ranOne, ranTwo, rfl⟩ :=
    (show Runs pkg ([_] ++ [_]) _ _ _ from both).of_append
  have none : ∀ {avoided : Nat} {cmds trace : List Command} {board last : Board},
      t.IsUnitIn avoided outer → Runs pkg cmds board trace last →
      (∀ cmd ∈ cmds, t.CallsAside outer avoided cmd) →
      trace.count (.call pkg.nameSpace (t.pathAt avoided)) = 0 :=
    fun isAvoided runs => yields.count_eq_zero isAvoided runs
  simp only [count_append]
  rw [none isOne ranBefore (fun cmd mem => besideOne cmd (by simp [mem])),
    none isOne ranAfter (fun cmd mem => besideOne cmd (by simp [mem])),
    none isOne ranTwo (fun cmd mem => besideOne cmd (by simp_all)),
    none isTwo ranBefore (fun cmd mem => besideTwo cmd (by simp [mem])),
    none isTwo ranAfter (fun cmd mem => besideTwo cmd (by simp [mem])),
    none isTwo ranOne (fun cmd mem => besideTwo cmd (by simp_all)),
    yields.count_guardedCall isOne ranOne, yields.count_guardedCall isTwo ranTwo,
    kept _ _ _ ranOne]
  by_cases zero : start reg = 0 <;> simp [zero]

/-! ## What the first body leaves alone -/

/-- The units numbered from `low` up to `high` call each other only, and leave registers alone. -/
def SparesWithin (t : State) (isGuarded : Register → Prop) (low high : Nat) : Prop :=
  ∀ unit, low ≤ unit → unit < high → ∀ cmd ∈ t.commandsAt unit, cmd.Spares isGuarded ∧
    ∀ callee, cmd.callee? = some callee → ∃ (other : Nat) (scope : Scope), low ≤ other ∧
      other < high ∧ t.scopes.scopes[other]? = some scope ∧ scope.isUnit = true ∧
        callee = (t.config.nameSpace, t.pathAt other)

theorem Yields.not_writes (yields : t.Yields pkg) {isGuarded : Register → Prop} {low high : Nat}
    (spares : t.SparesWithin isGuarded low high) (after : low ≤ unit) (before : unit < high)
    (runs : Runs pkg (t.commandsAt unit) board trace last) (guarded : isGuarded reg) :
    ∀ cmd ∈ trace, ¬ cmd.Writes reg := by
  have all : ∀ cmd ∈ trace, cmd.Spares isGuarded ∧
      ∀ callee, cmd.callee? = some callee → ∃ (other : Nat) (scope : Scope), low ≤ other ∧
        other < high ∧ t.scopes.scopes[other]? = some scope ∧ scope.isUnit = true ∧
          callee = (t.config.nameSpace, t.pathAt other) := by
    refine runs.trace_forall (fun _ _ _ allowed => ⟨allowed.1.unguarded, allowed.2⟩) ?_ (spares unit after before)
    intro path body called found cmd mem
    obtain ⟨other, scope, after, before, isScope, isUnit, same⟩ := called.2 _ rfl
    cases (Prod.mk.inj same).2
    rw [yields.functions other scope isScope isUnit] at found
    cases found
    exact spares other after before cmd mem
  exact fun cmd mem => (all cmd mem).1.not_writes guarded

theorem Sound.commandsAt_eq_nil (sound : s.Sound) (outside : s.scopes.size ≤ id) : s.commandsAt id = [] := by
  refine commandsOf_eq_nil (fun entry mem => ?_)
  obtain ⟨logged, isLogged, isEntry⟩ := mem_filterMap.mp mem
  obtain ⟨scope, found, _⟩ := (sound.log logged isLogged).place
  have inside := lt_size_of_getElem? found
  split at isEntry
  · cases isEntry
    exact Nat.ne_of_lt (Nat.lt_of_lt_of_le inside outside)
  · cases isEntry

theorem Grows.sparesWithin {terms : Terms} (grows : Grows terms s u) (sound : s.Sound) :
    u.SparesWithin terms.isGuarded s.scopes.size u.scopes.size := by
  intro unit after before cmd mem
  rw [commandsAt_eq grows.emits.kept, sound.commandsAt_eq_nil after, nil_append] at mem
  obtain ⟨cmds, isEntry, inside⟩ := mem_commandsOf.mp mem
  refine ⟨grows.emits.spares _ isEntry cmd inside, fun callee called => ?_⟩
  obtain ⟨other, scope, later, found, isUnit, _, isCallee⟩ :=
    grows.emits.calls _ isEntry cmd inside callee called
  exact ⟨other, scope, later, lt_size_of_getElem? found, found, isUnit, isCallee⟩

theorem SparesWithin.continues {isGuarded : Register → Prop} {old low : Nat}
    (spares : s.SparesWithin isGuarded low s.scopes.size) (continues : s.Continues old u) (sound : s.Sound)
    (sound' : u.Sound) (less : old ≤ low) : u.SparesWithin isGuarded low s.scopes.size := by
  intro unit after before cmd mem
  rw [continues.commandsAt_eq (Nat.le_trans less after) before] at mem
  obtain ⟨spared, calls⟩ := spares unit after before cmd mem
  refine ⟨spared, fun callee called => ?_⟩
  obtain ⟨other, scope, after, before, found, isUnit, rfl⟩ := calls callee called
  obtain ⟨later, there, keeps⟩ := continues.scopes other scope found
  refine ⟨other, later, after, before, there, keeps.isUnit.trans isUnit, ?_⟩
  rw [continues.config, continues.pathAt_eq sound sound' before]

theorem Yields.takesOneBranch (yields : t.Yields pkg) {one two high : Nat}
    (function : pkg.function? (t.pathAt outer) = some (t.commandsAt outer))
    (isOne : t.IsUnitIn one outer) (isTwo : t.IsUnitIn two outer) (distinct : one ≠ two)
    (lines : t.commandsAt outer = before ++ [guardedCall false reg pkg.nameSpace (t.pathAt one),
        guardedCall true reg pkg.nameSpace (t.pathAt two)] ++ after)
    (spares : t.SparesWithin (· = reg) one high) (inside : one < high) :
    pkg.TakesOneBranch (t.pathAt outer) reg (t.pathAt one) (t.pathAt two) := by
  have kept : ∀ board trace last,
      Runs pkg [guardedCall false reg pkg.nameSpace (t.pathAt one)] board trace last →
      ∀ cmd ∈ trace, ¬ cmd.Writes reg := by
    intro board trace last runs
    rcases runs.guardedCall_cases with ⟨_, rfl, _⟩ | ⟨_, body, inner, found, ran, rfl⟩
    · exact fun _ mem => nomatch mem
    rw [yields.function_of_unit isOne] at found
    cases found
    intro cmd mem
    rcases mem_cons.mp mem with rfl | mem
    · exact id
    · exact yields.not_writes spares (Nat.le_refl _) inside ran rfl cmd mem
  refine
    { lines := ⟨before, after, lines ▸ function⟩, distinct := ?distinct, canRun := ?canRun
      one := ?one, kept }
  case distinct =>
    intro same
    have positive : ∀ {unit : Nat}, t.IsUnitIn unit outer → unit < t.scopes.size ∧ 0 < unit :=
      fun isUnit => ⟨lt_size_of_getElem? isUnit.choose_spec.1, Nat.zero_lt_of_lt (yields.lt_of_unit isUnit)⟩
    exact distinct (yields.sound.path_injective yields.usable (positive isOne).1 (positive isTwo).1
      (positive isOne).2 (positive isTwo).2 same)
  case canRun =>
    intro body found
    rw [function] at found
    cases found
    exact yields.canRun outer
  case one =>
    intro body board trace last found runs
    rw [function] at found
    cases found
    exact yields.one_branch isOne isTwo lines
      (fun board trace last runs => runs.apply_eq (kept board trace last runs)) runs

/-! ## The register of the guards -/

theorem Grows.isGenerated_of_new {terms : Terms} (grows : Grows terms s u) (still : terms.still = true)
    (sound : s.Sound) (sound' : u.Sound) {var : Variable} (found : u.vars[id]? = some var)
    (new : s.vars.size ≤ id) (place : var.scope < s.scopes.size) : u.config.isGenerated var.name = true := by
  refine Bool.not_eq_false _ |>.mp (fun chosen => ?_)
  have bound := (sound'.declared id var found).2.2
  obtain ⟨scope, isScope⟩ := exists_of_lt_size place
  obtain ⟨later, isLater, _, same⟩ := grows.scopes _ scope isScope
  have wasBound : s.scopes.lookup var.scope var.name = some id := by
    by_cases here : var.scope = s.current
    · rw [here] at bound ⊢
      rw [← bound, grows.names var.name (.inr ⟨still, grows.config ▸ chosen⟩)]
    · rw [ScopeTree.lookup, isLater, same here] at bound
      rw [ScopeTree.lookup, isScope]
      exact bound
  obtain ⟨owner, isOwner, _⟩ := sound.bound _ _ _ wasBound
  exact Nat.not_le_of_lt (Array.getElem?_eq_some_iff.mp isOwner).1 new

end State

def Terms.frozen : Terms :=
  { Terms.free with still := true }

def Terms.guarding (reg : Register) : Terms :=
  { Terms.free with isGuarded := (· = reg) }

namespace Engine

open Compile

variable {engine : Engine} {budget : Nat} {s t u : State}

theorem Lawful.isGeneratedRegister_of_guard (lawful : engine.Lawful s.config .frozen budget) (ready : s.Ready .free)
    {cond : Tree} (words : Terms.frozen.AllowsAll s.config [cond]) (size : cond.size < budget)
    {src : Register} (resident : (engine.evaluateCondition cond).runFrom s = (.ok (.resident src), t))
    (guard : (guardRegister src s.vars.size cond.position).runFrom t = (.ok reg, u)) :
    u.IsGeneratedRegister reg := by
  have frozen : s.Ready .frozen :=
    { sound := ready.sound, usable := ready.usable, below := ready.below
      allocated := ready.allocated, shielded := ready.shielded, names := ready.names
      making := rfl, unit := ready.unit }
  obtain ⟨grows, _, held⟩ := (lawful.evaluateCondition_behaves frozen words size).of_ran resident
  have ready₁ := frozen.grows grows
  rcases ((guardRegister_behaves ready₁ nofun).of_ran guard).2.2 with ⟨young, rfl, rfl⟩ | generated
  · obtain ⟨id, var, found, isBool, held, place⟩ := held _ rfl
    have new : s.vars.size ≤ id := by
      refine Nat.le_of_not_lt (fun old => ?_)
      rw [State.predates_iff.mpr ⟨id, var, old, found, by rw [held]; rfl⟩] at young
      cases young
    have inside : var.scope < s.scopes.size :=
      Nat.lt_of_le_of_lt (grows.current ▸ place) frozen.sound.current
    refine ⟨id, var, found, ?_, ?_⟩
    · exact grows.isGenerated_of_new rfl frozen.sound ready₁.sound found new inside
    · have fits := ready₁.sound.fits id var found
      unfold State.Fits at fits
      rw [held, isBool] at fits
      obtain ⟨_, _, own | ⟨impossible, _⟩⟩ := fits
      · exact own
      · cases impossible
  · exact generated

theorem Branches.Grow.lines {v w : State} {first second : String}
    (grow : Branches.Grow u v w reg first second) (sound : u.Sound) :
    (w.log { activation := [guardedCall true reg w.config.nameSpace second] }).commandsAt u.current =
      u.commandsAt u.current ++ [guardedCall false reg w.config.nameSpace first,
        guardedCall true reg w.config.nameSpace second] := by
  have inside := sound.current
  have namespaces : w.config.nameSpace = v.config.nameSpace := by
    rw [grow.isSecond.config]
    rfl
  have firstElsewhere : State.commandsOf (u.since v) u.current = [] :=
    State.commandsOf_eq_nil (fun entry mem =>
      Nat.ne_of_gt (Nat.lt_of_lt_of_le inside (grow.newFirst.outside entry mem)))
  have secondElsewhere : State.commandsOf (since (v.log { activation :=
      [guardedCall false reg v.config.nameSpace first] }) w) u.current = [] :=
    State.commandsOf_eq_nil (fun entry mem => Nat.ne_of_gt (Nat.lt_of_lt_of_le inside
      (Nat.le_trans grow.isFirst.size_le (grow.newSecond.outside entry mem))))
  have here : w.current = u.current := grow.isSecond.current.trans grow.isFirst.current
  have here' : v.current = u.current := grow.isFirst.current
  rw [State.commandsAt, emissions_log, commandsOf_append, here, commandsOf_here,
    ← State.commandsAt, State.commandsAt_eq grow.isSecond.emits.kept, secondElsewhere, append_nil,
    State.commandsAt, emissions_log, commandsOf_append, here', commandsOf_here,
    ← State.commandsAt, State.commandsAt_eq grow.isFirst.emits.kept, firstElsewhere, append_nil,
    append_assoc, namespaces]
  rfl

theorem Branches.Grow.takesOneBranch {u v w last : State} {reg : Register}
    {first second : String} {pkg : Package} {old : Nat}
    (grow : Branches.Grow u v w reg first second) (ready : u.Ready .free)
    (spares : State.Grows (.guarding reg) u v) (continues : State.Continues old
      (w.log { activation := [guardedCall true reg w.config.nameSpace second] }) last)
    (less : old ≤ u.scopes.size) (yields : last.Yields pkg) :
    pkg.TakesOneBranch (last.pathAt u.current) reg first second := by
  have sound := ready.sound
  have soundFirst := grow.isFirst.sound ready.usable sound
  have soundSecond : w.Sound :=
    grow.isSecond.sound (ready.grows grow.called).usable (ready.grows grow.called).sound
  have fromFirst : v.Continues u.scopes.size last := (grow.continues sound).trans (continues.mono less)
  have fromSecond : w.Continues u.scopes.size last := by
    refine (State.Continues.log ?_ _).trans (continues.mono less)
    rw [grow.isSecond.current]
    exact grow.isFirst.current ▸ sound.current
  have isOne : v.IsUnitIn u.scopes.size u.current := grow.newFirst.unit
  have isTwo : w.IsUnitIn v.scopes.size u.current := grow.isFirst.current ▸ grow.newSecond.unit
  have inside := lt_size_of_getElem? isOne.choose_spec.1
  have pathOne : first = last.pathAt u.scopes.size :=
    grow.newFirst.isPath.trans (fromFirst.pathAt_eq soundFirst yields.sound inside).symm
  have pathTwo : second = last.pathAt v.scopes.size :=
    grow.newSecond.isPath.trans (fromSecond.pathAt_eq soundSecond yields.sound
      (lt_size_of_getElem? isTwo.choose_spec.1)).symm
  have namespaces : pkg.nameSpace = w.config.nameSpace := by
    rw [yields.nameSpace, fromSecond.config]
  have function : pkg.function? (last.pathAt u.current) = some (last.commandsAt u.current) := by
    obtain ⟨scope, found, isUnit⟩ := (ready.grows grow.isFirst).unit
    obtain ⟨later, there, keeps⟩ := fromFirst.scopes _ scope (grow.isFirst.current ▸ found)
    exact yields.functions _ later there (keeps.isUnit.trans isUnit)
  have lines := State.commandsAt_eq continues.kept u.current
  rw [grow.lines sound, ← namespaces, pathOne, pathTwo] at lines
  rw [pathOne, pathTwo]
  exact yields.takesOneBranch function (fromFirst.isUnitIn isOne) (fromSecond.isUnitIn isTwo)
    (Nat.ne_of_lt inside) lines
    ((spares.sparesWithin sound).continues fromFirst soundFirst yields.sound (Nat.le_refl _)) inside

theorem Reached.takesOneBranch {generate : String → Position → Compile String} {start last : State}
    {below scope : Nat} {tree cond body other : Tree} {pkg : Package}
    (reached : Reached generate start below s tree last) (lawful : ∀ terms : Terms, terms.names = [] →
      (ofDepth generate below).Lawful s.config terms below)
    (yields : ({ last with current := scope } : State).Yields pkg)
    (ifOf : tree.IfOf cond body (some other)) {held : Register}
    (resident : ((ofDepth generate below).evaluateCondition cond).runFrom s = (.ok (.resident held), t)) :
    ∃ reg first second u v w z,
      Branches (ofDepth generate below) s.vars.size cond body other held reg first second t
        u v w z ∧
      pkg.TakesOneBranch (s.pathAt s.current) reg first second := by
  obtain ⟨z, written, left⟩ := reached.written
  obtain ⟨reg, first, second, u, v, w, branches, before, grow⟩ :=
    (lawful .free rfl).branches_ran reached.ready reached.writable ifOf resident written
  refine ⟨reg, first, second, u, v, w, z, branches, ?_⟩
  obtain ⟨guard, isFirst, _, rfl⟩ := branches
  obtain ⟨words, size, compilable⟩ := reached.writable.ifOf ifOf
  have generated := (lawful .frozen rfl).isGeneratedRegister_of_guard reached.ready
    (fun tree mem token inside => (words tree mem token inside).of_wary rfl) size resident guard
  have ready := reached.ready.grows before
  have guarding : u.Ready (.guarding reg) :=
    { sound := ready.sound, usable := ready.usable, below := ready.below
      allocated := ready.allocated, shielded := fun _ same => same ▸ generated
      names := nofun, making := rfl, unit := ready.unit }
  have lawful' : (ofDepth generate below).Lawful u.config (.guarding reg) below := by
    rw [before.config]
    exact lawful _ rfl
  have isBody : Compilable (.guarding reg) u.config below (bodyTokens body) := by
    rw [before.config]
    exact (compilable body (mem_cons_self ..)).of_wary rfl
  have spares := ((lawful'.compileBlock_behaves guarding rfl isBody).of_ran isFirst).1
  have taken := grow.takesOneBranch ready spares (left.move scope) before.size_le yields
  have path : pathAt { last with current := scope } s.current = s.pathAt s.current := by
    have later : State.Continues u.scopes.size v { last with current := scope } :=
      (grow.continues ready.sound).trans ((left.move scope).mono before.size_le)
    have inside := Nat.lt_of_lt_of_le reached.ready.sound.current before.size_le
    rw [later.pathAt_eq (grow.isFirst.sound ready.usable ready.sound) yields.sound
        (Nat.lt_of_lt_of_le inside grow.isFirst.size_le),
      grow.isFirst.pathAt_eq ready.usable ready.sound inside,
      before.pathAt_eq reached.ready.usable reached.ready.sound reached.ready.sound.current]
  rw [← path, ← before.current]
  exact taken

end Engine

/-- In every `if` with two bodies whose condition is in a register, exactly one branch runs. -/
theorem compileSource_takesOneBranch {config : Config} (valid : config.Valid)
    (standard : config.anonymousPrefix = ({} : Config).anonymousPrefix) {src : Nat} {text : String}
    (words : ∀ tokens, Token.tokenize src config.separator text = .ok tokens →
      ∀ token ∈ tokens, config.isGenerated token.text = false)
    {pkg : Package} (compiled : compileSource src text config = .ok pkg) {below : Nat} {s t : State}
    {tree cond body other : Tree} (visits : Engine.VisitsIn config src text below s tree)
    (ifOf : tree.IfOf cond body (some other)) {held : Register}
    (resident : ((Engine.ofDepth (generateWithin generationLimit) below).evaluateCondition
      cond).runFrom s = (.ok (.resident held), t)) : ∃ reg first second u v w z,
      Engine.Branches (Engine.ofDepth (generateWithin generationLimit) below) s.vars.size
        cond body other held reg first second t u v w z ∧
      pkg.TakesOneBranch (s.pathAt s.current) reg first second := by
  obtain ⟨tokens, trees, tokenized, read, visits⟩ := visits
  obtain ⟨last, ran, _, yields⟩ := compileSource_yields valid.usable compiled
  obtain ⟨final, wrote, rfl⟩ := compileEntry_ran tokenized read _ ran
  have suits : ∀ terms : Terms, terms.Suits config := by
    refine fun terms => .inr ?_
    simp only [Config.isGenerated, standard]
    decide
  have lawful : ∀ terms : Terms, terms.names = [] →
      (Engine.ofDepth (generateWithin generationLimit) below).Lawful config terms below :=
    fun terms unnamed => ofDepth_lawful (suits terms) (fun _ => unnamed)
      (fun _ => generateWithin_generates (suits terms) _) below
  have few := (Token.tokenize_atMost src config.separator text).2 tokens tokenized
  have compilable : Engine.Compilable .wary config (depthFor text.length) tokens :=
    ⟨fun token mem => ⟨.inr (.inl (words tokens tokenized token mem)), by rintro ⟨⟩⟩,
      @depthFor_enough ⟨src, config.separator⟩ text tokens few⟩
  have writable := Engine.Compilable.writable (s := begun config src) valid.usable compilable read
  have reached := visits.reached (generateWithin_generates (suits _) _) (ready_begun valid.usable src) writable wrote
  obtain rfl : s.config = config := reached.config
  exact reached.takesOneBranch lawful yields ifOf resident

/-- The first branch assigns the variable of the condition. -/
theorem compileSource_takesOneBranch_reassigned : ∃ pkg reg first second,
    compileSource 0 "bool b = true; if (b) b = false; else b = true;" {} = .ok pkg ∧
      pkg.TakesOneBranch "main" reg first second := by
  have compiles : (compileSource 0 "bool b = true; if (b) b = false; else b = true;"
      {}).toOption.isSome = true := by
    decide +kernel
  cases compiled : compileSource 0 "bool b = true; if (b) b = false; else b = true;" {} with
  | error fault =>
    rw [compiled] at compiles
    cases compiles
  | ok pkg =>
    let generate := generateWithin generationLimit
    obtain ⟨tokens, first, tree, cond, body, other, after, tokenized, read, ifOf, words, written,
        succeeded, resident, path⟩ :
        ∃ (tokens : List Token) (first tree cond body other : Tree) (after : _ × State),
          Token.tokenize 0 ';' "bool b = true; if (b) b = false; else b = true;" = .ok tokens ∧
          Layout.readStatements ⟨0, ';'⟩ tokens = .ok [first, tree] ∧
          tree.IfOf cond body (some other) ∧
          (∀ token ∈ tokens, ({} : Config).isGenerated token.text = false) ∧
          ((Engine.ofDepth generate 252).write first).runFrom (begun {} 0) = after ∧
          after.1 = .ok () ∧
          (((Engine.ofDepth generate 251).evaluateCondition cond).runFrom after.2).1 =
            .ok (.resident ⟨"main.b", "mcs.vars"⟩) ∧
          after.2.pathAt after.2.current = "main" := by
      refine ⟨?_, ?_, ?_, ?_, ?_, ?_, ?_, ?tokenized, ?read, ?ifOf, ?words, ?written, ?succeeded, ?resident, ?path⟩
      case tokenized => cbv; rfl
      case read => rfl
      case ifOf =>
        refine .double ?_
        rfl
      case written => rfl
      case words | succeeded | resident | path => decide +kernel
    obtain ⟨reg, one, two, _, _, _, _, _, taken⟩ := compileSource_takesOneBranch (by decide) rfl
      (fun others same => by
        cases tokenized.symm.trans same
        exact words)
      compiled ⟨tokens, _, tokenized, read, .later (written.trans (Prod.ext succeeded rfl)) .here⟩ ifOf
      (Prod.ext resident rfl)
    exact ⟨pkg, reg, one, two, rfl, path ▸ taken⟩

end ScoreScript
