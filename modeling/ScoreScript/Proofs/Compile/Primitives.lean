import ScoreScript.Proofs.Compile.Outcome
import ScoreScript.Proofs.Compile.Registers

/-!
# What the primitive steps do

Each step of the compiler that changes the state directly, as the changes it makes.
-/

namespace ScoreScript

open Fault ScopeTree

variable {id : Nat} {scope : Scope} {owner : Variable} {pos : Position} {name : String}

theorem State.predates_iff {s : State} {reg : Register} {count : Nat} :
    s.predates reg count = true ↔ ∃ (id : Nat) (var : Variable), id < count ∧
      s.vars[id]? = some var ∧ var.value.register? = some reg := by
  simp only [State.predates, Array.any_eq_true, beq_iff_eq]
  constructor
  · rintro ⟨id, inside, held⟩
    have bound : id < min count s.vars.size := by simpa using inside
    refine ⟨id, s.vars[id], by omega, Array.getElem?_eq_getElem _, by simpa using held⟩
  · rintro ⟨id, var, old, found, held⟩
    obtain ⟨inside, rfl⟩ := Array.getElem?_eq_some_iff.mp found
    exact ⟨id, by simp; omega, by simpa using held⟩

namespace Compile

variable {s : State}

/-! ## Variables -/

theorem runFrom_var (found : s.vars[id]? = some owner) : (var id).runFrom s = (.ok owner, s) := by
  simp [var, runFrom_bind, found]

theorem runFrom_var_absent (absent : s.vars[id]? = none) :
    (var id).runFrom s = (.error ⟨.unknownVariable id, default⟩, s) := by
  simp [var, runFrom_bind, absent]

theorem runFrom_var_bind_eq_ok {α : Type} {next : Variable → Compile α} {a : α} {t : State}
    (ran : (var id >>= next).runFrom s = (.ok a, t)) :
    ∃ owner, s.vars[id]? = some owner ∧ (next owner).runFrom s = (.ok a, t) := by
  cases found : s.vars[id]? with
  | none =>
    rw [runFrom_bind_error (runFrom_var_absent found)] at ran
    cases ran
  | some owner => exact ⟨owner, rfl, runFrom_bind_ok (runFrom_var found) next ▸ ran⟩

theorem runFrom_modifyVar (found : s.vars[id]? = some owner) (change : Variable → Variable) :
    (modifyVar id change).runFrom s = (.ok (), s.onVar id change) := by
  simp [modifyVar, runFrom_bind, runFrom_var found, State.onVar]

theorem runFrom_setValue (found : s.vars[id]? = some owner) (value : Value) :
    (setValue id value).runFrom s = (.ok (), s.onVar id (fun var => { var with value })) :=
  runFrom_modifyVar found _

theorem runFrom_registerOf? (found : s.vars[id]? = some owner) :
    (registerOf? id).runFrom s = (.ok owner.value.register?, s) := by
  simp only [registerOf?, runFrom_bind, runFrom_var found, runFrom_pure]

theorem runFrom_registerFor {scope : Nat} (inside : scope < s.scopes.size) (name : String) :
    (registerFor scope name).runFrom s = (.ok (s.registerAt scope name), s) := by
  simp only [registerFor, runFrom_bind, runFrom_get, runFrom_lift, path_eq inside, runFrom_pure, State.registerAt]

/-! ## Scopes -/

theorem runFrom_nextAnonymous (found : s.scopes.scopes[s.current]? = some scope) :
    (onScopes (ScopeTree.nextAnonymous s.current s.config.anonymousPrefix)).runFrom s =
      (.ok (s.config.generatedName scope.drawn), s.draw) := by
  simp only [runFrom_onScopes, ScopeTree.nextAnonymous, run_bind, run_get, ScopeTree.scope,
    found, run_lift, run_set, run_pure, State.draw, Option.map_some, Option.getD_some]
  rfl

theorem runFrom_createChild {outer : Nat} {outerScope : Scope} (found : s.scopes.scopes[outer]? = some outerScope) :
    (onScopes (ScopeTree.createChild outer name)).runFrom s = (.ok s.scopes.size, s.nest outer outerScope name) := by
  simp only [runFrom_onScopes, ScopeTree.createChild, run_bind, run_get, ScopeTree.scope,
    found, run_lift, run_set, run_pure]
  rfl

theorem addUnit_runs (found : s.scopes.scopes[id]? = some scope) (pos : Position) :
    let scopes := s.scopes.modifyScope id (fun scope => { scope with isUnit := true })
    let path := "/".intercalate (scopes.segments id)
    (addUnit id pos).runFrom s = (.ok path, { s with scopes, units := s.units ++ [⟨path, id, pos⟩] }) := by
  have mark : (onScopes (ScopeTree.markUnit id)).runFrom s =
      (.ok (), { s with scopes := s.scopes.modifyScope id (fun scope => { scope with isUnit := true }) }) := by
    simp only [runFrom_onScopes, ScopeTree.markUnit, run_bind, run_get, ScopeTree.scope, found, run_lift, run_set]
  have inside : id < (s.scopes.modifyScope id (fun scope => { scope with isUnit := true })).size := by
    rw [size_modifyScope]
    exact lt_size_of_getElem? found
  simp only [addUnit, runFrom_bind, mark, runFrom_get, runFrom_lift, path_eq inside, runFrom_modify, runFrom_pure]

theorem runFrom_addUnit (sound : s.Sound) (found : s.scopes.scopes[id]? = some scope) :
    (addUnit id pos).runFrom s = (.ok ("/".intercalate (s.scopes.segments id)), s.addUnit id pos) := by
  have path := (State.names_mark s id s.units).segments_eq sound.rooted (lt_size_of_getElem? found)
  rw [addUnit_runs found pos, path]
  rfl

def nested (s : State) (scope : Scope) : State :=
  s.draw.nest s.current { scope with drawn := scope.drawn + 1 } (s.config.generatedName scope.drawn)

def opened (s : State) (scope : Scope) (pos : Position) : State :=
  (nested s scope).addUnit s.scopes.size pos

theorem scope_draw (found : s.scopes.scopes[s.current]? = some scope) :
    s.draw.scopes.scopes[s.draw.current]? = some { scope with drawn := scope.drawn + 1 } := by
  simp [State.draw, found]

theorem scope_nested (s : State) (scope : Scope) : (nested s scope).scopes.scopes[s.scopes.size]? =
      some { name := s.config.generatedName scope.drawn, parent := some s.current
             drawn := scope.drawn + 1 } := by
  have size : s.scopes.size = s.draw.scopes.size := (size_modifyScope _ _ _).symm
  rw [size]
  exact ScopeTree.getElem?_addScope_size _ _

private theorem steps_nested (sound : s.Sound) (below : 0 < s.current)
    (found : s.scopes.scopes[s.current]? = some scope) : State.Steps s (nested s scope) := by
  refine (Relation.ReflTransGen.single .draw).tail ?_
  exact .block below (scope_draw found) (Nat.lt_succ_self _) (sound.unused_draw below found)

theorem steps_opened (sound : s.Sound) (below : 0 < s.current) (found : s.scopes.scopes[s.current]? = some scope)
    (pos : Position) : State.Steps s (opened s scope pos) :=
  (steps_nested sound below found).tail (.unit (scope_nested s scope) rfl)

theorem runFrom_nested (found : s.scopes.scopes[s.current]? = some scope) :
    (do let name ← onScopes (ScopeTree.nextAnonymous s.current s.config.anonymousPrefix)
        onScopes (ScopeTree.createChild s.current name)).runFrom s =
      (.ok s.scopes.size, nested s scope) := by
  rw [runFrom_bind_ok (runFrom_nextAnonymous found)]
  refine (runFrom_createChild (scope_draw found)).trans ?_
  simp only [State.draw, size_draw]
  rfl

theorem runFrom_openUnit (sound : s.Sound) (usable : s.config.Usable) (below : 0 < s.current)
    (found : s.scopes.scopes[s.current]? = some scope) : (openUnit pos).runFrom s =
      (.ok ("/".intercalate ((opened s scope pos).scopes.segments s.scopes.size),
        s.scopes.size), opened s scope pos) := by
  have inner : (nested s scope).Sound := (steps_nested sound below found).sound usable sound
  have path := (State.names_mark (nested s scope) s.scopes.size (opened s scope pos).units).segments_eq
    inner.rooted (lt_size_of_getElem? (scope_nested s scope))
  have split : openUnit pos = (do
      let state ← get
      let scope ← (do
        let name ← onScopes (ScopeTree.nextAnonymous state.current state.config.anonymousPrefix)
        onScopes (ScopeTree.createChild state.current name))
      let path ← addUnit scope pos
      return (path, scope)) := by
    simp only [openUnit, bind_assoc]
  simp only [split, runFrom_bind_ok runFrom_get, runFrom_bind_ok (runFrom_nested found),
    runFrom_bind_ok (runFrom_addUnit inner (scope_nested s scope)), runFrom_pure, opened]
  rw [← path]
  rfl

theorem runFrom_discard (sound : s.Sound) {top : Nat} (found : s.scopes.scopes[top]? = some scope)
    (unmarked : scope.isUnit = false) (below : 0 < top) :
    (onScopes (ScopeTree.discard top)).runFrom s = (.ok (), s) := by
  have kept : s.scopes.log.filter (fun entry => !(entry.event.isEmission && s.scopes.belongs top entry.scope)) =
      s.scopes.log := by
    rw [List.filter_eq_self]
    intro entry mem
    rw [Bool.not_eq_true', Bool.and_eq_false_iff]
    cases emission : entry.event.isEmission with
    | false => exact .inl rfl
    | true =>
      right
      obtain ⟨place, isPlace, unit⟩ := (sound.log entry mem).place
      rcases unit emission with outside | isUnit
      · obtain ⟨root, isRoot, alone, _⟩ := sound.rooted.root
        have distinct : (0 : Nat) ≠ top := Nat.ne_of_lt below
        simp [outside, belongs, belongsUpTo, isRoot, alone, distinct]
      · have distinct : entry.scope ≠ top := by
          rintro rfl
          rw [found] at isPlace
          cases isPlace
          rw [unmarked] at isUnit
          cases isUnit
        rw [belongs_of_isUnit isPlace isUnit]
        simpa using distinct
  simp only [runFrom_onScopes, ScopeTree.discard, run_bind, run_get, ScopeTree.scope, found, run_lift, run_set, kept]

/-! ## Entries -/

private theorem runFrom_enter (found : s.scopes.scopes[s.current]? = some scope) (emission : Emission) :
    (enter emission).runFrom s = (.ok (), s.log emission) := by
  simp only [enter, runFrom_bind, runFrom_get, runFrom_onScopes, ScopeTree.emit, run_bind,
    run_get, run_set, ScopeTree.scope, found, run_lift]
  rfl

theorem runFrom_emit_nil : (emit []).runFrom s = (.ok (), s) := rfl

section

variable (found : s.scopes.scopes[s.current]? = some scope)
include found

theorem runFrom_emit_cons (cmd : Command) {cmds : List Command} : (emit (cmd :: cmds)).runFrom s =
      (.ok (), s.log { activation := cmd :: cmds }) :=
  runFrom_enter found _

variable {type : ValueType} {access : Access} {usage : Usage} {name : String} {pos : Position}
  (admitted : checkModifiers type access usage pos = .ok ())
include admitted

theorem runFrom_enterVariable (free : s.scopes.lookup s.current name = none) :
    (enterVariable type access usage name pos).runFrom s = (.ok s.vars.size,
        s.enterVar { type, access, usage, name, scope := s.current, position := pos }) := by
  have unbound : (scope.find? name).isSome = false := by
    rw [ScopeTree.lookup, found] at free
    rw [Option.isSome_eq_false_iff, Option.isNone_iff_eq_none]
    exact free
  simp only [enterVariable, runFrom_bind, runFrom_lift, admitted, runFrom_get, runFrom_onScopes,
    ScopeTree.declare, run_bind, run_get, ScopeTree.scope, found, run_lift, unbound,
    Bool.false_eq_true, if_false, run_set, runFrom_modify, runFrom_pure]
  rfl

theorem runFrom_enterVariable_bound {bound : VarId} (taken : s.scopes.lookup s.current name = some bound) :
    (enterVariable type access usage name pos).runFrom s =
      (.error ⟨.duplicateVariable name ("/".intercalate (s.scopes.segments s.current)), pos⟩, s) := by
  have isBound : (scope.find? name).isSome = true := by
    rw [ScopeTree.lookup, found] at taken
    simp only [Option.bind_some] at taken
    rw [taken]
    rfl
  simp only [enterVariable, runFrom_bind, runFrom_lift, admitted, runFrom_get, runFrom_onScopes,
    ScopeTree.declare, run_bind, run_get, ScopeTree.scope, found, run_lift, isBound,
    if_true, path_eq (lt_size_of_getElem? found)]
  rfl

end

end Compile

end ScoreScript
