import ScoreScript.Compile.Statement
import ScoreScript.Proofs.Compile.Ready

/-!
# Units inside the current scope

A body is compiled as a unit of its own, in a scope that was made for it. Nothing calls the unit
until the call is entered into the scope around it, so every unit is called once.
-/

namespace ScoreScript

open List

open ScopeTree

namespace State

variable {terms : Terms} {s t : State}

def entered (s : State) (scope : Scope) (pos : Position) : State :=
  { Compile.opened s scope pos with current := s.scopes.size }

private theorem scope_opened (s : State) (scope : Scope) (pos : Position) :
    (Compile.opened s scope pos).scopes.scopes[s.scopes.size]? =
      some { name := s.config.generatedName scope.drawn, parent := some s.current
             drawn := scope.drawn + 1, isUnit := true } := by
  simp [Compile.opened, addUnit, Compile.scope_nested]

theorem Ready.entered (ready : s.Ready terms) {scope : Scope} (found : s.scopes.scopes[s.current]? = some scope)
    (pos : Position) : (s.entered scope pos).Ready { terms with still := false } := by
  have grows : Grows terms s (Compile.opened s scope pos) :=
    .opened ready.sound ready.usable ready.making ready.below found pos
  have grown := ready.toStable.grows grows
  have made := scope_opened s scope pos
  refine
    { sound := grown.sound.move (lt_size_of_getElem? made)
      usable := grown.usable
      below := Nat.zero_lt_of_lt ready.sound.current
      allocated := grown.allocated
      shielded := grown.shielded
      names := ?names
      making := ready.making
      unit := ⟨_, made, rfl⟩ }
  case names =>
    intro name mem
    obtain ⟨n, id, var, outer, reg, called, isOuter, drawn, resolved, rest⟩ :=
      ready.names name mem
    rw [found] at isOuter
    cases isOuter
    refine ⟨n, id, var, _, reg, called, made, Nat.lt_succ_of_lt drawn, ?_, rest⟩
    -- The name is not bound in the new scope, and outside it stands for what it stood for.
    have outside := grows.resolve_eq ready.usable ready.sound (.inl mem)
    refine (resolve_of_parent grown.sound.rooted made rfl ready.sound.current name).trans ?_
    exact outside.trans resolved

/-- A unit was made inside the current scope, and nothing calls it yet. -/
structure NewUnit (s t : State) (path : String) : Prop where
  unit : ∃ scope, t.scopes.scopes[s.scopes.size]? = some scope ∧ scope.isUnit = true ∧ scope.parent = some s.current
  isPath : path = t.pathAt s.scopes.size
  uncalled : (t.config.nameSpace, path) ∉ callees (s.since t)
  /-- Only this unit and those made after it have got commands. -/
  outside : ∀ entry ∈ s.since t, s.scopes.size ≤ entry.1
  /-- Every other unit made meanwhile is called. -/
  covers : ∀ unit ∈ t.units, unit ∈ s.units ∨ unit.path = path ∨ (t.config.nameSpace, unit.path) ∈ callees (s.since t)

end State

namespace Compile

variable {terms : Terms} {s t : State}

def MakesUnit (terms : Terms) (s : State) (step : Compile String) : Prop :=
  Ends step s (State.Grows terms s) (fun path t => s.NewUnit t path)

theorem grows_of_inside (ready : s.Ready terms) {scope : Scope} (found : s.scopes.scopes[s.current]? = some scope)
    {pos : Position} {inner : Terms} (same : inner.isGuarded = terms.isGuarded)
    (sameTyped : inner.typed = terms.typed) {u : State} (within : State.Grows inner (s.entered scope pos) u) :
    State.Grows terms s { u with current := s.current } := by
  have grows : State.Grows terms s (opened s scope pos) :=
    .opened ready.sound ready.usable ready.making ready.below found pos
  have inside := lt_size_of_getElem? (State.scope_opened s scope pos)
  refine grows.inside ready.usable ready.sound (.inl (Nat.le_refl _)) inside within same sameTyped ?_
  simp [ready.making]

theorem newUnit_of_inside (ready : s.Ready terms) {scope : Scope}
    (found : s.scopes.scopes[s.current]? = some scope) {pos : Position} {inner : Terms} {u : State}
    (within : State.Grows inner (s.entered scope pos) u) (covers : (s.entered scope pos).Covers u) :
    State.NewUnit s { u with current := s.current }
      ("/".intercalate ((opened s scope pos).scopes.segments s.scopes.size)) := by
  have grows : State.Grows terms s (opened s scope pos) :=
    .opened ready.sound ready.usable ready.making ready.below found pos
  have made := State.scope_opened s scope pos
  have inside := lt_size_of_getElem? made
  have sound := grows.sound ready.usable ready.sound
  have moved : (s.entered scope pos).Sound := sound.move inside
  have usable : (s.entered scope pos).config.Usable := ready.usable
  obtain ⟨unit, isUnit, keeps, _⟩ := within.scopes _ _ made
  have path : u.pathAt s.scopes.size = (opened s scope pos).pathAt s.scopes.size :=
    within.pathAt_eq usable moved inside
  have outside : ∀ entry ∈ s.since { u with current := s.current }, s.scopes.size ≤ entry.1 := by
    intro entry mem
    rcases within.emits.place entry mem with here | later
    · exact Nat.le_of_eq here.symm
    · exact Nat.le_trans grows.size_le later
  refine
    { unit := ⟨unit, isUnit, keeps.isUnit, keeps.parent⟩, isPath := path.symm
      uncalled := ?uncalled, outside, covers := ?covers }
  case covers =>
    intro other mem
    refine (covers other mem).elim (fun old => ?_) (fun called => .inr (.inr called))
    obtain ⟨_, _, _, isPath⟩ := sound.units other old
    refine (mem_append.mp old).imp_right (fun made => .inl ?_)
    rw [isPath, mem_singleton.mp made]
  -- A call from the unit or from a later one goes to a unit of that one, and not to this one.
  intro called
  obtain ⟨entry, mem, cmd, isCommand, isCallee⟩ := State.mem_callees.mp called
  have since : s.since { u with current := s.current } = State.since (s.entered scope pos) u := rfl
  rw [since] at mem
  obtain ⟨other, otherScope, _, isOther, _, parent, isPath⟩ :=
    within.emits.calls entry mem cmd isCommand _ isCallee
  have positive : 0 < s.scopes.size := Nat.zero_lt_of_lt ready.sound.current
  have otherPositive : 0 < other :=
    Nat.zero_lt_of_lt ((within.sound usable moved).rooted.lt_of_parent isOther parent)
  have same : other = s.scopes.size := by
    refine (within.sound usable moved).path_injective (within.config ▸ usable)
      (lt_size_of_getElem? isOther) (lt_size_of_getElem? isUnit) otherPositive
      positive ?_
    exact ((Prod.mk.inj isPath).2.symm.trans path.symm)
  subst same
  rw [isUnit] at isOther
  cases isOther
  have place : s.current = entry.1 := Option.some.inj (keeps.parent.symm.trans parent)
  have below : s.current < s.scopes.size := ready.sound.current
  exact Nat.ne_of_lt (Nat.lt_of_lt_of_le below (outside entry mem)) place

private theorem call_ends (ready : s.Ready terms) (grows : State.Grows terms s t) {path : String}
    (new : State.NewUnit s t path) {cmd : Command} (spares : cmd.Spares terms.isGuarded)
    (calls : cmd.callee? = some (t.config.nameSpace, path)) :
    Ends (emit [cmd]) t (State.Grows terms s) (fun _ u => s.Covers u ∧ True) := by
  obtain ⟨scope, found, isUnit⟩ := (ready.grows grows).unit
  obtain ⟨unit, isNew, marked, parent⟩ := new.unit
  have covers : s.Covers (t.log { activation := [cmd] }) := by
    intro other mem
    rw [State.since_log grows, State.callees_append]
    refine (new.covers other mem).imp_right (fun cases => mem_append.mpr ?_)
    refine cases.symm.imp_right (fun same => State.mem_callees.mpr ?_)
    exact ⟨_, mem_singleton_self _, cmd, mem_singleton_self _, same ▸ calls⟩
  refine Ends.of_ok (runFrom_emit_cons found cmd) ?_ ⟨covers, trivial⟩
  refine grows.log found isUnit ?_ ?_ ?_ ?_
  · intro other mem
    rw [mem_singleton.mp mem]
    exact spares
  · intro other mem callee isCallee
    rw [mem_singleton.mp mem, calls] at isCallee
    cases isCallee
    exact ⟨⟨_, unit, Nat.le_refl _, isNew, marked, parent, by rw [new.isPath]⟩, new.uncalled⟩
  · simp [calls]
  · intro _ other mem
    rw [mem_singleton.mp mem]
    exact .of_callee calls

end Compile

namespace Engine

open Compile

variable {terms : Terms} {s : State} {engine : Engine}

theorem compileUnit_behaves (ready : s.Ready terms) {scope : Scope}
    (found : s.scopes.scopes[s.current]? = some scope) {pos : Position} {tokens : List Token}
    {inner : Terms} (same : inner.isGuarded = terms.isGuarded) (sameTyped : inner.typed = terms.typed)
    (inside : Behaves inner (s.entered scope pos) (engine.compileTokens tokens) (fun _ _ => True)) :
    MakesUnit terms s (engine.compileUnit tokens pos) := by
  unfold compileUnit
  refine Ends.ok_bind (runFrom_openUnit ready.sound ready.usable ready.below found) ?_
  have body : Ends (inScope s.scopes.size (engine.compileTokens tokens)) (opened s scope pos) (State.Grows terms s)
      (fun _ t => State.NewUnit s t ("/".intercalate ((opened s scope pos).scopes.segments s.scopes.size))) := by
    refine Ends.inScope (Ends.mono inside ?_ ?_)
    · exact fun u within => grows_of_inside ready found same sameTyped within
    · exact fun _ u within result => newUnit_of_inside ready found within result.1
  refine Ends.bind body ?_
  exact fun _ t grows new => Ends.pure grows new

theorem emitCall_ends (ready : s.Ready terms) {t : State} (grows : State.Grows terms s t) {path : String}
    (new : State.NewUnit s t path) : Ends (emitCall path) t (State.Grows terms s) (fun _ u => s.Covers u ∧ True) := by
  unfold emitCall
  exact Ends.get_bind (call_ends ready grows new trivial rfl)

theorem callGuarded_behaves (ready : s.Ready terms) {ifZero : Bool} {reg : Register}
    {body : Tree} (compiles : MakesUnit terms s (engine.compileBlock body)) :
    Behaves terms s (engine.callGuarded ifZero reg body) (fun _ _ => True) := by
  unfold callGuarded
  refine Ends.bind compiles ?_
  intro path t grows new
  exact Ends.get_bind (call_ends ready grows new ⟨reg, rfl⟩ rfl)

end Engine

end ScoreScript
