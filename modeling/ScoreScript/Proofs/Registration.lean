import ScoreScript.Proofs.Compile.Lasting

/-!
# Variables and scopes stay in step

A variable is kept in two places: in the list of all variables, and under its name in the table of its
scope, whose entry in the log says when it was declared. Every operation changes both or neither,
whatever becomes of it and whatever the settings are, so in every state that can be reached each
variable is found under its name and each name stands for a variable.
-/

namespace ScoreScript

open List

open Engine ScopeTree

namespace State

/-- The list of the variables and the tables of the scopes agree. -/
structure InStep (s : State) : Prop where
  /-- A variable was entered once, and into its scope. -/
  entered : ∀ (id : Nat) (var : Variable), s.vars[id]? = some var →
    ∃ entry : Entry, s.scopes.declarationsOf id = [entry] ∧ entry.scope = var.scope
  /-- The scope of a variable binds its name to it. -/
  bound : ∀ (id : Nat) (var : Variable), s.vars[id]? = some var → s.scopes.lookup var.scope var.name = some id
  /-- What a scope binds to a name is a variable of that scope and that name. -/
  names : ∀ (scope : Nat) (name : String) (id : VarId), s.scopes.lookup scope name = some id →
    ∃ var, s.vars[id]? = some var ∧ var.name = name ∧ var.scope = scope
  known : ∀ entry ∈ s.scopes.log, ∀ id : Nat, entry.event = .declared id → id < s.vars.size

private theorem inStep_start (config : Config) (src : Nat) : (start config src).InStep where
  entered := fun _ _ found => nomatch found
  bound := fun _ _ found => nomatch found
  names := by
    intro scope name id found
    cases scope with
    | zero => cases found
    | succ scope => cases found
  known := by
    intro entry mem id isDeclared
    simp only [start, ScopeTree.enter, nil_append, mem_singleton] at mem
    subst mem
    cases isDeclared

variable {s : State}

theorem InStep.move (inStep : s.InStep) (scope : ScopeId) : ({ s with current := scope } : State).InStep :=
  ⟨inStep.entered, inStep.bound, inStep.names, inStep.known⟩

/-- No variable is made, called otherwise or put elsewhere, and no name is bound. -/
structure Undisturbed (s t : State) : Prop where
  names : ∀ (scope : Nat) (name : String), t.scopes.lookup scope name = s.scopes.lookup scope name
  entries : ∀ id : VarId, t.scopes.declarationsOf id = s.scopes.declarationsOf id
  vars : ∀ id : Nat, t.vars[id]?.map (fun var => (var.name, var.scope)) =
    s.vars[id]?.map (fun var => (var.name, var.scope))

theorem InStep.of_undisturbed {t : State} (inStep : s.InStep) (undisturbed : Undisturbed s t) : t.InStep := by
  have before {id : Nat} {var : Variable} (found : t.vars[id]? = some var) :
      ∃ old, s.vars[id]? = some old ∧ old.name = var.name ∧ old.scope = var.scope := by
    have same := undisturbed.vars id
    rw [found, Option.map_some, eq_comm, Option.map_eq_some_iff] at same
    obtain ⟨old, isOld, same⟩ := same
    exact ⟨old, isOld, Prod.mk.inj same⟩
  have after {id : Nat} {var : Variable} (found : s.vars[id]? = some var) :
      ∃ new, t.vars[id]? = some new ∧ new.name = var.name ∧ new.scope = var.scope := by
    have same := undisturbed.vars id
    rw [found, Option.map_some, Option.map_eq_some_iff] at same
    obtain ⟨new, isNew, same⟩ := same
    exact ⟨new, isNew, Prod.mk.inj same⟩
  refine { entered := ?entered, bound := ?bound, names := ?names, known := ?known }
  case entered =>
    intro id var found
    obtain ⟨old, isOld, _, scope⟩ := before found
    rw [undisturbed.entries, ← scope]
    exact inStep.entered id old isOld
  case bound =>
    intro id var found
    obtain ⟨old, isOld, name, scope⟩ := before found
    rw [undisturbed.names, ← name, ← scope]
    exact inStep.bound id old isOld
  case names =>
    intro scope name id found
    rw [undisturbed.names] at found
    obtain ⟨var, isVar, isName, isScope⟩ := inStep.names scope name id found
    obtain ⟨new, isNew, name', scope'⟩ := after isVar
    exact ⟨new, isNew, name'.trans isName, scope'.trans isScope⟩
  case known =>
    intro entry mem id isDeclared
    have listed := ScopeTree.mem_declarationsOf.mpr ⟨mem, isDeclared⟩
    rw [undisturbed.entries] at listed
    have inside := inStep.known entry (ScopeTree.mem_declarationsOf.mp listed).1 id isDeclared
    obtain ⟨new, isNew, _⟩ := after (Array.getElem?_eq_getElem inside)
    exact (Array.getElem?_eq_some_iff.mp isNew).1

theorem InStep.enterVar (inStep : s.InStep) {var : Variable} (inside : s.current < s.scopes.size)
    (place : var.scope = s.current) (free : s.scopes.lookup s.current var.name = none) : (s.enterVar var).InStep := by
  have entries (id : Nat) : (s.enterVar var).scopes.declarationsOf id = s.scopes.declarationsOf id ++
        if id = s.vars.size then [⟨s.scopes.nextSeq, s.current, .declared s.vars.size⟩] else [] := by
    have appended : (s.enterVar var).scopes.log =
        s.scopes.log ++ [⟨s.scopes.nextSeq, s.current, .declared s.vars.size⟩] := rfl
    rw [declarationsOf, appended, filter_append, declarationsOf]
    by_cases same : id = s.vars.size
    · simp [same]
    · simp [same, Ne.symm same]
  refine { entered := ?entered, bound := ?bound, names := ?names, known := ?known }
  case entered =>
    intro id other found
    rcases var_enterVar_elim found with old | ⟨rfl, rfl⟩
    · have distinct : id ≠ s.vars.size :=
        Nat.ne_of_lt (Array.getElem?_eq_some_iff.mp old).1
      rw [entries, if_neg distinct, append_nil]
      exact inStep.entered id other old
    · have none : s.scopes.declarationsOf s.vars.size = [] := by
        rw [eq_nil_iff_forall_not_mem]
        intro entry mem
        obtain ⟨logged, isDeclared⟩ := ScopeTree.mem_declarationsOf.mp mem
        exact Nat.lt_irrefl _ (inStep.known entry logged _ isDeclared)
      rw [entries, none, if_pos rfl]
      exact ⟨_, rfl, place.symm⟩
  case bound =>
    intro id other found
    rcases var_enterVar_elim found with old | ⟨rfl, rfl⟩
    · exact lookup_enterVar_old inside (inStep.bound id other old)
    · rw [lookup_enterVar inside, if_pos place, place, free, if_pos rfl, Option.none_or]
  case names =>
    intro scope name id found
    rcases lookup_enterVar_elim inside found with before | ⟨rfl, rfl, rfl⟩
    · obtain ⟨other, isVar, rest⟩ := inStep.names scope name id before
      exact ⟨other, var_enterVar_old var isVar, rest⟩
    · exact ⟨var, var_enterVar_new s var, rfl, place⟩
  case known =>
    intro entry mem id isDeclared
    rw [show (s.enterVar var).vars.size = s.vars.size + 1 from Array.size_push _]
    rcases mem_append.mp mem with old | new
    · exact Nat.lt_succ_of_lt (inStep.known entry old id isDeclared)
    · cases mem_singleton.mp new
      cases isDeclared
      exact Nat.lt_succ_self _

theorem InStep.onScope (inStep : s.InStep) (id : Nat) {change : Scope → Scope}
    (names : ∀ scope, (change scope).names = scope.names) :
    ({ s with scopes := s.scopes.modifyScope id change } : State).InStep := by
  refine inStep.of_undisturbed ⟨fun scope name => ?_, fun _ => rfl, fun _ => rfl⟩
  exact lookup_modifyScope s.scopes id scope change name names

theorem InStep.onVar (inStep : s.InStep) (id : Nat) {change : Variable → Variable}
    (kept : ∀ var, (change var).name = var.name ∧ (change var).scope = var.scope) : (s.onVar id change).InStep := by
  refine inStep.of_undisturbed ⟨fun _ _ => rfl, fun _ => rfl, fun other => ?_⟩
  rw [vars_onVar]
  split
  · rw [Option.map_map]
    congr 1
    funext var
    exact Prod.ext (kept var).1 (kept var).2
  · rfl

private theorem steady_inStep : Steady False InStep where
  lines := False.elim
  aside := by
    intro s t inStep beside
    refine inStep.of_undisturbed ⟨fun scope name => ?_, beside.declared, fun _ => by rw [beside.vars]⟩
    simp only [ScopeTree.lookup, beside.scopes]
  scope := fun id _ kept inStep => inStep.onScope id (fun scope => (kept scope).2.2.2)
  nest := fun _ _ _ empty _ inStep => inStep.of_undisturbed
    ⟨fun _ name => lookup_addScope empty name, fun _ => rfl, fun _ => rfl⟩
  unit := fun _ _ inStep => inStep.onScope _ (fun _ => rfl)
  enter := fun _ _ _ _ _ inside free _ inStep => inStep.enterVar inside rfl free
  detail := fun id _ kept inStep => inStep.onVar id (fun var => ⟨(kept var).2.2.2.1, (kept var).2.2.2.2.1⟩)
  value := fun _ _ _ inStep => inStep.onVar _ (fun _ => ⟨rfl, rfl⟩)
  refer := by
    intro s id owner objective criterion _ _ _ inStep
    refine InStep.onVar ?_ id (fun _ => ⟨rfl, rfl⟩)
    unfold refresh
    split
    · exact inStep.onVar _ (fun _ => ⟨rfl, rfl⟩)
    · exact inStep
  members := fun id _ _ _ _ inStep => inStep.onVar id (fun _ => ⟨rfl, rfl⟩)

end State

/-- An operation of the compiler, with any arguments. Those that compile something may do so to any
depth. -/
inductive Compile.Operation : {α : Type} → Compile α → Prop where
  | declare (typeName : String) (access : Access) (usage : Usage) (name : String)
      (pos : Position) : Operation (declare typeName access usage name pos)
  | declareInternal (typeName : String) (access : Access) (usage : Usage) (name : String)
      (pos : Position) : Operation (declareInternal typeName access usage name pos)
  | temporary (typeName : String) (pos : Position) : Operation (temporary typeName pos)
  | bindRegister (typeName : String) (reg : Register) (pos : Position) :
      Operation (bindRegister typeName reg pos)
  | constantInt (score : Score) (pos : Position) : Operation (constantInt score pos)
  | constantBool (holds : Bool) (pos : Position) : Operation (constantBool holds pos)
  | constantText (text : String) (pos : Position) : Operation (constantText text pos)
  | innerScope (id : VarId) : Operation (innerScope id)
  | createChildren (count : Nat) : Operation (createChildren count)
  | openEntry : Operation openEntry
  | openUnit (pos : Position) : Operation (openUnit pos)
  | emit (cmds : List Command) : Operation (emit cmds)
  | discard (scope : ScopeId) : Operation (onScopes (ScopeTree.discard scope))
  | cast (value : VarId) (target : String) (pos : Position) :
      Operation (cast value target pos)
  | copyTo (src target : VarId) (pos : Position) : Operation (copyTo src target pos)
  | select (what : String) (overloads : List (List Param)) (args : List VarId) (pos : Position) :
      Operation (select what overloads args pos)
  | construct (args : List VarId) (pos : Position) : Operation (construct args pos)
  | operate (generations depth : Nat) (target : VarId) (op : Operator) (right : VarId)
      (pos : Position) :
      Operation ((ofDepth (generateWithin generations) depth).operate target op right pos)
  | access (generations depth : Nat) (target : VarId) (path : List Tree) (pos : Position) :
      Operation ((ofDepth (generateWithin generations) depth).access target path pos)
  | evaluate (generations depth : Nat) (items : List Tree) (pos : Position) :
      Operation ((ofDepth (generateWithin generations) depth).evaluate items pos)
  | write (generations depth : Nat) (tree : Tree) :
      Operation ((ofDepth (generateWithin generations) depth).write tree)

theorem State.Lasting.operation {holds : State → Prop} (lasting : Lasting False holds) {α : Type}
    {step : Compile α} (operation : Compile.Operation step) : Compile.Preserves False holds step (fun _ => True) := by
  have engine := preserves_within lasting
  have composed {α : Type} {step : Position → Compile α} {post : α → Prop}
      (composed : Compile.Composed (.still False) step post) := lasting.composed rfl composed
  cases operation with
  | declare => exact lasting.declare
  | declareInternal => exact lasting.declareInternal False.elim
  | temporary => exact lasting.anonymous
  | bindRegister => exact composed (.bindRegister _ False.elim) _
  | constantInt => exact composed .constantInt _
  | constantBool => exact composed .constantBool _
  | constantText => exact composed .constantText _
  | innerScope => exact lasting.innerScope
  | createChildren => exact lasting.createChildren
  | openEntry => exact lasting.openEntry
  | openUnit => exact lasting.openUnit.forget
  | emit => exact lasting.emit False.elim
  | discard => exact lasting.discard
  | cast => exact composed .cast _
  | copyTo => exact (composed .copyTo _).forget
  | select => exact composed (.selected _ False.elim _) _
  | construct => exact composed .construct _
  | operate generations depth => exact (engine generations depth).runs lasting (.operate rfl)
  | access generations depth target path =>
    exact (engine generations depth).runs lasting
      (.applyTrailer .member target (.refl (fun _ => rfl) path) False.elim rfl)
  | evaluate generations depth items pos => exact (engine generations depth).evaluate items pos
  | write generations depth tree => exact (engine generations depth).write tree

/-- What becomes of a state by steps of a kind one after another, whether they succeed or fail, and each in
any scope. -/
inductive State.LeadsTo (kind : {α : Type} → Compile α → Prop) (s : State) : State → Prop where
  | refl : LeadsTo @kind s s
  | act {t : State} {α : Type} {step : Compile α} (before : LeadsTo @kind s t) (isKind : kind step) :
      LeadsTo @kind s (step.runFrom t).2
  | move {t : State} (before : LeadsTo @kind s t) (scope : ScopeId) : LeadsTo @kind s { t with current := scope }

theorem State.Lasting.leadsTo {holds : State → Prop} (lasting : Lasting False holds)
    {kind : {α : Type} → Compile α → Prop} {s t : State}
    (step : ∀ {α : Type} {step : Compile α}, kind step → Compile.Preserves False holds step (fun _ => True))
    (leads : s.LeadsTo @kind t) (before : holds s) : holds t := by
  induction leads with
  | refl => exact before
  | act _ isKind holds => exact (step isKind _ holds).1
  | move _ scope holds => exact lasting.move scope holds

/-- The states that operations lead to. -/
abbrev State.Reachable (config : Config) (src : Nat) (s : State) : Prop :=
  (State.start config src).LeadsTo @Compile.Operation s

theorem State.Lasting.reachable {holds : State → Prop} (lasting : Lasting False holds) {config : Config} {src : Nat}
    {s : State} (reachable : s.Reachable config src) (start : holds (State.start config src)) : holds s :=
  lasting.leadsTo lasting.operation reachable start

/-- In every state that can be reached, the variables and the scopes are in step: a variable was
entered once, into its scope, which finds it under its name, and what a scope finds under a name is a
variable of that name that was put there. -/
theorem reachable_inStep {config : Config} {src : Nat} {s : State}
    (reachable : s.Reachable config src) : s.InStep :=
  State.steady_inStep.lasting.reachable reachable (State.inStep_start config src)

/-- An objective is declared, with the variable of its criterion in a scope of its own, and the second
declaration of its name fails. -/
theorem reachable_inStep_redeclared :
    let declaration := Compile.declare "objective" .hidden .ordinary "o" default
    let opened := (Compile.openEntry.runFrom (State.start {} 0)).2
    let declared := (declaration.runFrom opened).2
    let again := declaration.runFrom declared
    again.1.isOk = false ∧ again.2.vars.toList.map (fun var => (var.name, var.scope)) = [("o", 1), ("Criterion", 2)] ∧
      again.2.Reachable {} 0 ∧ again.2.InStep := by
  intro declaration opened declared again
  have reachable : again.2.Reachable {} 0 :=
    ((State.LeadsTo.refl.act .openEntry).act (.declare _ _ _ _ _)).act
      (.declare _ _ _ _ _)
  exact ⟨by decide, by decide, reachable, reachable_inStep reachable⟩

end ScoreScript
