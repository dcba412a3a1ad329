import ScoreScript.Proofs.Compile.Primitives
import ScoreScript.Proofs.Positions.Reading

/-!
# Steps on states that differ in positions

Two states are alike when they differ only in the source and in the positions of variables and
units. The steps that change a state directly keep alike states alike, whatever related positions
they are given.
-/

namespace ScoreScript

variable {access : Access} {count : Nat} {p q : Position} {id parent scope : ScopeId}
  {name namePrefix typeName : String} {usage : Usage} {value : Value} {type : ValueType}

/-- How a step may differ from another: how the positions of both are related, and whether the trees
that they are given are kept within a budget. On strict terms more is known of what goes into commands. -/
structure Footing where
  place : Position → Position → Prop
  strict : Prop := False
  bounded : Prop := False
  separator : Char := ';'

def Footing.anywhere (sep : Char) : Footing where
  place := Tree.Anywhere
  bounded := True
  separator := sep

def Footing.still (strict : Prop) : Footing where
  place := Eq
  strict := strict

variable {f : Footing} {p q : Position}

def Variable.Alike (place : Position → Position → Prop) (a b : Variable) : Prop :=
  ∃ pos, b = { a with position := pos } ∧ place a.position pos

def OutputUnit.Alike (a b : OutputUnit) : Prop :=
  a.path = b.path ∧ a.scope = b.scope

/-- The states differ at most in the source and in positions. -/
structure State.Alike (f : Footing) (s t : State) : Prop where
  config : s.config = t.config
  separator : f.bounded → s.config.separator = f.separator
  origin : f.place (.start s.source) (.start t.source)
  scopes : s.scopes = t.scopes
  size : s.vars.size = t.vars.size
  vars : ∀ id : Nat, Option.Rel (Variable.Alike f.place) s.vars[id]? t.vars[id]?
  units : List.Forall₂ OutputUnit.Alike s.units t.units
  current : s.current = t.current
  objectives : s.objectives = t.objectives
  nextObjective : s.nextObjective = t.nextObjective

namespace State.Alike

variable {s t : State}

theorem start {config : Config} {src source' : Nat} (sep : f.bounded → config.separator = f.separator)
    (origin : f.place (.start src) (.start source')) :
    State.Alike f (.start config src) (.start config source') where
  config := rfl
  separator := sep
  origin := origin
  scopes := rfl
  size := rfl
  vars := fun _ => .none
  units := .nil
  current := rfl
  objectives := rfl
  nextObjective := rfl

theorem refl (stays : ∀ p, f.place p p) (sep : f.bounded → s.config.separator = f.separator) : s.Alike f s where
  config := rfl
  separator := sep
  origin := stays _
  scopes := rfl
  size := rfl
  vars id := by
    cases s.vars[id]? with
    | none => exact .none
    | some var => exact .some ⟨var.position, rfl, stays _⟩
  units := List.forall₂_same.mpr (fun _ _ => ⟨rfl, rfl⟩)
  current := rfl
  objectives := rfl
  nextObjective := rfl

theorem layout (alike : s.Alike f t) : s.layout.Same f.place t.layout :=
  ⟨congrArg Config.separator alike.config, alike.origin⟩

theorem resolve (alike : s.Alike f t) (name : String) : s.resolve name = t.resolve name := by
  rw [State.resolve, alike.scopes, alike.current, State.resolve]

theorem call (alike : s.Alike f t) (path : String) : s.call path = t.call path := by
  rw [State.call, alike.config, State.call]

theorem predates (alike : s.Alike f t) (reg : Register) (count : Nat) :
    s.predates reg count = t.predates reg count := by
  have held (id : Nat) : (∃ var, s.vars[id]? = some var ∧ var.value.register? = some reg) ↔
      ∃ var, t.vars[id]? = some var ∧ var.value.register? = some reg := by
    have vars := alike.vars id
    generalize s.vars[id]? = found at vars
    generalize t.vars[id]? = found' at vars
    cases vars with
    | none => rfl
    | some same =>
      obtain ⟨pos, rfl, _⟩ := same
      simp
  rw [Bool.eq_iff_iff, predates_iff, predates_iff]
  simp only [exists_and_left, held]

theorem withCurrent (alike : s.Alike f t) (scope : ScopeId) :
    State.Alike f { s with current := scope } { t with current := scope } :=
  { alike with current := rfl }

end State.Alike

/-! ## Scopes -/

namespace ScopeTree

variable {place : Position → Position → Prop} {α : Type}

theorem scope_concur (tree : ScopeTree) : Concur place Eq (tree.scope id) (tree.scope id) := by
  unfold scope
  split
  · exact .ok rfl
  · exact .error ⟨rfl, .inr ⟨rfl, rfl⟩⟩

theorem path_concur (tree : ScopeTree) : Concur place Eq (tree.path id) (tree.path id) := by
  apply (scope_concur tree).bind
  rintro _ _ rfl
  exact .ok rfl

theorem onScope_coincide {id : ScopeId} {next next' : ScopeTree → Scope → Edit α}
    (rest : ∀ tree scope, Coincide place Eq Eq (next tree scope) (next' tree scope)) :
    Coincide place Eq Eq (do let tree ← get; next tree (← tree.scope id))
      (do let tree ← get; next' tree (← tree.scope id)) := by
  apply Coincide.get_bind
  rintro tree _ rfl
  exact (Coincide.lift (scope_concur tree)).seq (rest tree)

theorem createChild_coincide : Coincide place Eq Eq (createChild parent name) (createChild parent name) :=
  onScope_coincide (fun _ _ => (Coincide.put rfl).seq (fun _ => .pure rfl))

theorem nextAnonymous_coincide : Coincide place Eq Eq (nextAnonymous id namePrefix) (nextAnonymous id namePrefix) :=
  onScope_coincide (fun _ _ => (Coincide.put rfl).seq (fun _ => .pure rfl))

theorem createChildren_coincide :
    Coincide place Eq Eq (createChildren parent namePrefix count) (createChildren parent namePrefix count) := by
  induction count with
  | zero => exact .pure rfl
  | succ count ih =>
    apply nextAnonymous_coincide.seq
    intro name
    apply createChild_coincide.seq
    exact fun child => ih.seq (fun _ => .pure rfl)

theorem markUnit_coincide : Coincide place Eq Eq (markUnit id) (markUnit id) :=
  onScope_coincide (fun _ _ => .put rfl)

theorem discard_coincide {top : ScopeId} : Coincide place Eq Eq (discard top) (discard top) :=
  onScope_coincide (fun _ _ => .put rfl)

theorem declare_coincide {var : VarId} (placed : place p q) :
    Coincide place Eq Eq (declare id name var p) (declare id name var q) := by
  apply onScope_coincide
  intro tree scope
  dsimp only
  split
  · exact (Coincide.lift (path_concur tree)).seq (fun _ => .throw _ placed)
  · exact .put rfl

theorem emit_coincide (emission : Emission) : Coincide place Eq Eq (emit id emission) (emit id emission) := by
  apply Coincide.get_bind
  rintro tree _ rfl
  apply (Coincide.put rfl).seq
  intro _
  exact (Coincide.lift (scope_concur tree)).seq (fun _ => .put rfl)

end ScopeTree

namespace Compile

/-- From alike states the steps come to the same end, up to positions. -/
abbrev Alike (f : Footing) {α β : Type} (rel : α → β → Prop) (step : Compile α) (step' : Compile β) : Prop :=
  Coincide f.place (State.Alike f) rel step step'

variable {α β : Type} {rel : α → β → Prop}

theorem attempt_coincide {place : Position → Position → Prop} {same : State → State → Prop}
    {step : Compile α} {step' : Compile β} (coincide : Coincide place same rel step step') :
    Coincide place same (Concur place rel) (attempt step) (attempt step') :=
  fun s t states => ⟨.ok (coincide s t states).1, (coincide s t states).2⟩

theorem inScope_alike {step : Compile α} {step' : Compile β} (alike : Alike f rel step step') :
    Alike f rel (inScope scope step) (inScope scope step') := by
  intro s t same
  obtain ⟨outcomes, states⟩ := alike _ _ (same.withCurrent scope)
  exact ⟨outcomes, { states with current := same.current }⟩

theorem onScopes_alike {edit : ScopeTree.Edit α} {edit' : ScopeTree.Edit β}
    (edits : Coincide f.place Eq rel edit edit') : Alike f rel (onScopes edit) (onScopes edit') := by
  intro s t same
  obtain ⟨outcomes, scopes⟩ := edits s.scopes t.scopes same.scopes
  exact ⟨outcomes, { same with scopes := scopes }⟩

/-! ## Variables -/

theorem var_alike : Alike f (Variable.Alike f.place) (var id) (var id) := by
  apply Coincide.get_bind
  intro s t same
  have vars := same.vars id
  generalize s.vars[id]? = found at vars
  generalize t.vars[id]? = found' at vars
  cases vars with
  | none => exact .lift (.error ⟨rfl, .inr ⟨rfl, rfl⟩⟩)
  | some alike => exact .pure alike

theorem modifyVar_alike (id : VarId) {change change' : Variable → Variable}
    (kept : ∀ a b, a.Alike f.place b → (change a).Alike f.place (change' b)) :
    Alike f Eq (modifyVar id change) (modifyVar id change') := by
  apply var_alike.bind
  intro _ _ _
  apply Coincide.change
  intro s t same
  refine { same with size := ?_, vars := ?_ }
  · simp [same.size]
  · intro other
    have old := same.vars other
    dsimp only
    rw [Array.getElem?_modify, Array.getElem?_modify]
    generalize s.vars[other]? = found at old
    generalize t.vars[other]? = found' at old
    split
    · cases old with
      | none => exact .none
      | some alike => exact .some (kept _ _ alike)
    · exact old

theorem setValue_alike : Alike f Eq (setValue id value) (setValue id value) := by
  apply modifyVar_alike
  rintro a _ ⟨pos, rfl, placed⟩
  exact ⟨pos, rfl, placed⟩

/-! ## Types and names -/

theorem typeNamed_concur {place : Position → Position → Prop} (placed : place p q) :
    Concur place Eq (typeNamed name p) (typeNamed name q) := by
  unfold typeNamed
  split
  · exact .ok rfl
  · exact .fail _ placed

theorem checkModifiers_concur (placed : f.place p q) :
    Concur f.place Eq (checkModifiers type access usage p) (checkModifiers type access usage q) := by
  unfold checkModifiers
  dsimp only
  split
  · exact .fail _ placed
  split
  · exact .fail _ placed
  · exact .ok rfl

theorem checkName_concur (config : Config) (placed : f.place p q) :
    Concur f.place Eq (checkName config name p) (checkName config name q) := by
  unfold checkName
  dsimp only
  split
  · exact .fail _ placed
  split
  · exact .fail _ placed
  split
  · exact .fail _ placed
  · exact .ok rfl

/-! ## Scopes and units -/

theorem createChildren_alike : Alike f Eq (createChildren count) (createChildren count) := by
  apply Coincide.get_bind
  intro s t same
  rw [same.current, same.config]
  exact onScopes_alike ScopeTree.createChildren_coincide

theorem innerScope_alike : Alike f Eq (innerScope id) (innerScope id) := by
  apply var_alike.bind
  rintro owner _ ⟨pos, rfl, _⟩
  dsimp only
  cases owner.inner with
  | some inner => exact .pure rfl
  | none =>
    apply (onScopes_alike ScopeTree.createChild_coincide).seq
    intro inner
    apply (modifyVar_alike id _).seq
    · exact fun _ => .pure rfl
    · rintro a _ ⟨pos, rfl, placed⟩
      exact ⟨pos, rfl, placed⟩

theorem addUnit_alike : Alike f Eq (addUnit scope p) (addUnit scope q) := by
  apply (onScopes_alike ScopeTree.markUnit_coincide).seq
  intro _
  apply Coincide.get_bind
  intro s t same
  rw [same.scopes]
  apply (Coincide.lift (ScopeTree.path_concur _)).seq
  intro path
  refine Coincide.seq (.change ?_) (fun _ => .pure rfl)
  intro u v alike
  exact { alike with units := List.rel_append alike.units (.cons ⟨rfl, rfl⟩ .nil) }

theorem openEntry_alike : Alike f Eq openEntry openEntry := by
  apply Coincide.get_bind
  intro s t same
  rw [same.config]
  apply (onScopes_alike ScopeTree.createChild_coincide).seq
  intro scope
  apply addUnit_alike.seq
  intro _
  refine Coincide.seq (.change ?_) (fun _ => .pure rfl)
  exact fun u v alike => alike.withCurrent scope

theorem openUnit_alike : Alike f Eq (openUnit p) (openUnit q) := by
  apply Coincide.get_bind
  intro s t same
  rw [same.current, same.config]
  apply (onScopes_alike ScopeTree.nextAnonymous_coincide).seq
  intro name
  apply (onScopes_alike ScopeTree.createChild_coincide).seq
  intro scope
  exact addUnit_alike.seq (fun _ => .pure rfl)

/-! ## Output and objectives -/

theorem emit_alike {cmds : List Command} : Alike f Eq (emit cmds) (emit cmds) := by
  unfold emit
  split
  · exact .pure rfl
  · apply Coincide.get_bind
    intro s t same
    rw [same.current]
    exact onScopes_alike (ScopeTree.emit_coincide _)

theorem nextObjective_alike : Alike f Eq nextObjective nextObjective := by
  apply Coincide.get_bind
  intro s t same
  rw [same.config, same.objectives, same.nextObjective]
  refine Coincide.seq (.change ?_) (fun _ => .pure rfl)
  exact fun u v alike => { alike with nextObjective := rfl }

theorem claimObjective_alike {id : String} (placed : f.place p q) :
    Alike f Eq (claimObjective id p) (claimObjective id q) := by
  apply Coincide.get_bind
  intro s t same
  dsimp only
  rw [same.objectives]
  split
  · exact .throw _ placed
  · apply Coincide.change
    intro u v alike
    exact { alike with objectives := congrArg (· ++ [id]) alike.objectives }

/-! ## Making variables -/

theorem registerFor_alike : Alike f Eq (registerFor scope name) (registerFor scope name) := by
  apply Coincide.get_bind
  intro s t same
  rw [same.scopes, same.config]
  exact (Coincide.lift (ScopeTree.path_concur _)).seq (fun _ => .pure rfl)

theorem enterVariable_alike (placed : f.place p q) :
    Alike f Eq (enterVariable type access usage name p) (enterVariable type access usage name q) := by
  apply (Coincide.lift (checkModifiers_concur placed)).seq
  intro _
  apply Coincide.get_bind
  intro s t same
  dsimp only
  rw [same.current, same.size]
  apply (onScopes_alike (ScopeTree.declare_coincide placed)).seq
  intro _
  refine Coincide.seq (.change ?_) (fun _ => .pure rfl)
  intro u v alike
  refine { alike with size := ?_, vars := ?_ }
  · simp [alike.size]
  · intro id
    dsimp only
    rw [Array.getElem?_push, Array.getElem?_push, alike.size]
    split
    · exact .some ⟨q, rfl, placed⟩
    · exact alike.vars id

theorem allocateScore_alike : Alike f Eq (allocateScore id) (allocateScore id) := by
  apply var_alike.bind
  rintro owner _ ⟨pos, rfl, _⟩
  dsimp only
  split
  · exact .pure rfl
  · exact registerFor_alike.seq (fun reg => setValue_alike)

theorem allocateObjective_alike : Alike f Eq (allocateObjective id) (allocateObjective id) := by
  apply innerScope_alike.seq
  intro inner
  apply var_alike.bind
  rintro owner _ ⟨pos, rfl, placed⟩
  apply (inScope_alike (enterVariable_alike placed)).seq
  intro criterion
  apply modifyVar_alike
  rintro a _ ⟨pos, rfl, placed⟩
  exact ⟨pos, rfl, placed⟩

theorem declareInternal_alike (placed : f.place p q) : Alike f Eq (declareInternal typeName access usage name p)
      (declareInternal typeName access usage name q) := by
  apply (Coincide.lift (typeNamed_concur placed)).seq
  intro type
  apply (enterVariable_alike placed).seq
  intro id
  have allocated : Alike f Eq (allocate type id) (allocate type id) := by
    cases type with
    | int | bool => exact allocateScore_alike
    | string => exact .pure rfl
    | objective => exact allocateObjective_alike
  exact allocated.seq (fun _ => .pure rfl)

theorem declare_alike (placed : f.place p q) :
    Alike f Eq (declare typeName access usage name p) (declare typeName access usage name q) := by
  apply Coincide.get_bind
  intro s t same
  rw [same.config]
  apply (Coincide.lift (checkName_concur _ placed)).seq
  exact fun _ => declareInternal_alike placed

theorem anonymous_alike (placed : f.place p q) :
    Alike f Eq (anonymous typeName usage p) (anonymous typeName usage q) := by
  apply Coincide.get_bind
  intro s t same
  rw [same.current, same.config]
  apply (onScopes_alike ScopeTree.nextAnonymous_coincide).seq
  exact fun name => declareInternal_alike placed

theorem valued_alike (placed : f.place p q) :
    Alike f Eq (do
        let id ← anonymous typeName usage p
        setValue id value
        return id)
      (do
        let id ← anonymous typeName usage q
        setValue id value
        return id) := by
  apply (anonymous_alike placed).seq
  intro id
  exact setValue_alike.seq (fun _ => .pure rfl)

end Compile

end ScoreScript
