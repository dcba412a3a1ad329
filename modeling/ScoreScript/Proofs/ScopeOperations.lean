import ScoreScript.Proofs.Compile.Outcome
import ScoreScript.Proofs.ScopeTree

/-!
# Operations on scopes

The operations that make and fill a tree of scopes, and the trees they lead to. An operation that
fails changes nothing, but that entering commands takes a place in the order first.
-/

namespace ScoreScript.ScopeTree

open Fault

variable {tree : ScopeTree} {id : Nat} {α : Type}

/-- An operation on the scopes with its arguments, by what it returns. -/
inductive Operation : Type → Type where
  | createChild (parent : ScopeId) (name : String) : Operation ScopeId
  | createChildren (parent : ScopeId) (namePrefix : String) (count : Nat) : Operation (List ScopeId)
  | markUnit (id : ScopeId) : Operation Unit
  | declare (id : ScopeId) (name : String) (var : VarId) (pos : Position) : Operation Unit
  | emit (id : ScopeId) (emission : Emission) : Operation Unit
  | discard (top : ScopeId) : Operation Unit
  | nextAnonymous (id : ScopeId) (namePrefix : String) : Operation String

namespace Operation

def edit {α : Type} : Operation α → Edit α
  | createChild parent name => ScopeTree.createChild parent name
  | createChildren parent namePrefix count => ScopeTree.createChildren parent namePrefix count
  | markUnit id => ScopeTree.markUnit id
  | declare id name var pos => ScopeTree.declare id name var pos
  | emit id emission => ScopeTree.emit id emission
  | discard top => ScopeTree.discard top
  | nextAnonymous id namePrefix => ScopeTree.nextAnonymous id namePrefix

def isEmission {α : Type} : Operation α → Bool
  | emit _ _ => true
  | _ => false

end Operation

/-- The trees that operations lead to, one after another, whether they succeed or fail. -/
inductive Reachable : ScopeTree → Prop where
  | start : Reachable {}
  | perform {tree : ScopeTree} {α : Type} (before : Reachable tree) (operation : Operation α) :
      Reachable (operation.edit.run.run tree).2

/-! ## Operations that fail -/

/-- Where the edit fails, it leaves the tree as it was. -/
def Edit.IsAtomic (edit : Edit α) : Prop :=
  ∀ (tree later : ScopeTree) (fault : Fault), edit.run.run tree = (.error fault, later) → later = tree

theorem Edit.IsAtomic.onScope {next : ScopeTree → Scope → Edit α}
    (rest : ∀ (tree later : ScopeTree) (scope : Scope) (fault : Fault), id < tree.size →
      (next tree scope).run.run tree = (.error fault, later) → later = tree) :
    Edit.IsAtomic (do
      let tree ← get
      let scope ← tree.scope id
      next tree scope) := by
  intro tree later fault failed
  cases found : tree.scopes[id]? with
  | none =>
    simp only [run_bind, run_get, ScopeTree.scope, found, run_lift] at failed
    exact (congrArg Prod.snd failed).symm
  | some scope =>
    simp only [run_bind, run_get, ScopeTree.scope, found, run_lift] at failed
    exact rest tree later scope fault (lt_size_of_getElem? found) failed

theorem run_nextAnonymous {scope : Scope} (found : tree.scopes[id]? = some scope) (namePrefix : String) :
    (nextAnonymous id namePrefix).run.run tree = (.ok (namePrefix ++ Base62.render scope.drawn),
      tree.draw id (namePrefix ++ Base62.render scope.drawn)) := by
  simp only [nextAnonymous, run_bind, run_get, ScopeTree.scope, found, run_lift, run_set, run_pure]

/-- Once a scope is there, nothing stops scopes from being made inside it. -/
private theorem createChildren_succeeds (namePrefix : String) (count : Nat) (inside : id < tree.size) :
    ∃ children later, (createChildren id namePrefix count).run.run tree = (.ok children, later) := by
  induction count generalizing tree with
  | zero => exact ⟨[], tree, rfl⟩
  | succ count ih =>
    obtain ⟨scope, found⟩ := exists_of_lt_size inside
    let drawn := tree.draw id (namePrefix ++ Base62.render scope.drawn)
    have there : id < drawn.size := (size_draw tree id _).symm ▸ inside
    obtain ⟨scope', found'⟩ := exists_of_lt_size there
    let child : Scope :=
      { name := namePrefix ++ Base62.render scope.drawn, parent := some id, drawn := scope'.drawn }
    obtain ⟨children, later, ran⟩ := @ih (drawn.addScope child) (size_addScope .. ▸ Nat.lt_succ_of_lt there)
    refine ⟨drawn.size :: children, later, ?_⟩
    have drew : (nextAnonymous id namePrefix).run.run tree = (.ok child.name, drawn) :=
      run_nextAnonymous found namePrefix
    have made : (createChild id child.name).run.run drawn = (.ok drawn.size, drawn.addScope child) := by
      simp only [createChild, run_bind, run_get, ScopeTree.scope, found', run_lift, run_set, run_pure]
      rfl
    simp only [createChildren, run_bind, drew, made, ran, run_pure]

theorem nextAnonymous_isAtomic (id : ScopeId) (namePrefix : String) : (nextAnonymous id namePrefix).IsAtomic :=
  .onScope (by rintro _ _ _ _ _ ⟨⟩)

private theorem createChildren_isAtomic (parent : ScopeId) (namePrefix : String) (count : Nat) :
    (createChildren parent namePrefix count).IsAtomic := by
  intro tree later fault failed
  rcases Nat.lt_or_ge parent tree.size with inside | outside
  · obtain ⟨_, _, ran⟩ := createChildren_succeeds namePrefix count inside
    cases failed.symm.trans ran
  · -- The first name cannot be drawn, and nothing comes before it.
    have absent : tree.scopes[parent]? = none := Array.getElem?_eq_none_iff.mpr outside
    cases count with
    | zero => cases failed
    | succ count =>
      simp only [createChildren, nextAnonymous, run_bind, run_get, ScopeTree.scope, absent, run_lift] at failed
      exact (congrArg Prod.snd failed).symm

/-- An operation that fails leaves the tree as it was, down to the number that the next entry gets. Only
entering commands takes a number before the scope is looked up. -/
theorem failed_unchanged {tree later : ScopeTree} {α : Type} (operation : Operation α) {fault : Fault}
    (failed : operation.edit.run.run tree = (.error fault, later)) :
    later = if operation.isEmission then { tree with nextSeq := tree.nextSeq + 1 } else tree := by
  cases operation with
  | createChild parent name =>
    have atomic : (createChild parent name).IsAtomic := .onScope (by rintro _ _ _ _ _ ⟨⟩)
    exact atomic tree later fault failed
  | createChildren parent namePrefix count => exact createChildren_isAtomic parent namePrefix count _ _ _ failed
  | markUnit id =>
    have atomic : (markUnit id).IsAtomic := .onScope (by rintro _ _ _ _ _ ⟨⟩)
    exact atomic tree later fault failed
  | declare id name var pos =>
    refine Edit.IsAtomic.onScope (fun tree later scope fault inside failed => ?_) _ _ _ failed
    split at failed
    · rw [path_eq inside] at failed
      exact (congrArg Prod.snd failed).symm
    · cases failed
  | emit id emission =>
    cases found : tree.scopes[id]? with
    | none =>
      simp only [Operation.edit, ScopeTree.emit, run_bind, run_get, run_set, ScopeTree.scope, found, run_lift] at failed
      exact (congrArg Prod.snd failed).symm
    | some scope =>
      simp only [Operation.edit, ScopeTree.emit, run_bind, run_get, run_set, ScopeTree.scope, found, run_lift] at failed
      cases failed
  | discard top =>
    have atomic : (discard top).IsAtomic := .onScope (by rintro _ _ _ _ _ ⟨⟩)
    exact atomic tree later fault failed
  | nextAnonymous id namePrefix => exact nextAnonymous_isAtomic id namePrefix _ _ _ failed

/-- A name that the scope binds already. -/
theorem failed_unchanged_bound :
    let tree := ((declare root "x" 0 default).run.run {}).2
    let again := (declare root "x" 1 default).run.run tree
    again.1 = .error ⟨.duplicateVariable "x" "", default⟩ ∧ again.2 = tree := by
  intro tree again
  have failed : again.1 = .error ⟨.duplicateVariable "x" "", default⟩ := by rfl
  exact ⟨failed, failed_unchanged (.declare root "x" 1 default) (Prod.ext failed rfl)⟩

/-- Commands for a scope that is not there take a number all the same. -/
theorem failed_emission_counted : Reachable {} ∧
    (Operation.emit 5 {}).edit.run.run {} = (.error ⟨.unknownScope 5, default⟩, { nextSeq := 1 }) ∧
      ({ nextSeq := 1 } : ScopeTree) ≠ {} :=
  ⟨.start, by rfl, by rintro ⟨⟩⟩

end ScoreScript.ScopeTree
