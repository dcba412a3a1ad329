import ScoreScript.Proofs.Names

/-!
# The shape of the scope tree

A scope has a larger number than the scope around it, so the chain of enclosing scopes ends at the
root. Names and parents never change once a scope is made; what a path says is fixed from then on.
-/

namespace ScoreScript.ScopeTree

open List

variable {id outer : Nat} {added scope : Scope} {later tree : ScopeTree}

/-- The root stands alone, and every other scope lies inside one with a smaller number. -/
structure Rooted (tree : ScopeTree) : Prop where
  root : ∃ scope, tree.scopes[0]? = some scope ∧ scope.parent = none ∧ scope.name = ""
  parent : ∀ (id : Nat) (scope : Scope), tree.scopes[id]? = some scope → 0 < id →
    ∃ outer : Nat, scope.parent = some outer ∧ outer < id

theorem lt_size_of_getElem? (found : tree.scopes[id]? = some scope) : id < tree.size :=
  (Array.getElem?_eq_some_iff.mp found).1

theorem exists_of_lt_size (inside : id < tree.size) : ∃ scope, tree.scopes[id]? = some scope :=
  ⟨_, Array.getElem?_eq_getElem inside⟩

section

variable (rooted : tree.Rooted)
include rooted

theorem Rooted.lt_of_parent (found : tree.scopes[id]? = some scope)
    (parent : scope.parent = some outer) : outer < id := by
  rcases Nat.eq_zero_or_pos id with rfl | positive
  · obtain ⟨first, there, alone, _⟩ := rooted.root
    rw [found] at there
    cases there
    rw [alone] at parent
    cases parent
  · obtain ⟨around, isAround, smaller⟩ := rooted.parent id scope found positive
    rw [parent] at isAround
    cases isAround
    exact smaller

/-! ## Enclosing scopes -/

private theorem ancestryUpTo_of_lt (id bound : Nat) (enough : id < bound) :
    tree.ancestryUpTo bound id = tree.ancestry id := by
  induction id using Nat.strongRecOn generalizing bound with
  | ind id ih =>
    cases bound with
    | zero => omega
    | succ bound =>
      simp only [ancestry, ancestryUpTo]
      cases found : tree.scopes[id]? with
      | none => rfl
      | some scope =>
        cases outer : scope.parent with
        | none => simp only [outer]
        | some outer' =>
          have below := rooted.lt_of_parent found outer
          simp only [outer]
          rw [ih outer' below bound (by omega), ih outer' below id below]

theorem ancestry_root (found : tree.scopes[0]? = some scope) : tree.ancestry 0 = [scope] := by
  obtain ⟨first, there, alone, _⟩ := rooted.root
  rw [there] at found
  cases found
  simp [ancestry, ancestryUpTo, there, alone]

theorem ancestry_of_parent (found : tree.scopes[id]? = some scope) (parent : scope.parent = some outer)
    (below : outer < id) : tree.ancestry id = scope :: tree.ancestry outer := by
  rw [ancestry, ancestryUpTo]
  simp only [found, parent]
  rw [ancestryUpTo_of_lt rooted outer id below]

theorem segments_of_parent (found : tree.scopes[id]? = some scope) (parent : scope.parent = some outer)
    (below : outer < id) (named : scope.name ≠ "") : tree.segments id = tree.segments outer ++ [scope.name] := by
  simp [segments, ancestry_of_parent rooted found parent below, named]

theorem segments_root : tree.segments 0 = [] := by
  obtain ⟨first, there, _, nameless⟩ := rooted.root
  simp [segments, ancestry_root rooted there, nameless]

theorem resolve_of_parent (found : tree.scopes[id]? = some scope) (parent : scope.parent = some outer)
    (below : outer < id) (name : String) : tree.resolve id name = (scope.find? name).or (tree.resolve outer name) := by
  rw [resolve, ancestry_of_parent rooted found parent below, findSome?_cons]
  cases scope.find? name <;> rfl

theorem resolve_congr (laterRooted : later.Rooted) (name : String) (inside : id < tree.size)
    (same : ∀ (i : Nat) (scope : Scope), i ≤ id → tree.scopes[i]? = some scope →
      ∃ scope' : Scope, later.scopes[i]? = some scope' ∧ scope'.parent = scope.parent ∧
        scope'.find? name = scope.find? name) : later.resolve id name = tree.resolve id name := by
  induction id using Nat.strongRecOn with
  | ind id ih =>
    obtain ⟨scope, found⟩ := exists_of_lt_size inside
    obtain ⟨scope', found', sameParent, own⟩ := same id scope (Nat.le_refl id) found
    rcases Nat.eq_zero_or_pos id with rfl | positive
    · rw [resolve, resolve, ancestry_root rooted found, ancestry_root laterRooted found',
        findSome?_cons, findSome?_cons, own]
    · obtain ⟨outer, parent, below⟩ := rooted.parent id scope found positive
      have around := ih outer below (Nat.lt_trans below inside)
        (fun i scope smaller => same i scope (Nat.le_trans smaller (Nat.le_of_lt below)))
      rw [resolve_of_parent rooted found parent below,
        resolve_of_parent laterRooted found' (sameParent.trans parent) below, own, around]

end

theorem segments_congr (same : later.scopes = tree.scopes) (id : Nat) : later.segments id = tree.segments id := by
  have climbs : ∀ (bound id : Nat), later.ancestryUpTo bound id = tree.ancestryUpTo bound id := by
    intro bound
    induction bound with
    | zero => exact fun _ => rfl
    | succ bound ih =>
      intro id
      simp only [ancestryUpTo, same, ih]
  rw [segments, segments, ancestry, ancestry, climbs]

/-! ## Trees that only grow -/

/-- Every scope of the one tree is in the other, with the same name in the same place. -/
def Within (tree later : ScopeTree) : Prop :=
  ∀ (id : Nat) (scope : Scope), tree.scopes[id]? = some scope →
    ∃ scope' : Scope, later.scopes[id]? = some scope' ∧ scope'.name = scope.name ∧ scope'.parent = scope.parent

theorem size_le_of_getElem? {α : Type} {before after : Array α}
    (kept : ∀ (i : Nat) (a : α), before[i]? = some a → ∃ b, after[i]? = some b) : before.size ≤ after.size := by
  refine Nat.le_of_not_lt (fun less => ?_)
  obtain ⟨_, there⟩ := kept after.size _ (Array.getElem?_eq_getElem less)
  exact Nat.lt_irrefl _ (Array.getElem?_eq_some_iff.mp there).1

theorem Within.size_le (within : tree.Within later) : tree.size ≤ later.size :=
  size_le_of_getElem? (fun id scope found => (within id scope found).imp (fun _ there => there.1))

theorem Within.segments_eq (within : tree.Within later) (rooted : tree.Rooted)
    (laterRooted : later.Rooted) (inside : id < tree.size) : later.segments id = tree.segments id := by
  induction id using Nat.strongRecOn with
  | ind id ih =>
    obtain ⟨scope, found⟩ := exists_of_lt_size inside
    obtain ⟨scope', there, sameName, sameParent⟩ := within id scope found
    rcases Nat.eq_zero_or_pos id with rfl | positive
    · rw [segments_root rooted, segments_root laterRooted]
    · obtain ⟨outer, parent, below⟩ := rooted.parent id scope found positive
      have parent' := sameParent.trans parent
      have tail := ih outer below (Nat.lt_trans below inside)
      simp only [segments] at tail
      simp only [segments, ancestry_of_parent rooted found parent below,
        ancestry_of_parent laterRooted there parent' below, map_cons, reverse_cons,
        filter_append, sameName, tail]

theorem path_eq (inside : id < tree.size) : tree.path id = .ok ("/".intercalate (tree.segments id)) := by
  obtain ⟨scope, found⟩ := exists_of_lt_size inside
  simp [path, ScopeTree.scope, found, bind, Except.bind, pure, Except.pure]

/-! ## Changing one scope -/

@[simp]
theorem scopes_modifyScope (tree : ScopeTree) (id i : Nat) (change : Scope → Scope) :
    (tree.modifyScope id change).scopes[i]? = if id = i then tree.scopes[i]?.map change else tree.scopes[i]? :=
  Array.getElem?_modify

theorem lookup_modifyScope (tree : ScopeTree) (id i : Nat) (change : Scope → Scope) (name : String)
    (kept : ∀ scope, (change scope).names = scope.names) :
    (tree.modifyScope id change).lookup i name = tree.lookup i name := by
  simp only [lookup, scopes_modifyScope]
  split
  · cases tree.scopes[i]? <;> simp [Scope.find?, kept]
  · rfl

@[simp]
theorem size_modifyScope (tree : ScopeTree) (id : Nat) (change : Scope → Scope) :
    (tree.modifyScope id change).size = tree.size := by
  simp [size, modifyScope]

theorem getElem?_modifyScope_elim {i : Nat} {change : Scope → Scope}
    (found : (tree.modifyScope id change).scopes[i]? = some scope) :
    ∃ old, tree.scopes[i]? = some old ∧ (scope = old ∨ id = i ∧ scope = change old) := by
  rw [scopes_modifyScope] at found
  split at found
  · next same =>
      obtain ⟨old, there, rfl⟩ := Option.map_eq_some_iff.mp found
      exact ⟨old, there, .inr ⟨same, rfl⟩⟩
  · exact ⟨scope, found, .inl rfl⟩

theorem within_modifyScope (tree : ScopeTree) (id : Nat) (change : Scope → Scope)
    (name : ∀ scope, (change scope).name = scope.name) (parent : ∀ scope, (change scope).parent = scope.parent) :
    tree.Within (tree.modifyScope id change) := by
  intro i scope found
  by_cases same : id = i
  · exact ⟨change scope, by simp [same, found], name scope, parent scope⟩
  · exact ⟨scope, by simp [same, found], rfl, rfl⟩

theorem rooted_modifyScope (rooted : tree.Rooted) (id : Nat) (change : Scope → Scope)
    (name : ∀ scope, (change scope).name = scope.name) (parent : ∀ scope, (change scope).parent = scope.parent) :
    (tree.modifyScope id change).Rooted := by
  constructor
  · obtain ⟨root, found, alone, nameless⟩ := rooted.root
    obtain ⟨root', there, sameName, sameParent⟩ := within_modifyScope tree id change name parent _ _ found
    exact ⟨root', there, sameParent.trans alone, sameName.trans nameless⟩
  · intro i scope found positive
    obtain ⟨old, there, rfl | ⟨_, rfl⟩⟩ := getElem?_modifyScope_elim found
    · exact rooted.parent i scope there positive
    · rw [parent]
      exact rooted.parent i old there positive

@[simp] theorem scopes_draw (tree : ScopeTree) (id : ScopeId) (name : String) : (tree.draw id name).scopes =
    (tree.modifyScope id (fun scope => { scope with drawn := scope.drawn + 1 })).scopes :=
  rfl

@[simp] theorem size_draw (tree : ScopeTree) (id : ScopeId) (name : String) : (tree.draw id name).size = tree.size :=
  size_modifyScope ..

theorem rooted_draw {tree : ScopeTree} (rooted : tree.Rooted) (id : ScopeId) (name : String) :
    (tree.draw id name).Rooted := by
  have modified := rooted_modifyScope rooted id (fun scope => { scope with drawn := scope.drawn + 1 })
    (fun _ => rfl) (fun _ => rfl)
  exact ⟨modified.root, modified.parent⟩

/-! ## Adding a scope -/

@[simp]
theorem size_addScope (tree : ScopeTree) (scope : Scope) : (tree.addScope scope).size = tree.size + 1 := by
  simp [size, addScope]

theorem getElem?_addScope_of_lt (scope : Scope) (inside : id < tree.size) :
    (tree.addScope scope).scopes[id]? = tree.scopes[id]? := by
  simp only [addScope, Array.getElem?_push]
  exact if_neg (Nat.ne_of_lt inside)

@[simp]
theorem getElem?_addScope_size (tree : ScopeTree) (scope : Scope) :
    (tree.addScope scope).scopes[tree.size]? = some scope := by
  simp [addScope, size]

theorem getElem?_addScope_elim (found : (tree.addScope added).scopes[id]? = some scope) :
    tree.scopes[id]? = some scope ∨ id = tree.size ∧ scope = added := by
  have bound := lt_size_of_getElem? found
  rw [size_addScope] at bound
  rcases Nat.lt_or_ge id tree.size with inside | outside
  · exact .inl (getElem?_addScope_of_lt added inside ▸ found)
  · have same : id = tree.size := by omega
    subst same
    rw [getElem?_addScope_size] at found
    exact .inr ⟨rfl, (Option.some.inj found).symm⟩

theorem within_addScope (tree : ScopeTree) (added : Scope) : tree.Within (tree.addScope added) := by
  intro id scope found
  refine ⟨scope, ?_, rfl, rfl⟩
  rw [getElem?_addScope_of_lt added (lt_size_of_getElem? found), found]

theorem rooted_addScope (rooted : tree.Rooted) (parent : added.parent = some outer) (inside : outer < tree.size) :
    (tree.addScope added).Rooted := by
  constructor
  · obtain ⟨root, found, rest⟩ := rooted.root
    refine ⟨root, ?_, rest⟩
    rw [getElem?_addScope_of_lt added (lt_size_of_getElem? found), found]
  · intro id scope found positive
    rcases getElem?_addScope_elim found with old | ⟨rfl, rfl⟩
    · exact rooted.parent id scope old positive
    · exact ⟨outer, parent, inside⟩

private theorem lookup_addScope_of_lt (added : Scope) (name : String) (inside : id < tree.size) :
    (tree.addScope added).lookup id name = tree.lookup id name := by
  rw [lookup, lookup, getElem?_addScope_of_lt added inside]

theorem lt_size_of_lookup {name : String} {var : VarId} (found : tree.lookup id name = some var) : id < tree.size := by
  obtain ⟨scope, there, _⟩ := Option.bind_eq_some_iff.mp found
  exact lt_size_of_getElem? there

theorem lookup_addScope (empty : added.names = []) (name : String) :
    (tree.addScope added).lookup id name = tree.lookup id name := by
  rcases Nat.lt_trichotomy id tree.size with inside | rfl | outside
  · exact lookup_addScope_of_lt added name inside
  · have none : tree.scopes[tree.size]? = none := by simp [size]
    simp [lookup, Scope.find?, empty, none]
  · have absent : tree.scopes[id]? = none := by
      rw [Array.getElem?_eq_none_iff]
      exact Nat.le_of_lt outside
    have absentLater : (tree.addScope added).scopes[id]? = none := by
      rw [Array.getElem?_eq_none_iff]
      have := size_addScope tree added
      simp only [size] at this outside ⊢
      omega
    rw [lookup, lookup, absent, absentLater]

/-! ## Binding a name -/

theorem lookup_bindName (tree : ScopeTree) (id i : Nat) (name other : String) (var : VarId) (inside : id < tree.size) :
    (tree.bindName id name var).lookup i other =
      if i = id then (tree.lookup i other).or (if other = name then some var else none) else tree.lookup i other := by
  simp only [lookup, bindName, scopes_modifyScope]
  by_cases same : i = id
  · subst same
    obtain ⟨scope, found⟩ := exists_of_lt_size inside
    simp only [if_true, found, Option.map_some, Option.bind_some, Scope.find?]
    rw [lookup_append]
    congr 1
    simp [lookup_cons]
    split <;> simp_all
  · simp [same, Ne.symm same]

/-! ## The scopes of a unit -/

theorem belongs_of_isUnit {top : Nat} (found : tree.scopes[id]? = some scope) (unit : scope.isUnit = true) :
    tree.belongs top id = (id == top) := by
  simp only [belongs, belongsUpTo, found, unit]
  cases scope.parent <;> simp

/-- The scope is `top`, or lies inside it with no unit on the way. -/
inductive LiesIn (tree : ScopeTree) (top : ScopeId) : ScopeId → Prop where
  | here : LiesIn tree top top
  | inner {id outer : ScopeId} {scope : Scope} (found : tree.scopes[id]? = some scope)
      (plain : scope.isUnit = false) (parent : scope.parent = some outer)
      (around : LiesIn tree top outer) : LiesIn tree top id

/-- The root, or a scope that is marked as a unit. -/
def IsHead (tree : ScopeTree) (id : ScopeId) : Prop :=
  id = root ∨ ∃ scope, tree.scopes[id]? = some scope ∧ scope.isUnit = true

section

variable (rooted : tree.Rooted)
include rooted

private theorem belongsUpTo_iff {top : ScopeId} {bound id : Nat}
    (enough : id < bound) : tree.belongsUpTo top bound id = true ↔ tree.LiesIn top id := by
  induction bound generalizing id with
  | zero => omega
  | succ bound ih =>
    rw [belongsUpTo, Bool.or_eq_true, beq_iff_eq]
    constructor
    · rintro (rfl | climbs)
      · exact .here
      · cases found : tree.scopes[id]? with
        | none => simp [found] at climbs
        | some scope =>
          cases parent : scope.parent with
          | none => simp [found, parent] at climbs
          | some outer =>
            have below := rooted.lt_of_parent found parent
            simp only [found, parent, Bool.and_eq_true, Bool.not_eq_true'] at climbs
            exact .inner found climbs.1 parent ((ih (by omega)).mp climbs.2)
    · rintro (_ | ⟨found, plain, parent, around⟩)
      · exact .inl rfl
      · have below := rooted.lt_of_parent found parent
        simp only [found, parent, plain]
        exact .inr ((ih (by omega)).mpr around)

theorem belongs_iff {top id : ScopeId} : tree.belongs top id = true ↔ tree.LiesIn top id :=
  belongsUpTo_iff rooted (Nat.lt_succ_self id)

theorem LiesIn.le {top : ScopeId} (lies : tree.LiesIn top id) : top ≤ id := by
  induction lies with
  | here => exact Nat.le_refl _
  | inner found _ parent _ ih => exact Nat.le_trans ih (Nat.le_of_lt (rooted.lt_of_parent found parent))

theorem IsHead.lt_size (isHead : tree.IsHead id) : id < tree.size := by
  rcases isHead with rfl | ⟨scope, found, _⟩
  · obtain ⟨scope, found, _⟩ := rooted.root
    exact lt_size_of_getElem? found
  · exact lt_size_of_getElem? found

/-- Of the heads, a scope is part of one only. -/
theorem Rooted.exists_head (inside : id < tree.size) : ∃ top, tree.IsHead top ∧ tree.LiesIn top id ∧
    ∀ other, tree.IsHead other → tree.LiesIn other id → other = top := by
  induction id using Nat.strongRecOn with
  | ind id ih =>
    obtain ⟨scope, found⟩ := exists_of_lt_size inside
    by_cases isHead : tree.IsHead id
    · refine ⟨id, isHead, .here, ?_⟩
      rintro other _ (_ | ⟨found', plain, parent, _⟩)
      · rfl
      cases found.symm.trans found'
      rcases isHead with rfl | ⟨_, there, isUnit⟩
      · obtain ⟨_, isTop, alone, _⟩ := rooted.root
        cases found.symm.trans isTop
        cases alone.symm.trans parent
      · cases found.symm.trans there
        cases plain.symm.trans isUnit
    · have plain : scope.isUnit = false :=
        Bool.eq_false_iff.mpr (fun isUnit => isHead (.inr ⟨scope, found, isUnit⟩))
      have positive : 0 < id := Nat.pos_of_ne_zero (fun isRoot => isHead (.inl isRoot))
      obtain ⟨outer, parent, below⟩ := rooted.parent id scope found positive
      obtain ⟨top, isTop, lies, only⟩ := ih outer below (Nat.lt_trans below inside)
      refine ⟨top, isTop, .inner found plain parent lies, ?_⟩
      rintro other isOther (_ | ⟨found', _, parent', around⟩)
      · exact absurd isOther isHead
      · cases found.symm.trans found'
        cases parent.symm.trans parent'
        exact only other isOther around

end

/-! ## The order of entries -/

/-- The entries stand in the order of their numbers, and the next number is larger than all. -/
structure InOrder (tree : ScopeTree) : Prop where
  ascending : tree.log.Pairwise (fun first second => first.seq < second.seq)
  below : ∀ entry ∈ tree.log, entry.seq < tree.nextSeq

theorem InOrder.enter (ordered : tree.InOrder) (id : ScopeId) (event : Event) : (tree.enter id event).InOrder where
  ascending := by
    refine pairwise_append.mpr ⟨ordered.ascending, pairwise_singleton _ _, ?_⟩
    intro entry mem last isLast
    rw [mem_singleton.mp isLast]
    exact ordered.below entry mem
  below := by
    intro entry mem
    rcases mem_append.mp mem with old | new
    · exact Nat.lt_succ_of_lt (ordered.below entry old)
    · rw [mem_singleton.mp new]
      exact Nat.lt_succ_self _

end ScoreScript.ScopeTree
