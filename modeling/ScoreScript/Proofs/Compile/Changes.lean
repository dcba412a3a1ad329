import ScoreScript.Proofs.Compile.Ready

/-!
# What a compilation changes

Most steps only add to a state: they make variables and leave those that are there alone. The few
others give a variable its first value, let an objective variable refer to another objective, or
make an objective. `State.Change` lists these, for every state and whether or not the step succeeds;
what becomes of a variable follows from the list.
-/

namespace ScoreScript

open Fault

namespace ScopeTree

/-- Scopes are added at most, and no name is bound. -/
structure Calm (tree later : ScopeTree) : Prop where
  within : tree.Within later
  names : ∀ (id : Nat) (name : String), later.lookup id name = tree.lookup id name
  rooted : tree.Rooted → later.Rooted

namespace Calm

variable {tree later last : ScopeTree}

theorem refl (tree : ScopeTree) : Calm tree tree :=
  ⟨fun _ scope found => ⟨scope, found, rfl, rfl⟩, fun _ _ => rfl, id⟩

theorem trans (first : Calm tree later) (second : Calm later last) : Calm tree last where
  within := by
    intro id scope found
    obtain ⟨scope', found', name, parent⟩ := first.within id scope found
    obtain ⟨scope'', found'', name', parent'⟩ := second.within id scope' found'
    exact ⟨scope'', found'', name'.trans name, parent'.trans parent⟩
  names := fun id name => (second.names id name).trans (first.names id name)
  rooted := fun rooted => second.rooted (first.rooted rooted)

theorem of_scopes (same : later.scopes = tree.scopes) : Calm tree later := by
  obtain ⟨scopes, log, next⟩ := tree
  obtain ⟨_, log', next'⟩ := later
  cases same
  exact ⟨(refl _).within, fun _ _ => rfl, fun rooted => ⟨rooted.root, rooted.parent⟩⟩

theorem modifyScope (tree : ScopeTree) (id : Nat) {change : Scope → Scope}
    (name : ∀ scope, (change scope).name = scope.name) (parent : ∀ scope, (change scope).parent = scope.parent)
    (names : ∀ scope, (change scope).names = scope.names) : Calm tree (tree.modifyScope id change) :=
  ⟨within_modifyScope tree id change name parent, fun i other => lookup_modifyScope tree id i change other names,
    fun rooted => rooted_modifyScope rooted id change name parent⟩

theorem draw (tree : ScopeTree) (id : ScopeId) (name : String) : Calm tree (tree.draw id name) := by
  have modified : Calm tree (tree.modifyScope id (fun scope => { scope with drawn := scope.drawn + 1 })) :=
    .modifyScope tree id (fun _ => rfl) (fun _ => rfl) (fun _ => rfl)
  exact ⟨modified.within, modified.names, fun rooted => rooted_draw rooted id name⟩

theorem addScope {outer : Nat} (inside : outer < tree.size) {added : Scope}
    (parent : added.parent = some outer) (empty : added.names = []) : Calm tree (tree.addScope added) :=
  ⟨within_addScope tree added, fun _ name => lookup_addScope empty name,
    fun rooted => rooted_addScope rooted parent inside⟩

theorem resolve_eq (calm : Calm tree later) (rooted : tree.Rooted) (name : String) {id : Nat}
    (inside : id < tree.size) : later.resolve id name = tree.resolve id name := by
  refine resolve_congr rooted (calm.rooted rooted) name inside (fun i scope _ found => ?_)
  obtain ⟨scope', found', _, same⟩ := calm.within i scope found
  have names := calm.names i name
  rw [lookup, lookup, found, found'] at names
  exact ⟨scope', found', same, names⟩

end Calm

def Edit.IsCalm {α : Type} (edit : Edit α) : Prop :=
  ∀ tree : ScopeTree, Calm tree (edit.run.run tree).2

theorem Edit.IsCalm.bind {α β : Type} {edit : Edit α} {next : α → Edit β} (first : edit.IsCalm)
    (second : ∀ a, (next a).IsCalm) : (edit >>= next).IsCalm := by
  intro tree
  have calm := first tree
  rw [run_bind]
  rcases ran : edit.run.run tree with ⟨fault | a, later⟩
  · rw [ran] at calm
    exact calm
  · rw [ran] at calm
    exact calm.trans (second a later)

theorem Edit.isCalm_of_scope {α : Type} {edit : Edit α} (id : Nat)
    (absent : ∀ tree : ScopeTree, tree.scopes[id]? = none → Calm tree (edit.run.run tree).2)
    (present : ∀ (tree : ScopeTree) (scope : Scope), tree.scopes[id]? = some scope →
      Calm tree (edit.run.run tree).2) : edit.IsCalm := by
  intro tree
  cases found : tree.scopes[id]? with
  | none => exact absent tree found
  | some scope => exact present tree scope found

theorem createChild_isCalm (parent : Nat) (name : String) : (createChild parent name).IsCalm := by
  refine Edit.isCalm_of_scope parent (fun tree absent => ?_) (fun tree scope found => ?_)
  · simp only [createChild, run_bind, run_get, ScopeTree.scope, absent, run_lift]
    exact .refl tree
  · simp only [createChild, run_bind, run_get, ScopeTree.scope, found, run_lift, run_set, run_pure]
    exact .addScope (lt_size_of_getElem? found) rfl rfl

theorem nextAnonymous_isCalm (id : Nat) (start : String) : (nextAnonymous id start).IsCalm := by
  refine Edit.isCalm_of_scope id (fun tree absent => ?_) (fun tree scope found => ?_)
  · simp only [nextAnonymous, run_bind, run_get, ScopeTree.scope, absent, run_lift]
    exact .refl tree
  · simp only [nextAnonymous, run_bind, run_get, ScopeTree.scope, found, run_lift, run_set, run_pure]
    exact .draw tree id _

theorem createChildren_isCalm (parent : Nat) (start : String) (count : Nat) :
    (createChildren parent start count).IsCalm := by
  induction count with
  | zero => exact Calm.refl
  | succ count ih =>
    refine (nextAnonymous_isCalm parent start).bind (fun name => ?_)
    refine (createChild_isCalm parent name).bind (fun child => ?_)
    exact ih.bind (fun _ => Calm.refl)

theorem emit_isCalm (id : Nat) (emission : Emission) : (emit id emission).IsCalm := by
  refine Edit.isCalm_of_scope id (fun tree absent => ?_) (fun tree scope found => ?_)
  · simp only [emit, run_bind, run_get, run_set, ScopeTree.scope, absent, run_lift]
    exact .of_scopes rfl
  · simp only [emit, run_bind, run_get, run_set, ScopeTree.scope, found, run_lift]
    exact .of_scopes rfl

theorem discard_isCalm (top : Nat) : (discard top).IsCalm := by
  refine Edit.isCalm_of_scope top (fun tree absent => ?_) (fun tree scope found => ?_)
  · simp only [discard, run_bind, run_get, ScopeTree.scope, absent, run_lift]
    exact .refl tree
  · simp only [discard, run_bind, run_get, ScopeTree.scope, found, run_lift, run_set]
    exact .of_scopes rfl

end ScopeTree

namespace State

def Plain (s : State) (id : Nat) : Prop :=
  ∃ var, s.vars[id]? = some var ∧ var.constructed = false

theorem IsVar.onVar {s : State} {id other : Nat} {change : Variable → Variable}
    (same : ∀ var, (change var).type = var.type) {type : ValueType} (isVar : s.IsVar type other) :
    (s.onVar id change).IsVar type other := by
  obtain ⟨var, found, isType⟩ := isVar
  rw [IsVar, vars_onVar]
  split
  · exact ⟨change var, by rw [found]; rfl, (same var).trans isType⟩
  · exact ⟨var, found, isType⟩

/-- The variables that are there are left alone. New ones are constructed by nobody, have new
fields, and names are bound to new ones only. -/
structure Extends (s t : State) : Prop where
  config : t.config = s.config
  source : t.source = s.source
  current : t.current = s.current
  objectives : t.objectives = s.objectives
  old : ∀ (id : Nat) (var : Variable), s.vars[id]? = some var → t.vars[id]? = some var
  new : ∀ (id : Nat) (var : Variable), s.vars.size ≤ id → t.vars[id]? = some var →
    var.constructed = false ∧ (s.config.Usable → IsSegment var.name)
  fields : ∀ (id : Nat) (var : Variable) (name : String) (field : Nat), s.vars.size ≤ id →
    t.vars[id]? = some var → var.member? name = some (.field field) →
    s.vars.size ≤ field ∧ t.IsVar .string field
  names : ∀ (scope : Nat) (name : String) (id : Nat), t.scopes.lookup scope name = some id →
    s.scopes.lookup scope name = some id ∨ ∃ var, s.vars.size ≤ id ∧ t.vars[id]? = some var ∧ var.name = name
  kept : ∀ (scope : Nat) (name : String) (id : Nat), s.scopes.lookup scope name = some id →
    t.scopes.lookup scope name = some id
  rooted : s.scopes.Rooted → t.scopes.Rooted

variable {var : Variable} {id : Nat}

namespace Extends

variable {s t u : State}

theorem of_calm (config : t.config = s.config) (src : t.source = s.source)
    (current : t.current = s.current) (objectives : t.objectives = s.objectives)
    (vars : t.vars = s.vars) (calm : s.scopes.Calm t.scopes) : Extends s t where
  config := config
  source := src
  current := current
  objectives := objectives
  old := fun id var found => vars.symm ▸ found
  new := by
    intro id var new found
    rw [vars] at found
    exact absurd (Array.getElem?_eq_some_iff.mp found).1 (Nat.not_lt_of_le new)
  fields := by
    intro id var name field new found
    rw [vars] at found
    exact absurd (Array.getElem?_eq_some_iff.mp found).1 (Nat.not_lt_of_le new)
  names := fun scope name id found => .inl (calm.names scope name ▸ found)
  kept := fun scope name id found => calm.names scope name ▸ found
  rooted := calm.rooted

theorem refl (s : State) : Extends s s :=
  of_calm rfl rfl rfl rfl rfl (.refl _)

theorem move (ext : Extends s t) (scope : ScopeId) : Extends { s with current := scope } { t with current := scope } :=
  { ext with current := rfl }

theorem size_le (ext : Extends s t) : s.vars.size ≤ t.vars.size :=
  ScopeTree.size_le_of_getElem? (fun id var found => ⟨var, ext.old id var found⟩)

theorem isVar (ext : Extends s t) {type : ValueType} (isVar : s.IsVar type id) : t.IsVar type id := by
  obtain ⟨var, found, isType⟩ := isVar
  exact ⟨var, ext.old id var found, isType⟩

theorem cases (ext : Extends s t) (found : t.vars[id]? = some var) : s.vars[id]? = some var ∨ s.vars.size ≤ id := by
  rcases Nat.lt_or_ge id s.vars.size with old | new
  · have there := Array.getElem?_eq_getElem old
    rw [ext.old id _ there] at found
    exact .inl (found ▸ there)
  · exact .inr new

theorem trans (first : Extends s t) (second : Extends t u) : Extends s u where
  config := second.config.trans first.config
  source := second.source.trans first.source
  current := second.current.trans first.current
  objectives := second.objectives.trans first.objectives
  old := fun id var found => second.old id var (first.old id var found)
  new := by
    intro id var new found
    rcases second.cases found with old | newer
    · exact first.new id var new old
    · rw [← first.config]
      exact second.new id var newer found
  fields := by
    intro id var name field new found mem
    rcases second.cases found with old | newer
    · exact (first.fields id var name field new old mem).imp_right second.isVar
    · exact (second.fields id var name field newer found mem).imp_left (Nat.le_trans first.size_le)
  names := by
    intro scope name id found
    rcases second.names scope name id found with before | ⟨var, newer, there, named⟩
    · rcases first.names scope name id before with earlier | ⟨var, new, there, named⟩
      · exact .inl earlier
      · exact .inr ⟨var, new, second.old id var there, named⟩
    · exact .inr ⟨var, Nat.le_trans first.size_le newer, there, named⟩
  kept := fun scope name id found => second.kept scope name id (first.kept scope name id found)
  rooted := fun rooted => second.rooted (first.rooted rooted)

theorem onVar (ext : Extends s t) (new : s.vars.size ≤ id) {change : Variable → Variable}
    (constructed : ∀ var, (change var).constructed = var.constructed)
    (name : ∀ var, (change var).name = var.name) (type : ∀ var, (change var).type = var.type)
    (fields : ∀ (var : Variable) (name : String) (field : Nat), t.vars[id]? = some var →
      (change var).member? name = some (.field field) → s.vars.size ≤ field ∧ t.IsVar .string field) :
    Extends s (t.onVar id change) := by
  refine
    { config := ext.config, source := ext.source, current := ext.current
      objectives := ext.objectives, old := ?old, new := ?new, fields := ?fields, names := ?names
      kept := ext.kept, rooted := ext.rooted }
  case old =>
    intro other var found
    have distinct : id ≠ other :=
      Nat.ne_of_gt (Nat.lt_of_lt_of_le (Array.getElem?_eq_some_iff.mp found).1 new)
    rw [vars_onVar, if_neg distinct]
    exact ext.old other var found
  case new =>
    intro other var newer found
    obtain ⟨before, there, ⟨_, rfl⟩ | ⟨_, rfl⟩⟩ := vars_onVar_elim found
    · exact ext.new other _ newer there
    · rw [constructed, name]
      exact ext.new other _ newer there
  case fields =>
    intro other var mem field newer found isMember
    obtain ⟨before, there, ⟨_, rfl⟩ | ⟨rfl, rfl⟩⟩ := vars_onVar_elim found
    · exact (ext.fields other _ mem field newer there isMember).imp_right (.onVar type)
    · exact (fields before mem field there isMember).imp_right (.onVar type)
  case names =>
    intro scope other var found
    rcases ext.names scope other var found with before | ⟨owner, newer, there, named⟩
    · exact .inl before
    · refine .inr ?_
      by_cases same : id = var
      · exact ⟨change owner, newer, by rw [vars_onVar, if_pos same, there]; rfl,
          (name owner).trans named⟩
      · exact ⟨owner, newer, by rw [vars_onVar, if_neg same, there], named⟩

theorem enterVar (inside : s.current < s.scopes.size) (segment : s.config.Usable → IsSegment var.name)
    (constructed : var.constructed = false) (members : var.members = []) : Extends s (s.enterVar var) where
  config := rfl
  source := rfl
  current := rfl
  objectives := rfl
  old := fun _ _ => var_enterVar_old var
  new := by
    intro id other new found
    rcases var_enterVar_elim found with old | ⟨_, rfl⟩
    · exact absurd (Array.getElem?_eq_some_iff.mp old).1 (Nat.not_lt_of_le new)
    · exact ⟨constructed, segment⟩
  fields := by
    intro id other name field new found mem
    rcases var_enterVar_elim found with old | ⟨_, rfl⟩
    · exact absurd (Array.getElem?_eq_some_iff.mp old).1 (Nat.not_lt_of_le new)
    · simp [Variable.member?, members] at mem
  names := by
    intro scope name id found
    refine (lookup_enterVar_elim inside found).imp_right ?_
    rintro ⟨_, rfl, rfl⟩
    exact ⟨var, Nat.le_refl _, var_enterVar_new s var, rfl⟩
  kept := fun _ _ _ => lookup_enterVar_old inside
  rooted := rooted_enterVar

end Extends

/-! ## Changes -/

structure Mode where
  /-- Constructed variables go on referring to what they were constructed for. -/
  faithful : Prop
  /-- Because of a fault, an objective can be in use that no variable was constructed for. -/
  broken : Prop

def Mode.sure (mode : Mode) : Mode :=
  { mode with broken := False }

def refresh (s : State) (owner : Variable) (criterion : String) : State :=
  match owner.member? Compile.criterionField with
  | some (.field field) => s.onVar field (fun var => { var with value := .text criterion })
  | _ => s

theorem refresh_of_field {owner : Variable} {field : Nat}
    (mem : owner.member? Compile.criterionField = some (.field field)) (s : State) (criterion : String) :
    s.refresh owner criterion = s.onVar field (fun var => { var with value := .text criterion }) := by
  rw [refresh, mem]

theorem refresh_of_not_field {owner : Variable}
    (absent : ∀ field, owner.member? Compile.criterionField ≠ some (.field field)) (s : State)
    (criterion : String) : s.refresh owner criterion = s := by
  unfold refresh
  split
  · next field mem => exact absurd mem (absent field)
  · rfl

theorem vars_refresh {s : State} (found : s.vars[id]? = some var) (owner : Variable) (criterion : String) :
    ∃ value, (s.refresh owner criterion).vars[id]? = some { var with value } ∧
      (value = var.value ∨ owner.member? Compile.criterionField = some (.field id) ∧ value = .text criterion) := by
  unfold refresh
  split
  · next field mem =>
      rw [vars_onVar]
      by_cases same : field = id
      · exact ⟨.text criterion, by rw [if_pos same, found]; rfl, .inr ⟨same ▸ mem, rfl⟩⟩
      · exact ⟨var.value, by rw [if_neg same, found], .inl rfl⟩
  · exact ⟨var.value, found, .inl rfl⟩

theorem Extends.refresh {s t : State} (ext : Extends s t) (new : s.vars.size ≤ id) {owner : Variable}
    (found : t.vars[id]? = some owner) (criterion : String) : Extends s (t.refresh owner criterion) := by
  unfold State.refresh
  split
  · next field mem =>
      obtain ⟨newer, _⟩ := ext.fields id owner _ field new found mem
      exact ext.onVar newer (fun _ => rfl) (fun _ => rfl) (fun _ => rfl)
        (fun var name other there => ext.fields field var name other newer there)
  · exact ext

section

variable (s : State) (owner : Variable) (criterion : String)
include s owner criterion

private theorem vars_size_refresh : (s.refresh owner criterion).vars.size = s.vars.size := by
  unfold refresh
  split
  · exact Array.size_modify
  · rfl

private theorem current_refresh : (s.refresh owner criterion).current = s.current := by
  unfold refresh
  split <;> rfl

theorem scopes_refresh : (s.refresh owner criterion).scopes = s.scopes := by
  unfold refresh
  split <;> rfl

private theorem refresh_move (scope : ScopeId) :
    { s.refresh owner criterion with current := scope } =
      ({ s with current := scope } : State).refresh owner criterion := by
  unfold refresh
  split <;> rfl

end

inductive Change (mode : Mode) : State → State → Prop where
  | extend {s t : State} (ext : Extends s t) : Change mode s t
  | bind {s : State} {id : Nat} {var : Variable} {value : Value} (found : s.vars[id]? = some var)
      (unset : var.value = .unset) : Change mode s (s.onVar id (fun var => { var with value }))
  /-- An objective variable refers to an objective, and its criterion is brought up to date. -/
  | refer {s : State} {id : Nat} {owner : Variable} {objective criterion : String}
      (found : s.vars[id]? = some owner) (type : owner.type = .objective)
      (free : owner.usage = .constant → owner.value = .unset)
      (plain : mode.faithful → owner.constructed = false)
      (field : mode.faithful → ∀ field, owner.member? Compile.criterionField = some (.field field) → s.Plain field) :
      Change mode s ((s.refresh owner criterion).onVar id
        (fun var => { var with value := .objective objective criterion }))
  /-- An objective is made, and a new variable refers to it. -/
  | make {s t : State} {id : Nat} {var : Variable} {objective criterion : String}
      (ext : Extends { s with objectives := s.objectives ++ [objective] } t)
      (new : s.vars.size ≤ id) (found : t.vars[id]? = some var) (type : var.type = .objective)
      (generated : s.config.isGenerated var.name = true)
      (value : var.value = .objective objective criterion) :
      Change mode s (t.onVar id (fun var => { var with constructed := true }))
  | claim {s : State} {objective : String} (broken : mode.broken) :
      Change mode s { s with objectives := s.objectives ++ [objective] }

def Changes (mode : Mode) : State → State → Prop :=
  Relation.ReflTransGen (Change mode)

/-- The variable is the criterion field of an objective variable. -/
def HoldsCriterion (s : State) (id : Nat) : Prop :=
  ∃ (other : Nat) (owner : Variable), s.vars[other]? = some owner ∧ owner.type = .objective ∧
    owner.member? Compile.criterionField = some (.field id)

/-- What a variable can hold later, in a state `t`. -/
inductive Rebound (mode : Mode) (s t : State) (id : Nat) (var : Variable) : Value → Prop where
  | kept : Rebound mode s t id var var.value
  | bound {value : Value} (unset : var.value = .unset) : Rebound mode s t id var value
  | referred {objective criterion : String} (type : var.type = .objective)
      (free : var.usage ≠ .constant) (plain : mode.faithful → var.constructed = false) :
      Rebound mode s t id var (.objective objective criterion)
  | refreshed {other : Nat} {owner : Variable} {criterion : String}
      (found : s.vars[other]? = some owner) (type : owner.type = .objective)
      (free : owner.usage = .constant → owner.value = .unset)
      (mem : owner.member? Compile.criterionField = some (.field id))
      (plain : mode.faithful → var.constructed = false)
      (refers : s.HoldsCriterion other ∨ ∃ objective text,
        t.vars[other]? = some { owner with value := .objective objective text }) :
      Rebound mode s t id var (.text criterion)

theorem Rebound.unset {mode : Mode} {s t : State} {value : Value}
    (rebound : Rebound mode s t id var value) (later : value = .unset) : var.value = .unset := by
  cases rebound with
  | kept => exact later
  | bound unset => exact unset
  | referred | refreshed => cases later

/-- The state later has every variable, which differs in its value at most. -/
structure Retains (mode : Mode) (s t : State) : Prop where
  config : t.config = s.config
  vars : ∀ (id : Nat) (var : Variable), s.vars[id]? = some var →
    ∃ value, t.vars[id]? = some { var with value } ∧ Rebound mode s t id var value
  fields : ∀ (id : Nat) (var : Variable) (name : String) (field : Nat), s.vars.size ≤ id →
    t.vars[id]? = some var → var.member? name = some (.field field) → s.vars.size ≤ field

namespace Retains

variable {mode : Mode} {s t u : State}

theorem refl (mode : Mode) (s : State) : Retains mode s s where
  config := rfl
  vars := fun _ var found => ⟨var.value, found, .kept⟩
  fields := fun _ _ _ _ new found =>
    absurd (Array.getElem?_eq_some_iff.mp found).1 (Nat.not_lt_of_le new)

theorem size_le (retains : Retains mode s t) : s.vars.size ≤ t.vars.size := by
  refine ScopeTree.size_le_of_getElem? (fun id var found => ?_)
  obtain ⟨_, there, _⟩ := retains.vars id var found
  exact ⟨_, there⟩

theorem before (retains : Retains mode s t) (old : id < s.vars.size) {later : Variable}
    (found : t.vars[id]? = some later) :
    ∃ var, s.vars[id]? = some var ∧ later = { var with value := later.value } ∧ Rebound mode s t id var later.value := by
  have there := Array.getElem?_eq_getElem old
  obtain ⟨value, found', rebound⟩ := retains.vars id _ there
  rw [found] at found'
  cases found'
  exact ⟨_, there, rfl, rebound⟩

theorem holdsCriterion (retains : Retains mode s t) (old : id < s.vars.size) (holds : t.HoldsCriterion id) : s.HoldsCriterion id := by
  obtain ⟨other, owner, found, type, mem⟩ := holds
  rcases Nat.lt_or_ge other s.vars.size with earlier | later
  · obtain ⟨owner', found', same, _⟩ := retains.before earlier found
    rw [same] at type mem
    exact ⟨other, owner', found', type, mem⟩
  · exact absurd old (Nat.not_lt_of_le (retains.fields other owner _ id later found mem))

/-- What refers to an objective goes on doing so, unless it is a field. -/
theorem refers (retains : Retains mode s t) {objective text : String}
    (found : s.vars[id]? = some { var with value := .objective objective text }) : s.HoldsCriterion id ∨
      ∃ objective text, t.vars[id]? = some { var with value := .objective objective text } := by
  obtain ⟨value, there, rebound⟩ := retains.vars id _ found
  cases rebound with
  | kept => exact .inr ⟨_, _, there⟩
  | bound unset => cases unset
  | referred => exact .inr ⟨_, _, there⟩
  | refreshed found type _ mem => exact .inl ⟨_, _, found, type, mem⟩

theorem trans (first : Retains mode s t) (second : Retains mode t u) : Retains mode s u where
  config := second.config.trans first.config
  vars := by
    intro id var found
    have old := (Array.getElem?_eq_some_iff.mp found).1
    obtain ⟨value, there, rebound⟩ := first.vars id var found
    obtain ⟨last, found', rebound'⟩ := second.vars id _ there
    refine ⟨last, found', ?_⟩
    cases rebound' with
    | kept =>
      cases rebound with
      | kept => exact .kept
      | bound unset => exact .bound unset
      | referred type free plain => exact .referred type free plain
      | refreshed isOwner type free mem plain refers =>
        refine .refreshed isOwner type free mem plain (refers.elim .inl ?_)
        rintro ⟨objective, text, refers⟩
        exact (second.refers refers).imp_left (first.holdsCriterion (Array.getElem?_eq_some_iff.mp isOwner).1)
    | bound unset => exact .bound (rebound.unset unset)
    | referred type free plain => exact .referred type free plain
    | @refreshed other owner criterion isOwner type free mem plain refers =>
      rcases Nat.lt_or_ge other s.vars.size with earlier | later
      · obtain ⟨owner', isOwner', same, rebound'⟩ := first.before earlier isOwner
        rw [same] at type free mem refers
        exact .refreshed isOwner' type (fun constant => rebound'.unset (free constant)) mem
          plain (refers.imp_left (first.holdsCriterion earlier))
      · exact absurd old (Nat.not_lt_of_le (first.fields other owner _ id later isOwner mem))
  fields := by
    intro id var name field new found mem
    rcases Nat.lt_or_ge id t.vars.size with earlier | later
    · obtain ⟨owner, isOwner, same, _⟩ := second.before earlier found
      rw [same] at mem
      exact first.fields id owner name field new isOwner mem
    · exact Nat.le_trans first.size_le (second.fields id var name field later found mem)

theorem onValue {value : Value} (rebound : ∀ var, s.vars[id]? = some var →
      Rebound mode s (s.onVar id (fun var => { var with value })) id var value) :
    Retains mode s (s.onVar id (fun var => { var with value })) where
  config := rfl
  vars := by
    intro other var found
    by_cases same : id = other
    · subst same
      refine ⟨value, ?_, rebound var found⟩
      rw [vars_onVar, if_pos rfl, found]
      rfl
    · refine ⟨var.value, ?_, .kept⟩
      rw [vars_onVar, if_neg same, found]
  fields := by
    intro other var name field new found
    obtain ⟨before, there, _⟩ := vars_onVar_elim found
    exact absurd (Array.getElem?_eq_some_iff.mp there).1 (Nat.not_lt_of_le new)

end Retains

section Change

variable {mode : Mode} {s t : State}

theorem Change.retains (change : Change mode s t) : Retains mode s t := by
  cases change with
  | extend ext =>
    exact ⟨ext.config, fun id var found => ⟨var.value, ext.old id var found, .kept⟩,
      fun id var name field new found mem => (ext.fields id var name field new found mem).1⟩
  | bind found unset =>
    refine .onValue (fun var found' => ?_)
    rw [found] at found'
    cases found'
    exact .bound unset
  | @refer id owner objective criterion found type free plain field =>
    refine ⟨?config, fun other var found' => ?vars, fun other var name _ new found' => ?fields⟩
    case config =>
      unfold refresh
      split <;> rfl
    case vars =>
      obtain ⟨value, there, isValue⟩ := vars_refresh found' owner criterion
      rw [vars_onVar, there]
      by_cases same : id = other
      · subst same
        rw [found] at found'
        cases found'
        refine ⟨_, if_pos rfl, ?_⟩
        by_cases constant : owner.usage = .constant
        · exact .bound (free constant)
        · exact .referred type constant plain
      · refine ⟨value, if_neg same, ?_⟩
        rcases isValue with rfl | ⟨mem, rfl⟩
        · exact .kept
        · refine .refreshed found type free mem (fun faithful => ?_) (.inr ⟨objective, criterion, ?_⟩)
          · obtain ⟨_, there', isPlain⟩ := field faithful other mem
            rw [found'] at there'
            cases there'
            exact isPlain
          · obtain ⟨_, isOwner, _⟩ := vars_refresh found owner criterion
            rw [vars_onVar, if_pos rfl, isOwner]
            rfl
    case fields =>
      have inside := (Array.getElem?_eq_some_iff.mp found').1
      rw [show ((s.refresh owner criterion).onVar id _).vars.size =
        (s.refresh owner criterion).vars.size from Array.size_modify, vars_size_refresh] at inside
      exact absurd inside (Nat.not_lt_of_le new)
  | @make t id var objective criterion ext new found type generated value =>
    refine ⟨ext.config, fun other var found' => ?_, fun other var name field newer found' mem => ?_⟩
    · have distinct : id ≠ other :=
        Nat.ne_of_gt (Nat.lt_of_lt_of_le (Array.getElem?_eq_some_iff.mp found').1 new)
      refine ⟨var.value, ?_, .kept⟩
      rw [vars_onVar, if_neg distinct]
      exact ext.old other var found'
    · obtain ⟨before, there, ⟨_, rfl⟩ | ⟨_, rfl⟩⟩ := vars_onVar_elim found'
      · exact (ext.fields other _ name field newer there mem).1
      · exact (ext.fields other _ name field newer there mem).1
  | claim broken =>
    exact ⟨rfl, fun id var found => ⟨var.value, found, .kept⟩, (Retains.refl mode s).fields⟩

theorem Changes.retains (changes : Changes mode s t) : Retains mode s t := by
  induction changes with
  | refl => exact .refl mode s
  | tail _ change ih => exact ih.trans change.retains

theorem Change.current (change : Change mode s t) : t.current = s.current := by
  cases change with
  | extend ext => exact ext.current
  | bind => rfl
  | refer => exact current_refresh s _ _
  | make ext => exact ext.current
  | claim => rfl

theorem Change.source (change : Change mode s t) : t.source = s.source := by
  cases change with
  | extend ext => exact ext.source
  | bind => rfl
  | @refer _ owner _ criterion =>
    change (s.refresh owner criterion).source = s.source
    unfold refresh
    split <;> rfl
  | make ext => exact ext.source
  | claim => rfl

theorem Changes.layout (changes : Changes mode s t) : t.layout = s.layout := by
  induction changes with
  | refl => rfl
  | tail _ change ih =>
    rw [← ih, State.layout, State.layout, change.source, change.retains.config]

theorem Changes.current (changes : Changes mode s t) : t.current = s.current := by
  induction changes with
  | refl => rfl
  | tail _ change ih => exact change.current.trans ih

theorem Change.kept (change : Change mode s t) {scope : Nat} {name : String}
    (found : s.scopes.lookup scope name = some id) : t.scopes.lookup scope name = some id := by
  cases change with
  | extend ext => exact ext.kept scope name id found
  | bind => exact found
  | @refer _ owner _ criterion =>
    exact (scopes_refresh s owner criterion).symm ▸ found
  | make ext => exact ext.kept scope name id found
  | claim => exact found

theorem Changes.kept (changes : Changes mode s t) {scope : Nat} {name : String}
    (found : s.scopes.lookup scope name = some id) : t.scopes.lookup scope name = some id := by
  induction changes with
  | refl => exact found
  | tail _ change ih => exact change.kept ih

theorem Change.move (change : Change mode s t) (scope : ScopeId) :
    Change mode { s with current := scope } { t with current := scope } := by
  cases change with
  | extend ext => exact .extend (ext.move scope)
  | bind found unset => exact .bind found unset
  | @refer id owner objective criterion found type free plain field =>
    have moved : Change mode { s with current := scope }
        ((({ s with current := scope } : State).refresh owner criterion).onVar id
          (fun var => { var with value := .objective objective criterion })) :=
      .refer found type free plain field
    rwa [← refresh_move] at moved
  | @make t id var objective criterion ext new found type generated value =>
    have moved : Extends { ({ s with current := scope } : State) with
        objectives := s.objectives ++ [objective] } { t with current := scope } := ext.move scope
    exact .make moved new found type generated value
  | claim broken => exact .claim broken

theorem Changes.move (changes : Changes mode s t) (scope : ScopeId) :
    Changes mode { s with current := scope } { t with current := scope } := by
  induction changes with
  | refl => exact .refl
  | tail _ change ih => exact ih.tail (change.move scope)

theorem Changes.plain (changes : Changes mode s t) (plain : s.Plain id) : t.Plain id := by
  obtain ⟨var, found, isPlain⟩ := plain
  obtain ⟨value, there, _⟩ := changes.retains.vars id var found
  exact ⟨_, there, isPlain⟩

end Change

/-! ## Names and constructed variables -/

/-- Names are segments and stand for variables of that name, and only variables with generated names
are constructed, which refer to an objective. -/
structure Tidy (s : State) : Prop where
  usable : s.config.Usable
  rooted : s.scopes.Rooted
  named : ∀ (id : Nat) (var : Variable), s.vars[id]? = some var → IsSegment var.name
  bound : ∀ (scope : Nat) (name : String) (id : Nat), s.scopes.lookup scope name = some id →
    ∃ var, s.vars[id]? = some var ∧ var.name = name
  made : ∀ (id : Nat) (var : Variable), s.vars[id]? = some var → var.constructed = true →
    var.type = .objective ∧ s.config.isGenerated var.name = true ∧
      ∃ objective criterion, var.value = .objective objective criterion
  fields : ∀ (id : Nat) (var : Variable) (name : String) (field : Nat), s.vars[id]? = some var →
    var.member? name = some (.field field) → s.IsVar .string field

namespace Tidy

variable {mode : Mode} {s t : State}

theorem extend (tidy : s.Tidy) (ext : Extends s t) : t.Tidy where
  usable := ext.config.symm ▸ tidy.usable
  rooted := ext.rooted tidy.rooted
  named := by
    intro id var found
    rcases ext.cases found with old | new
    · exact tidy.named id var old
    · exact (ext.new id var new found).2 tidy.usable
  bound := by
    intro scope name id found
    rcases ext.names scope name id found with before | ⟨var, _, there, named⟩
    · obtain ⟨var, there, named⟩ := tidy.bound scope name id before
      exact ⟨var, ext.old id var there, named⟩
    · exact ⟨var, there, named⟩
  made := by
    intro id var found constructed
    rw [ext.config]
    rcases ext.cases found with old | new
    · exact tidy.made id var old constructed
    · rw [(ext.new id var new found).1] at constructed
      cases constructed
  fields := by
    intro id var name field found mem
    rcases ext.cases found with old | new
    · exact ext.isVar (tidy.fields id var name field old mem)
    · exact (ext.fields id var name field new found mem).2

theorem move (tidy : s.Tidy) (scope : ScopeId) : ({ s with current := scope } : State).Tidy :=
  ⟨tidy.usable, tidy.rooted, tidy.named, tidy.bound, tidy.made, tidy.fields⟩

theorem onValue (tidy : s.Tidy) (plain : s.Plain id) (value : Value) :
    (s.onVar id (fun var => { var with value })).Tidy where
  usable := tidy.usable
  rooted := tidy.rooted
  named := by
    intro other var found
    obtain ⟨before, there, ⟨_, rfl⟩ | ⟨_, rfl⟩⟩ := vars_onVar_elim found
    · exact tidy.named other _ there
    · exact tidy.named other before there
  bound := by
    intro scope name other found
    obtain ⟨var, there, named⟩ := tidy.bound scope name other found
    by_cases same : id = other
    · exact ⟨{ var with value }, by rw [vars_onVar, if_pos same, there]; rfl, named⟩
    · exact ⟨var, by rw [vars_onVar, if_neg same, there], named⟩
  made := by
    intro other var found constructed
    obtain ⟨before, there, ⟨_, rfl⟩ | ⟨rfl, rfl⟩⟩ := vars_onVar_elim found
    · exact tidy.made other _ there constructed
    · obtain ⟨_, there', isPlain⟩ := plain
      rw [there] at there'
      cases there'
      rw [show before.constructed = true from constructed] at isPlain
      cases isPlain
  fields := by
    intro other var name field found mem
    refine .onVar (by exact fun _ => rfl) ?_
    obtain ⟨before, there, ⟨_, rfl⟩ | ⟨_, rfl⟩⟩ := vars_onVar_elim found
    · exact tidy.fields other _ name field there mem
    · exact tidy.fields other _ name field there mem

theorem plain_of_unset (tidy : s.Tidy) (found : s.vars[id]? = some var) (unset : var.value = .unset) : s.Plain id := by
  refine ⟨var, found, Bool.eq_false_iff.mpr (fun constructed => ?_)⟩
  obtain ⟨_, _, objective, criterion, value⟩ := tidy.made id var found constructed
  rw [unset] at value
  cases value

theorem plain_of_type (tidy : s.Tidy) (found : s.vars[id]? = some var) (type : var.type ≠ .objective) : s.Plain id :=
  ⟨var, found, Bool.eq_false_iff.mpr (fun constructed => type (tidy.made id var found constructed).1)⟩

theorem plain_field (tidy : s.Tidy) {name : String} {field : Nat} (found : s.vars[id]? = some var)
    (mem : var.member? name = some (.field field)) : s.Plain field := by
  obtain ⟨_, isText, type⟩ := tidy.fields id var name field found mem
  exact tidy.plain_of_type isText (by rw [type]; decide)

theorem change (tidy : s.Tidy) (faithful : mode.faithful) (change : Change mode s t) : t.Tidy := by
  cases change with
  | extend ext => exact tidy.extend ext
  | bind found unset => exact tidy.onValue (tidy.plain_of_unset found unset) _
  | @refer id owner objective criterion found type free plain field =>
    have refreshed : (s.refresh owner criterion).Tidy := by
      unfold refresh
      split
      · next other mem => exact tidy.onValue (field faithful other mem) _
      · exact tidy
    obtain ⟨value, there, _⟩ := vars_refresh found owner criterion
    exact refreshed.onValue ⟨_, there, plain faithful⟩ _
  | @make t id var objective criterion ext new found type generated value =>
    have claimed : ({ s with objectives := s.objectives ++ [objective] } : State).Tidy :=
      ⟨tidy.usable, tidy.rooted, tidy.named, tidy.bound, tidy.made, tidy.fields⟩
    have before := claimed.extend ext
    refine ⟨before.usable, before.rooted, ?named, ?bound, ?made, ?fields⟩
    case named =>
      intro other owner found'
      obtain ⟨first, there, ⟨_, rfl⟩ | ⟨_, rfl⟩⟩ := vars_onVar_elim found'
      · exact before.named other _ there
      · exact before.named other first there
    case bound =>
      intro scope name other found'
      obtain ⟨owner, there, named⟩ := before.bound scope name other found'
      by_cases same : id = other
      · exact ⟨{ owner with constructed := true }, by rw [vars_onVar, if_pos same, there]; rfl,
          named⟩
      · exact ⟨owner, by rw [vars_onVar, if_neg same, there], named⟩
    case made =>
      intro other owner found' constructed
      obtain ⟨first, there, ⟨_, rfl⟩ | ⟨rfl, rfl⟩⟩ := vars_onVar_elim found'
      · exact before.made other _ there constructed
      · rw [found] at there
        cases there
        refine ⟨type, ?_, objective, criterion, value⟩
        show t.config.isGenerated var.name = true
        rw [ext.config]
        exact generated
    case fields =>
      intro other owner name field found' mem
      refine .onVar (by exact fun _ => rfl) ?_
      obtain ⟨first, there, ⟨_, rfl⟩ | ⟨_, rfl⟩⟩ := vars_onVar_elim found'
      · exact before.fields other _ name field there mem
      · exact before.fields other _ name field there mem
  | claim => exact ⟨tidy.usable, tidy.rooted, tidy.named, tidy.bound, tidy.made, tidy.fields⟩

theorem changes (tidy : s.Tidy) (faithful : mode.faithful) (changes : Changes mode s t) : t.Tidy := by
  induction changes with
  | refl => exact tidy
  | tail _ change ih => exact ih.change faithful change

end Tidy

end State

end ScoreScript
