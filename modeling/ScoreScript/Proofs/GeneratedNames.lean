import ScoreScript.Proofs.Compile.Entry
import ScoreScript.Proofs.Compile.Regular

/-!
# Generated names

Variables that the compiler makes up are entered under generated names into the same tables as those
of a script. A script cannot declare a generated name, so that no other name ever stands for such a
variable. A generated name that a script uses is looked up like any other.
-/

namespace ScoreScript

open Compile

/-- Going outwards from a scope, the first one that binds the name binds it to `id`. -/
inductive ScopeTree.StandsFor (tree : ScopeTree) (name : String) (id : VarId) : ScopeId → Prop where
  | here {place : ScopeId} {scope : Scope} : tree.scopes[place]? = some scope → scope.find? name = some id →
      StandsFor tree name id place
  | outside {place outer : ScopeId} {scope : Scope} : tree.scopes[place]? = some scope → scope.find? name = none →
      scope.parent = some outer → StandsFor tree name id outer → StandsFor tree name id place

theorem ScopeTree.Rooted.standsFor_iff {tree : ScopeTree} (rooted : tree.Rooted) {name : String} {id : VarId}
    {place : ScopeId} : tree.StandsFor name id place ↔ tree.resolve place name = some id := by
  have own {place : ScopeId} {scope : Scope} {id : VarId} (found : tree.scopes[place]? = some scope)
      (bound : scope.find? name = some id) : tree.resolve place name = some id := by
    rw [resolve, ancestry, ancestryUpTo, found]
    cases parent : scope.parent <;> simp [parent, bound]
  constructor
  · intro standsFor
    induction standsFor with
    | here found bound => exact own found bound
    | outside found free parent _ ih =>
      rw [resolve_of_parent rooted found parent (rooted.lt_of_parent found parent), free, ih]
      rfl
  · intro resolved
    induction place using Nat.strongRecOn with
    | ind place ih =>
      cases found : tree.scopes[place]? with
      | none => simp [resolve, ancestry, ancestryUpTo, found] at resolved
      | some scope =>
        cases bound : scope.find? name with
        | some other =>
          cases (own found bound).symm.trans resolved
          exact .here found bound
        | none =>
          cases parent : scope.parent with
          | none => simp [resolve, ancestry, ancestryUpTo, found, parent, bound] at resolved
          | some outer =>
            have below := rooted.lt_of_parent found parent
            rw [resolve_of_parent rooted found parent below, bound] at resolved
            exact .outside found bound parent (ih outer below resolved)

namespace State

variable {s t : State}

theorem Step.name (step : Step s t) {id : Nat} {var : Variable} (found : s.vars[id]? = some var) :
    ∃ later, t.vars[id]? = some later ∧ later.name = var.name := by
  have changed {other : Nat} {change : Variable → Variable} (name : ∀ var, (change var).name = var.name) :
      ∃ later, (s.onVar other change).vars[id]? = some later ∧ later.name = var.name := by
    by_cases same : other = id
    · exact ⟨change var, by rw [vars_onVar, if_pos same, found]; rfl, name var⟩
    · exact ⟨var, by rw [vars_onVar, if_neg same, found], rfl⟩
  cases step with
  | enter => exact ⟨var, var_enterVar_old _ found, rfl⟩
  | member | value | members | constructed => exact changed (fun _ => rfl)
  | move | draw | entry | block | unit | log | claim | count => exact ⟨var, found, rfl⟩

theorem Steps.name (steps : Steps s t) {id : Nat} {var : Variable} (found : s.vars[id]? = some var) :
    ∃ later, t.vars[id]? = some later ∧ later.name = var.name := by
  induction steps with
  | refl => exact ⟨var, found, rfl⟩
  | tail _ step ih =>
    obtain ⟨middle, there, same⟩ := ih
    obtain ⟨later, found', same'⟩ := step.name there
    exact ⟨later, found', same'.trans same⟩

/-- What scripts can and cannot do with generated names in a state. -/
structure HidesGenerated (t : State) : Prop where
  /-- Another name never stands for a variable that got a generated name before. -/
  hidden : ∀ (s u : State) (typeName : String) (usage : Usage) (pos : Position) (id : VarId),
    (anonymous typeName usage pos).runFrom s = (.ok id, u) → Steps u t →
    ∀ (word : String) (place : Position) (v : State), t.config.isGenerated word = false →
      (Engine.named word place).runFrom t ≠ (.ok id, v)
  /-- A generated name cannot be declared, and trying to changes nothing. -/
  refused : ∀ (typeName : String) (access : Access) (usage : Usage) (name : String)
    (pos : Position), t.config.isGenerated name = true →
    ∃ reason, (declare typeName access usage name pos).runFrom t = (.error ⟨.badName name reason, pos⟩, t)
  /-- A name, generated or not, gives what the nearest scope that binds it binds it to, and nothing else. -/
  exactly : ∀ (word : String) (place : Position) (id : VarId) (v : State),
    (Engine.named word place).runFrom t = (.ok id, v) ↔
      v = t ∧ Operator.ofSymbol? word = none ∧ t.scopes.StandsFor word id t.current
  /-- What it stands for is a variable of that name. -/
  named : ∀ (word : String) (id : VarId), t.scopes.StandsFor word id t.current →
    ∃ var, t.vars[id]? = some var ∧ var.name = word
  /-- Only a name that stands for nothing is unknown. -/
  unknown : ∀ (word : String) (place : Position), Operator.ofSymbol? word = none →
    (∀ id, ¬ t.scopes.StandsFor word id t.current) →
    (Engine.named word place).runFrom t = (.error ⟨.unknownName word, place⟩, t)

end State

namespace Compile

variable {s : State}

private theorem checkName_of_isGenerated {config : Config} {name : String} (generated : config.isGenerated name = true)
    (pos : Position) : ∃ reason, checkName config name pos = .error ⟨.badName name reason, pos⟩ := by
  unfold checkName
  dsimp only
  split
  · exact ⟨_, rfl⟩
  split
  · exact ⟨_, rfl⟩
  · exact ⟨_, if_pos generated⟩

theorem runFrom_named {word : String} (isName : Operator.ofSymbol? word = none) (place : Position) :
    (Engine.named word place).runFrom s =
      (match s.resolve word with | some id => .ok id | none => .error ⟨.unknownName word, place⟩, s) := by
  unfold Engine.named
  rw [isName]
  dsimp only [Option.isSome]
  rw [if_neg Bool.false_ne_true, runFrom_bind_ok runFrom_get]
  cases s.resolve word <;> rfl

private theorem runFrom_named_eq_ok {word : String} {place : Position} {id : VarId} {v : State} :
    (Engine.named word place).runFrom s = (.ok id, v) ↔
      v = s ∧ Operator.ofSymbol? word = none ∧ s.resolve word = some id := by
  cases symbol : Operator.ofSymbol? word with
  | some op =>
    have failed : (Engine.named word place).runFrom s = (.error ⟨.operatorAsValue word, place⟩, s) := by
      rw [Engine.named, symbol]
      rfl
    simp [failed]
  | none =>
    rw [runFrom_named symbol]
    cases s.resolve word <;> simp [eq_comm, and_comm]

end Compile

theorem State.Sound.hidesGenerated {t : State} (sound : t.Sound) : t.HidesGenerated where
  hidden := by
    intro s u typeName usage pos id made steps word place v plain ran
    obtain ⟨_, name, _, generated, introduced⟩ :=
      anonymous_leads.of_ran made
    obtain ⟨var, found, _, rfl⟩ := introduced.found
    obtain ⟨later, there, same⟩ := steps.name found
    obtain ⟨_, _, resolved⟩ := runFrom_named_eq_ok.mp ran
    obtain ⟨owner, isOwner, rfl, _⟩ := sound.resolve_found resolved
    rw [there] at isOwner
    cases isOwner
    rw [same, Steps.config steps, introduced.ext.config, generated] at plain
    cases plain
  refused := by
    intro typeName access usage name pos generated
    obtain ⟨reason, failed⟩ := checkName_of_isGenerated generated pos
    refine ⟨reason, ?_⟩
    rw [declare, runFrom_bind_ok runFrom_get]
    exact runFrom_bind_error (by rw [runFrom_lift, failed]) _
  exactly := by
    intro word place id v
    rw [runFrom_named_eq_ok, sound.rooted.standsFor_iff]
    rfl
  named := by
    intro word id standsFor
    obtain ⟨var, found, named, _⟩ := sound.resolve_found (sound.rooted.standsFor_iff.mp standsFor)
    exact ⟨var, found, named⟩
  unknown := by
    intro word place isName nothing
    have free : t.resolve word = none :=
      Option.eq_none_iff_forall_ne_some.mpr (fun id resolved => nothing id (sound.rooted.standsFor_iff.mpr resolved))
    rw [runFrom_named isName, free]

end ScoreScript
