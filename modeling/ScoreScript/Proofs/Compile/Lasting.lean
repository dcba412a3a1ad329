import ScoreScript.Proofs.Compile.Effects
import ScoreScript.Proofs.Compile.Exchange

/-!
# What no operation undoes

A property of states lasts when no change that the compiler makes undoes it: a scope goes on
counting or is added, a variable is entered, an unset one gets its value. `State.Lasting` lists
these changes with what the compiler has checked by then; on strict terms it also lists what is known of
the parts of commands. A property that lasts is kept by every step, whether or not the step
succeeds, and in whatever state it starts. Most properties are steady: no part of such a change undoes
them either.
-/

namespace ScoreScript

open List

open Fault ScopeTree

namespace ScopeTree

def declarationsOf (tree : ScopeTree) (id : VarId) : List Entry :=
  tree.log.filter (fun entry => entry.event = .declared id)

theorem mem_declarationsOf {tree : ScopeTree} {id : VarId} {entry : Entry} :
    entry ∈ tree.declarationsOf id ↔ entry ∈ tree.log ∧ entry.event = .declared id := by
  simp [declarationsOf]

end ScopeTree

variable {s : State}

namespace State

/-- Settings, scopes and variables stay the same, and at most commands are entered, or dropped. -/
structure Beside (strict : Prop) (s t : State) : Prop where
  config : t.config = s.config
  scopes : t.scopes.scopes = s.scopes.scopes
  vars : t.vars = s.vars
  declared : ∀ id : VarId, t.scopes.declarationsOf id = s.scopes.declarationsOf id
  placed : ∀ entry ∈ t.scopes.log, entry ∈ s.scopes.log ∨ entry.scope < s.scopes.size
  entered : strict → ∀ entry ∈ t.scopes.log, entry ∈ s.scopes.log ∨
    ∀ emission, entry.event = .emitted emission → ∀ phase, Command.AllFit (emission.commands phase)

theorem Beside.of_same {strict : Prop} {t : State} (config : t.config = s.config)
    (scopes : t.scopes = s.scopes) (vars : t.vars = s.vars) : Beside strict s t where
  config := config
  scopes := congrArg _ scopes
  vars := vars
  declared := fun _ => by rw [scopes]
  placed := fun _ mem => .inl (scopes ▸ mem)
  entered := fun _ _ mem => .inl (scopes ▸ mem)

/-- Objectives stay in use, and a number is passed over only if its identifier is in use or no proper
one. -/
structure Claims (s t : State) : Prop where
  kept : s.objectives ⊆ t.objectives
  passed : ∀ n < t.nextObjective, n < s.nextObjective ∨ Compile.objectiveId s.config.nameSpace n ∈ t.objectives ∨
      Compile.isObjectiveId (Compile.objectiveId s.config.nameSpace n) = false

theorem Claims.of_same {t : State} (objectives : t.objectives = s.objectives)
    (next : t.nextObjective = s.nextObjective) : Claims s t where
  kept := by rw [objectives]; exact List.Subset.refl _
  passed := fun _ below => .inl (next ▸ below)

/-- Changes of scopes, and such of variables that leave their values. -/
structure Enduring (strict : Prop) (holds : State → Prop) : Prop where
  lines : strict → ∀ {s : State}, holds s → s.FitsLines
  scope : ∀ {s : State} (id : Nat) {change : Scope → Scope}, (∀ scope, (change scope).name = scope.name ∧
    (change scope).parent = scope.parent ∧ (change scope).isUnit = scope.isUnit ∧ (change scope).names = scope.names) →
    holds s → holds { s with scopes := s.scopes.modifyScope id change }
  nest : ∀ {s : State} {added : Scope} {outer : Nat}, added.parent = some outer →
    outer < s.scopes.size → added.isUnit = false → added.names = [] → (strict → IsLine added.name) →
    holds s → holds { s with scopes := s.scopes.addScope added }
  /-- The scope of the whole script becomes a unit, or one with a generated name. -/
  unit : ∀ {s : State} {id : Nat} {scope : Scope}, s.scopes.scopes[id]? = some scope →
    scope.parent = some ScopeTree.root ∨ (∃ n, scope.name = s.config.generatedName n) → holds s →
    holds { s with scopes := s.scopes.modifyScope id (fun scope => { scope with isUnit := true }) }
  /-- A variable gets a scope for its members, or is the result of a constructor. -/
  detail : ∀ {s : State} (id : Nat) {change : Variable → Variable}, (∀ var,
    (change var).usage = var.usage ∧ (change var).value = var.value ∧
      (change var).members = var.members ∧ (change var).name = var.name ∧
        (change var).scope = var.scope ∧ (change var).type = var.type) →
    holds s → holds (s.onVar id change)

/-- The property withstands every part of a change. -/
structure Steady (strict : Prop) (holds : State → Prop) : Prop extends Enduring strict holds where
  aside : ∀ {s t : State}, holds s → Beside strict s t → holds t
  enter : ∀ {s : State} (type : ValueType) (access : Access) (usage : Usage) {name : String}
    (pos : Position), s.current < s.scopes.size → s.scopes.lookup s.current name = none →
    (strict → IsUnquoted name) → holds s →
    holds (s.enterVar { type, access, usage, name, scope := s.current, position := pos })
  /-- A variable gets a value, a constant only if it has none. -/
  value : ∀ {s : State} {id : Nat} {var : Variable} {value : Value}, s.vars[id]? = some var →
    (var.usage = .constant → var.value = .unset) → (strict → value.FitsLine) → holds s →
    holds (s.onVar id (fun var => { var with value }))
  /-- A variable refers to an objective, whose criterion is put into its field. -/
  refer : ∀ {s : State} {id : Nat} {owner : Variable} {objective : String} (criterion : String),
    s.vars[id]? = some owner → (owner.usage = .constant → owner.value = .unset) →
    (strict → IsLine objective) → holds s →
    holds ((s.refresh owner criterion).onVar id (fun var => { var with value := .objective objective criterion }))
  /-- An objective gets its members, among them a field that is no constant. -/
  members : ∀ {s : State} (id : Nat) {criterion : Nat} {var : Variable},
    s.vars[criterion]? = some var → var.usage ≠ .constant → holds s →
    holds (s.onVar id (fun owner => { owner with members := Compile.objectiveMembers criterion }))

/-- The property withstands every change as a whole. -/
structure Lasting (strict : Prop) (holds : State → Prop) : Prop extends Enduring strict holds where
  aside : ∀ {s t : State}, holds s → Beside strict s t → s.Claims t → holds t
  enter : ∀ {s : State} {type : ValueType} (access : Access) (usage : Usage) {name : String}
    (pos : Position), type ≠ .objective → s.current < s.scopes.size →
    s.scopes.lookup s.current name = none → (strict → IsUnquoted name) → holds s →
    holds (s.enterVar { type, access, usage, name, scope := s.current, position := pos })
  /-- An objective is entered together with its members. -/
  object : ∀ {s : State} {outer : Scope} (access : Access) (usage : Usage) {name : String}
    (pos : Position), s.current < s.scopes.size → s.scopes.lookup s.current name = none →
    (strict → IsUnquoted name) → holds s → holds (Compile.withObjective s outer
      { type := .objective, access, usage, name, scope := s.current, position := pos })
  /-- A variable that holds no text gets a value, a constant only if it has none. -/
  value : ∀ {s : State} {id : Nat} {var : Variable} {value : Value}, s.vars[id]? = some var →
    (var.usage = .constant → var.value = .unset) → (∀ text, var.value ≠ .text text) →
    (∀ objective criterion, value ≠ .objective objective criterion) → (strict → value.FitsLine) →
    holds s → holds (s.onVar id (fun var => { var with value }))
  refer : ∀ {s : State} {id : Nat} {owner : Variable} {objective : String} (criterion : String),
    s.vars[id]? = some owner → owner.type = .objective →
    (owner.usage = .constant → owner.value = .unset) → (strict → IsLine objective) → holds s →
    holds ((s.refresh owner criterion).onVar id (fun var => { var with value := .objective objective criterion }))

theorem Lasting.move {strict : Prop} {holds : State → Prop} (lasting : Lasting strict holds)
    (scope : ScopeId) (before : holds s) : holds { s with current := scope } :=
  lasting.aside before (.of_same rfl rfl rfl) (.of_same rfl rfl)

theorem Lasting.draw {strict : Prop} {holds : State → Prop} (lasting : Lasting strict holds) (id : ScopeId)
    (name : String) (before : holds s) : holds { s with scopes := s.scopes.draw id name } := by
  have counted : holds { s with scopes := s.scopes.modifyScope id (fun scope => { scope with drawn := scope.drawn + 1 }) } :=
    lasting.scope id (fun _ => ⟨rfl, rfl, rfl, rfl⟩) before
  exact lasting.aside counted ⟨rfl, rfl, rfl, fun _ => rfl, fun _ => .inl, fun _ _ => .inl⟩ (.of_same rfl rfl)

theorem Steady.lasting {strict : Prop} {holds : State → Prop} (steady : Steady strict holds) :
    Lasting strict holds where
  toEnduring := steady.toEnduring
  aside := fun before beside _ => steady.aside before beside
  enter := fun access usage _ pos _ => steady.enter _ access usage pos
  object := by
    intro s outer access usage name pos inside free plain before
    let var : Variable := { type := .objective, access, usage, name, scope := s.current, position := pos }
    have entered : holds (s.enterVar var) := steady.enter _ _ _ _ inside free plain before
    have around : s.current < (s.enterVar var).scopes.size := by rwa [scopes_size_enterVar]
    let nested := Compile.withInner (s.enterVar var) s.vars.size var outer
    have nests : holds nested := steady.detail s.vars.size (fun _ => ⟨rfl, rfl, rfl, rfl, rfl, rfl⟩)
      (steady.nest rfl around rfl rfl (fun isStrict => (plain isStrict).1) entered)
    let inside : State := { nested with current := (s.enterVar var).scopes.size }
    have made : inside.scopes.scopes[inside.current]? = some
        { name, parent := some s.current, drawn := outer.drawn } := ScopeTree.getElem?_addScope_size _ _
    have field : holds (inside.enterVar (Compile.criterionVar inside.current pos)) :=
      steady.enter .string .shared .ordinary pos (lt_size_of_getElem? made)
        (by rw [ScopeTree.lookup, made]; rfl) (fun _ => by decide) (steady.aside nests (.of_same rfl rfl rfl))
    exact steady.members s.vars.size (var_enterVar_new inside _) (by rintro ⟨⟩)
      (steady.aside field (.of_same rfl rfl rfl))
  value := fun found free _ _ => steady.value found free
  refer := fun criterion found _ => steady.refer criterion found

end State

namespace Compile

open State

variable {strict : Prop} {α β : Type} {holds : State → Prop} {post : α → Prop} {last : β → Prop}

def Preserves (strict : Prop) (holds : State → Prop) (step : Compile α) (post : α → Prop) : Prop :=
  ∀ s : State, holds s → Leads s step holds (fun a t => holds t ∧ (strict → post a))

private theorem runFrom_onScopes_absent {id : ScopeId} (absent : s.scopes.scopes[id]? = none)
    (next : ScopeTree → Scope → ScopeTree.Edit α) :
    ∃ fault, (onScopes (do
      let tree ← get
      let scope ← tree.scope id
      next tree scope)).runFrom s = (.error fault, s) := by
  simp only [runFrom_onScopes, run_bind, run_get, ScopeTree.scope, absent, run_lift]
  exact ⟨_, rfl⟩

namespace Preserves

theorem known (outcome : Except Fault α) (results : strict → ∀ a, outcome = .ok a → post a) :
    Preserves strict holds (liftM outcome : Compile α) post :=
  fun _ before => ⟨before, fun a ran => ⟨before, fun isStrict => results isStrict a ran⟩⟩

theorem result {a : α} (result : strict → post a) : Preserves strict holds (Pure.pure a : Compile α) post :=
  fun _ before => .of_ok rfl before ⟨before, result⟩

theorem pure (a : α) : Preserves strict holds (Pure.pure a : Compile α) (fun _ => True) :=
  .result (fun _ => trivial)

theorem throw (fault : Fault) : Preserves strict holds (MonadExcept.throw fault : Compile α) post :=
  fun _ before => .of_error rfl before

variable {step : Compile α}

theorem forget (preserves : Preserves strict holds step post) : Preserves strict holds step (fun _ => True) :=
  fun s before => (preserves s before).mono (fun _ => id) (fun _ _ kept => ⟨kept.1, fun _ => trivial⟩)

theorem bind {next : α → Compile β} (first : Preserves strict holds step post)
    (rest : ∀ a, (strict → post a) → Preserves strict holds (next a) last) :
    Preserves strict holds (step >>= next) last := by
  intro s before
  refine (first s before).bind (fun a t kept => ?_)
  exact rest a kept.2 t kept.1

theorem onScopes_bind {edit : ScopeTree.Edit α} {next : α → ScopeTree.Edit β}
    (first : Preserves strict holds (onScopes edit) post)
    (rest : ∀ a, (strict → post a) → Preserves strict holds (onScopes (next a)) last) :
    Preserves strict holds (onScopes (edit >>= next)) last := by
  intro s before
  rw [Leads, runFrom_onScopes_bind]
  exact first.bind rest s before

theorem attempt (preserves : Preserves strict holds step post) :
    Preserves strict holds (attempt step) (fun _ => True) :=
  fun s before => .of_ok rfl (preserves s before).1 ⟨(preserves s before).1, fun _ => trivial⟩

theorem onScope {id : ScopeId} {next : ScopeTree → Scope → ScopeTree.Edit α}
    (rest : ∀ (s : State) (scope : Scope), s.scopes.scopes[id]? = some scope → holds s →
      Leads s (onScopes (next s.scopes scope)) holds (fun a t => holds t ∧ (strict → post a))) :
    Preserves strict holds (onScopes (do
      let tree ← MonadState.get
      let scope ← tree.scope id
      next tree scope)) post := by
  intro s before
  cases found : s.scopes.scopes[id]? with
  | none =>
    obtain ⟨fault, failed⟩ := runFrom_onScopes_absent found next
    exact .of_error failed before
  | some scope =>
    have there := rest s scope found before
    simp only [Leads, runFrom_onScopes, run_bind, run_get, ScopeTree.scope, found,
      run_lift] at there ⊢
    exact there

end Preserves

end Compile

theorem Compile.le_of_lt_succ {k n : UInt64} (below : k < n + 1) : k ≤ n := by
  have below : k.toNat < (n.toNat + 1) % 2 ^ 64 := by simpa [UInt64.lt_iff_toNat_lt] using below
  rw [UInt64.le_iff_toNat_le]
  omega

theorem Compile.passed_of_le_freeObjective {nameSpace : String} {used : List String} {bound : Nat} {first k : UInt64}
    (upTo : k ≤ freeObjective nameSpace used bound first) :
    k < first ∨ objectiveId nameSpace k ∈ used ∨ k = freeObjective nameSpace used bound first := by
  have split {k n : UInt64} (upTo : k ≤ n) : k < n ∨ k = n := by
    rw [UInt64.le_iff_toNat_le] at upTo
    rw [UInt64.lt_iff_toNat_lt, ← UInt64.toNat_inj]
    omega
  induction bound generalizing first with
  | zero => exact (split upTo).imp_right .inr
  | succ bound ih =>
    rw [freeObjective] at upTo ⊢
    by_cases inUse : used.contains (objectiveId nameSpace first) = true
    · rw [if_pos inUse] at upTo ⊢
      rcases ih upTo with before | after
      · rcases split (le_of_lt_succ before) with old | rfl
        · exact .inl old
        · exact .inr (.inl (contains_iff_mem.mp inUse))
      · exact .inr after
    · rw [if_neg inUse] at upTo ⊢
      exact (split upTo).imp_right .inr

/-! ## New variables -/

/-- A variable was made with this usage, of the type with this name, and has not been used yet. -/
def State.IsNew (s : State) (typeName : String) (usage : Usage) (id : VarId) : Prop :=
  ∃ var, s.vars[id]? = some var ∧ var.usage = usage ∧ (usage = .constant → var.value = .unset) ∧
    (∀ type : ValueType, typeName = type.name → var.type = type) ∧ ∀ text, var.value ≠ .text text

namespace State.Lasting

open Compile

variable {strict : Prop} {α : Type} {holds : State → Prop} {post : α → Prop}
  (lasting : Lasting strict holds)

include lasting

variable {id target : VarId} {scope : ScopeId} {criterion typeName : String} {access : Access} {usage : Usage}
  {args : List VarId} {pos : Position}

theorem get : Preserves strict holds get FitsLines :=
  fun _ before => .of_ok rfl before ⟨before, fun isStrict => lasting.lines isStrict before⟩

theorem inScope (scope : ScopeId) {step : Compile α} (preserves : Preserves strict holds step post) :
    Preserves strict holds (inScope scope step) post := by
  intro s before
  obtain ⟨after, result⟩ := preserves _ (lasting.move scope before)
  exact ⟨lasting.move s.current after, fun a ran => ⟨lasting.move s.current after, (result a ran).2⟩⟩

theorem var_bind {id : VarId} {next : Variable → Compile α}
    (rest : ∀ owner s, s.vars[id]? = some owner → (strict → owner.FitsLine) → holds s →
      Leads s (next owner) holds (fun a t => holds t ∧ (strict → post a))) :
    Preserves strict holds (Compile.var id >>= next) post := by
  intro s before
  cases found : s.vars[id]? with
  | none => exact .of_error (runFrom_bind_error (runFrom_var_absent found) next) before
  | some owner =>
    have fits (isStrict : strict) := (lasting.lines isStrict before).vars id owner found
    exact .ok_bind (runFrom_var found) (rest owner s found fits before)

theorem var : Preserves strict holds (var id) Variable.FitsLine := by
  rw [← bind_pure (Compile.var id)]
  exact lasting.var_bind (fun owner s _ fits before => Preserves.result fits s before)

/-! ## Scopes and units -/

variable {name : String}

theorem createChild {parent : ScopeId} (isLine : strict → IsLine name) :
    Preserves strict holds (onScopes (ScopeTree.createChild parent name)) (fun _ => True) := by
  refine .onScope (fun s outer found before => ?_)
  have nested : holds (s.nest parent outer name) :=
    lasting.nest rfl (lt_size_of_getElem? found) rfl rfl isLine before
  exact .of_ok rfl nested ⟨nested, fun _ => trivial⟩

theorem nextAnonymous {config : Config} (usable : strict → config.Usable) :
    Preserves strict holds (onScopes (ScopeTree.nextAnonymous id config.anonymousPrefix)) IsUnquoted := by
  refine .onScope (fun s scope _ before => ?_)
  have drawn := lasting.draw id (config.generatedName scope.drawn) before
  refine .of_ok rfl drawn ⟨drawn, fun isStrict => ?_⟩
  exact (config.isSegment_generatedName (usable isStrict) scope.drawn).isUnquoted

theorem createChildren {count : Nat} : Preserves strict holds (createChildren count) (fun _ => True) := by
  refine lasting.get.bind (fun state fits => ?_)
  have usable (isStrict : strict) := (fits isStrict).usable
  induction count with
  | zero => exact fun _ before => .of_ok rfl before ⟨before, fun _ => trivial⟩
  | succ count ih =>
    refine .onScopes_bind (lasting.nextAnonymous usable) (fun name plain => ?_)
    refine .onScopes_bind (lasting.createChild (fun isStrict => (plain isStrict).1)) ?_
    intro child _
    refine .onScopes_bind ih (fun _ _ _ before => ?_)
    exact .of_ok rfl before ⟨before, fun _ => trivial⟩

theorem logged {emission : Emission} (fit : strict → ∀ phase, Command.AllFit (emission.commands phase)) :
    Preserves strict holds (Compile.enter emission) (fun _ => True) := by
  refine lasting.get.bind (fun state _ s before => ?_)
  cases found : s.scopes.scopes[state.current]? with
  | none =>
    have counted : holds { s with scopes := { s.scopes with nextSeq := s.scopes.nextSeq + 1 } } :=
      lasting.aside before ⟨rfl, rfl, rfl, fun _ => rfl, fun _ => .inl, fun _ _ => .inl⟩ (.of_same rfl rfl)
    simp only [Leads, runFrom_onScopes, ScopeTree.emit, run_bind, run_get, run_set,
      ScopeTree.scope, found, run_lift]
    exact ⟨counted, by rintro _ ⟨⟩⟩
  | some scope =>
    have entered : holds { s with scopes := s.scopes.enter state.current (.emitted emission) } := by
      refine lasting.aside before
        ⟨rfl, rfl, rfl, fun id => ?_, fun entry mem => ?_, fun isStrict entry mem => ?_⟩ (.of_same rfl rfl)
      · simp [ScopeTree.declarationsOf, ScopeTree.enter]
      · refine (mem_append.mp mem).imp_right (fun new => ?_)
        rw [mem_singleton.mp new]
        exact lt_size_of_getElem? found
      · refine (mem_append.mp mem).imp_right (fun new => ?_)
        rw [mem_singleton.mp new]
        rintro _ ⟨⟩
        exact fit isStrict
    refine .of_ok (a := ()) ?_ entered ⟨entered, fun _ => trivial⟩
    simp only [runFrom_onScopes, ScopeTree.emit, run_bind, run_get, run_set,
      ScopeTree.scope, found, run_lift]

theorem emit {cmds : List Command} (fit : strict → Command.AllFit cmds) :
    Preserves strict holds (emit cmds) (fun _ => True) := by
  unfold Compile.emit
  split
  · exact .pure ()
  · refine lasting.logged (fun isStrict phase => ?_)
    cases phase with
    | activation => exact fit isStrict
    | setup | tick | teardown => exact Command.allFit_nil

theorem discard : Preserves strict holds (onScopes (ScopeTree.discard scope)) (fun _ => True) := by
  refine .onScope (fun s _ _ before => ?_)
  let kept := fun entry : Entry => !(entry.event.isEmission && s.scopes.belongs scope entry.scope)
  have dropped : holds { s with scopes := { s.scopes with log := s.scopes.log.filter kept } } := by
    have fewer (entry : Entry) (mem : entry ∈ s.scopes.log.filter kept) : entry ∈ s.scopes.log :=
      (mem_filter.mp mem).1
    refine lasting.aside before ⟨rfl, rfl, rfl, fun id => ?_, fun entry mem => .inl (fewer entry mem),
      fun _ entry mem => .inl (fewer entry mem)⟩ (.of_same rfl rfl)
    · simp only [ScopeTree.declarationsOf, filter_filter]
      refine filter_congr (fun entry _ => ?_)
      cases event : entry.event with
      | declared var => simp [kept, event, Event.isEmission]
      | emitted emission => simp
  exact .of_ok rfl dropped ⟨dropped, fun _ => trivial⟩

theorem modify {change : State → State} (config : ∀ s, (change s).config = s.config)
    (scopes : ∀ s, (change s).scopes = s.scopes) (vars : ∀ s, (change s).vars = s.vars)
    (claims : ∀ s : State, s.Claims (change s)) : Preserves strict holds (modify change) (fun _ => True) := by
  intro s before
  have after : holds (change s) := lasting.aside before (.of_same (config s) (scopes s) (vars s)) (claims s)
  exact .of_ok rfl after ⟨after, fun _ => trivial⟩

variable {s : State}

private theorem unit_bind {outer : ScopeId}
    (named : outer = ScopeTree.root ∨ ∃ n, name = s.config.generatedName n)
    (isLine : strict → IsLine name) {next : ScopeId → String → Compile α}
    (rest : ∀ scope path, (strict → IsLine path) → Preserves strict holds (next scope path) post)
    (before : holds s) :
    Leads s (do
      let scope ← onScopes (ScopeTree.createChild outer name)
      let path ← Compile.addUnit scope pos
      next scope path) holds (fun a t => holds t ∧ (strict → post a)) := by
  cases found : s.scopes.scopes[outer]? with
  | none =>
    obtain ⟨fault, failed⟩ := runFrom_onScopes_absent found _
    exact .of_error (runFrom_bind_error failed _) before
  | some outerScope =>
    refine .ok_bind (runFrom_createChild found) ?_
    rw [Compile.addUnit, bind_assoc]
    have there : (s.nest outer outerScope name).scopes.scopes[s.scopes.size]? =
        some { name, parent := some outer, drawn := outerScope.drawn } :=
      ScopeTree.getElem?_addScope_size _ _
    have marked : (onScopes (ScopeTree.markUnit s.scopes.size)).runFrom
        (s.nest outer outerScope name) = (.ok (), { s.nest outer outerScope name with
          scopes := (s.nest outer outerScope name).scopes.modifyScope s.scopes.size
            (fun scope => { scope with isUnit := true }) }) := by
      simp only [runFrom_onScopes, ScopeTree.markUnit, run_bind, run_get,
        ScopeTree.scope, there, run_lift, run_set]
    refine .ok_bind marked (Preserves.bind ?_ (rest s.scopes.size) _
      (lasting.unit there (named.imp_left (congrArg some)) (lasting.nest rfl
        (lt_size_of_getElem? found) rfl rfl isLine before)))
    refine lasting.get.bind (fun state fits => ?_)
    refine .bind (.known _ (fun isStrict path found => (fits isStrict).path found)) (fun path isPath => ?_)
    exact .bind (lasting.modify (fun _ => rfl) (fun _ => rfl) (fun _ => rfl) (fun _ => .of_same rfl rfl))
      (fun _ _ => .result isPath)

theorem openEntry : Preserves strict holds openEntry (fun _ => True) := by
  refine lasting.get.bind (fun state fits s before => ?_)
  refine lasting.unit_bind (.inl rfl) (fun isStrict => ?_) (fun scope _ _ => ?_) before
  · exact isLine_of_isPathSegment (fits isStrict).usable.entry
  · exact .bind (lasting.modify (fun _ => rfl) (fun _ => rfl) (fun _ => rfl) (fun _ => .of_same rfl rfl))
      (fun _ _ => .pure scope)

theorem openUnit : Preserves strict holds (openUnit pos) (fun unit => IsLine unit.1) := by
  intro s before
  refine .ok_bind runFrom_get ?_
  cases found : s.scopes.scopes[s.current]? with
  | none =>
    obtain ⟨fault, failed⟩ := runFrom_onScopes_absent found _
    exact .of_error (runFrom_bind_error failed _) before
  | some scope =>
    have isLine (isStrict : strict) : IsLine (s.config.generatedName scope.drawn) :=
      (s.config.isSegment_generatedName (lasting.lines isStrict before).usable scope.drawn).isLine
    have drawn : holds s.draw := lasting.draw s.current _ before
    refine .ok_bind (runFrom_nextAnonymous found) ?_
    exact lasting.unit_bind (s := s.draw) (.inr ⟨scope.drawn, rfl⟩) isLine (fun _ _ isPath => .result isPath) drawn

/-! ## Variables -/

theorem modifyVar {change : Variable → Variable} (kept : ∀ var,
    (change var).usage = var.usage ∧ (change var).value = var.value ∧
      (change var).members = var.members ∧ (change var).name = var.name ∧
        (change var).scope = var.scope ∧ (change var).type = var.type) : Preserves strict holds (modifyVar id
          change) (fun _ => True) := by
  refine lasting.var_bind (fun owner s found _ before => ?_)
  exact .of_ok rfl (lasting.detail id kept before) ⟨lasting.detail id kept before, fun _ => trivial⟩

theorem setValue {id : VarId} {var : Variable} (found : s.vars[id]? = some var)
    (free : var.usage = .constant → var.value = .unset) (textless : ∀ text, var.value ≠ .text text) {value : Value}
    (plain : ∀ objective criterion, value ≠ .objective objective criterion) (fits : strict → value.FitsLine)
    (before : holds s) : Leads s (setValue id value) holds (fun _ t => holds t ∧ (strict → True)) :=
  .of_ok (runFrom_setValue found value) (lasting.value found free textless plain fits before)
    ⟨lasting.value found free textless plain fits before, fun _ => trivial⟩

theorem innerScope : Preserves strict holds (innerScope id) (fun _ => True) := by
  refine lasting.var.bind (fun owner fits => ?_)
  cases owner.inner with
  | some inner => exact .pure inner
  | none =>
    refine (lasting.createChild (fun isStrict => (fits isStrict).1.1)).bind (fun inner _ => ?_)
    exact .bind (lasting.modifyVar (fun _ => ⟨rfl, rfl, rfl, rfl, rfl, rfl⟩)) (fun _ _ => .pure inner)

theorem registerFor {name : String} (isLine : strict → IsLine name) (before : holds s) :
    Leads s (registerFor scope name) holds (fun register t => t = s ∧ (strict → register.FitsLine)) := by
  refine .ok_bind runFrom_get ?_
  cases found : s.scopes.path scope with
  | error fault => exact .of_error (runFrom_bind_error (runFrom_lift _) _) before
  | ok path =>
    refine .of_ok rfl before ⟨rfl, fun isStrict => ?_⟩
    have fits := lasting.lines isStrict before
    have dotted : IsLine (String.ofList (path.toList.map (fun c => if c = '/' then '.' else c))) := by
      intro broken
      rw [String.toList_ofList, mem_map] at broken
      obtain ⟨c, mem, isBreak⟩ := broken
      split at isBreak
      · exact absurd isBreak (by decide)
      · exact fits.path found (isBreak ▸ mem)
    refine ⟨?_, fits.usable.isLine_registerObjective⟩
    dsimp only
    split
    · exact isLine isStrict
    · exact (dotted.append (by decide)).append (isLine isStrict)

private theorem declareInternal_new (plain : strict → IsUnquoted name) (before : holds s) :
    Leads s (declareInternal typeName access usage name pos) holds
      (fun id t => holds t ∧ t.IsNew typeName usage id) := by
  cases isType : typeNamed typeName pos with
  | error fault => exact .of_error (runFrom_bind_error (by rw [runFrom_lift, isType]) _) before
  | ok type =>
    refine .ok_bind (by rw [runFrom_lift, isType]) ?_
    rcases runFrom_enterVariable_any s type access usage name pos with
      ⟨fault, failed, _⟩ | ⟨inside, free, ran⟩
    · exact .of_error (runFrom_bind_error failed _) before
    refine .ok_bind ran ?_
    let var : Variable := { type, access, usage, name, scope := s.current, position := pos }
    have found := var_enterVar_new s var
    have typed (other : ValueType) (named : typeName = other.name) : type = other := by
      rw [named, typeNamed_name] at isType
      exact (Except.ok.inj isType).symm
    have entered (other : type ≠ .objective) : holds (s.enterVar var) :=
      lasting.enter access usage pos other inside free plain before
    have new : (s.enterVar var).IsNew typeName usage s.vars.size :=
      ⟨var, found, rfl, fun _ => rfl, typed, by rintro _ ⟨⟩⟩
    refine .bind (m := fun _ t => holds t ∧ t.IsNew typeName usage s.vars.size) ?_
      (fun _ _ kept => .of_ok rfl kept.1 kept)
    have score (other : type ≠ .objective) : Leads (s.enterVar var) (Compile.allocateScore s.vars.size) holds
        (fun _ t => holds t ∧ t.IsNew typeName usage s.vars.size) := by
      refine .ok_bind (runFrom_var found) ?_
      split
      · exact .of_ok rfl (entered other) ⟨entered other, new⟩
      · next changing =>
          refine .bind (lasting.registerFor (fun isStrict => (plain isStrict).1) (entered other)) ?_
          rintro register _ ⟨rfl, isLine⟩
          have valued : holds ((s.enterVar var).onVar s.vars.size
              (fun var => { var with value := .register register })) :=
            lasting.value found (fun constant => absurd constant changing) (by rintro _ ⟨⟩) (by rintro _ _ ⟨⟩)
              isLine (entered other)
          refine .of_ok (runFrom_setValue found _) valued ⟨valued, { var with value := .register register }, ?_,
            rfl, fun constant => absurd constant changing, typed, by rintro _ ⟨⟩⟩
          rw [vars_onVar, if_pos rfl, found]
          rfl
    cases type with
    | int | bool => exact score (by decide)
    | string => exact .of_ok rfl (entered (by decide)) ⟨entered (by decide), new⟩
    | objective =>
      obtain ⟨outer, around, _⟩ := scope_enterVar var (Array.getElem?_eq_getElem inside)
      have made : holds (withObjective s outer var) :=
        lasting.object access usage pos inside free plain before
      refine .of_ok (runFrom_allocateObjective around rfl) made ⟨made, _,
        (vars_withObjective s outer var _).trans (if_pos rfl), rfl, fun _ => rfl, typed, by rintro _ ⟨⟩⟩

theorem declareInternal (plain : strict → IsUnquoted name) :
    Preserves strict holds (declareInternal typeName access usage name pos) (fun _ => True) :=
  fun _ before => (lasting.declareInternal_new plain before).mono
    (fun _ => id) (fun _ _ kept => ⟨kept.1, fun _ => trivial⟩)

theorem declare : Preserves strict holds (declare typeName access usage name pos) (fun _ => True) := by
  refine lasting.get.bind (fun state _ => ?_)
  have checks : Preserves strict holds (liftM (checkName state.config name pos) : Compile Unit)
      (fun _ => IsUnquoted name) :=
    .known _ (fun _ _ checked => (isSegment_of_isIdentifier (checkName_eq_ok checked).1).isUnquoted)
  exact checks.bind (fun _ plain => lasting.declareInternal plain)

private theorem anonymous_new (before : holds s) :
    Leads s (anonymous typeName usage pos) holds (fun id t => holds t ∧ t.IsNew typeName usage id) := by
  refine .ok_bind runFrom_get ?_
  have usable (isStrict : strict) := (lasting.lines isStrict before).usable
  refine .bind (lasting.nextAnonymous usable s before) (fun name t kept => ?_)
  exact lasting.declareInternal_new kept.2 kept.1

theorem anonymous : Preserves strict holds (anonymous typeName usage pos) (fun _ => True) :=
  fun _ before => (lasting.anonymous_new before).mono
    (fun _ => id) (fun _ _ kept => ⟨kept.1, fun _ => trivial⟩)

theorem valued {value : Value}
    (fits : strict → value.FitsLine) (plain : ∀ objective criterion, value ≠ .objective objective criterion) :
    Preserves strict holds (do
      let id ← Compile.anonymous typeName usage pos
      Compile.setValue id value
      return id) (fun _ => True) := by
  intro s before
  refine (lasting.anonymous_new before).bind ?_
  rintro id t ⟨kept, var, found, rfl, unset, _, textless⟩
  refine (lasting.setValue found unset textless plain fits kept).bind (fun _ t kept => ?_)
  exact Preserves.pure id t kept.1

/-! ## Values -/

theorem store {src : Operand} (fits : strict → src.FitsLine) :
    Preserves strict holds (store src target pos) Command.AllFit := by
  refine lasting.var_bind (fun owner s found held before => ?_)
  have taken (isStrict : strict) : (Compile.normalize owner.type src).FitsLine := by
    unfold Compile.normalize
    split
    · trivial
    · exact fits isStrict
  have set (unset : owner.value = .unset) {value : Value} (isLine : strict → value.FitsLine)
      (plain : ∀ objective criterion, value ≠ .objective objective criterion) :
      Leads s (do Compile.setValue target value; return ([] : List Command)) holds
        (fun cmds t => holds t ∧ (strict → Command.AllFit cmds)) := by
    refine (lasting.setValue found (fun _ => unset) (by rw [unset]; rintro _ ⟨⟩) plain isLine
      before).bind (fun _ t kept => ?_)
    exact Preserves.result (fun _ => Command.allFit_nil) t kept.1
  have register {cell : Register} (isValue : owner.value = .register cell) (isStrict : strict) :
      cell.FitsLine := by
    have fits := (held isStrict).2
    rw [isValue] at fits
    exact fits
  split
  · next cell score isValue _ =>
      have fits (isStrict : strict) : (Command.set cell score).FitsLine := register isValue isStrict
      exact Preserves.result (fun isStrict => (fits isStrict).only) s before
  · next cell other isValue isSource =>
      refine Preserves.result (fun isStrict => ?_) s before
      split
      · exact Command.allFit_nil
      · have isLine := taken isStrict
        rw [isSource] at isLine
        exact Command.FitsLine.only ⟨register isValue isStrict, isLine⟩
  · next unset _ => exact set unset (fun _ => trivial) (by rintro _ _ ⟨⟩)
  · next other unset isSource =>
      rw [isSource] at taken
      dsimp only
      split
      · exact Preserves.throw _ s before
      · exact set unset taken (by rintro _ _ ⟨⟩)
  · exact Preserves.throw _ s before
  · exact Preserves.throw _ s before
  · exact Preserves.throw _ s before

theorem storeText {text : String} : Preserves strict holds (storeText text target pos) (fun _ => True) := by
  refine lasting.var_bind (fun owner s found _ before => ?_)
  dsimp only
  split
  · exact Preserves.throw _ s before
  split
  · exact Preserves.throw _ s before
  · next unset =>
      rw [Decidable.not_not] at unset
      exact lasting.setValue found (fun _ => unset) (by rw [unset]; rintro _ ⟨⟩) (by rintro _ _ ⟨⟩)
        (fun _ => trivial) before

theorem bindObjective {target : VarId} {owner : Variable} (found : s.vars[target]? = some owner)
    (isObjective : owner.type = .objective) {id : String} (isLine : strict → IsLine id) (before : holds s) :
    Leads s (bindObjective target id criterion pos) holds (fun _ t => holds t ∧ (strict → True)) := by
  rcases runFrom_bindObjective found id criterion pos with ⟨fault, ran⟩ | ⟨free, ran⟩
  · exact .of_error ran before
  · have referred := lasting.refer criterion found isObjective free isLine before
    exact .of_ok ran referred ⟨referred, fun _ => trivial⟩

theorem rebind {src : VarId} : Preserves strict holds (rebind src target pos) Command.AllFit := by
  refine lasting.var_bind (fun owner s found _ before => ?_)
  dsimp only
  split
  · exact Preserves.throw _ s before
  next isObjective =>
  refine .bind (m := fun named t => t = s ∧ (strict → IsLine named.1)) ?_ ?_
  · cases there : s.vars[src]? with
    | none => exact .of_error (runFrom_bind_error (runFrom_var_absent there) _) before
    | some other =>
      refine .ok_bind (runFrom_var there) ?_
      cases value : other.value with
      | objective id criterion =>
        refine .of_ok rfl before ⟨rfl, fun isStrict => ?_⟩
        have fits := ((lasting.lines isStrict before).vars src other there).2
        rw [value] at fits
        exact fits
      | unset | int | register | text => exact .of_error rfl before
  · rintro ⟨id, criterion⟩ _ ⟨rfl, isLine⟩
    refine .bind (lasting.bindObjective found (Decidable.not_not.mp isObjective) isLine
      before) (fun _ t kept => ?_)
    exact Preserves.result (fun _ => Command.allFit_nil) t kept.1

/-! ## Parameters -/

theorem declareParams (copies : ∀ src target, Preserves strict holds (copyTo src target pos) Command.AllFit)
    {pairs : List (Param × VarId)} (plain : strict → ∀ pair ∈ pairs, IsUnquoted pair.1.name) :
    Preserves strict holds (declareParams pos pairs) (fun _ => True) := by
  induction pairs with
  | nil => exact .pure []
  | cons pair pairs ih =>
    have first (isStrict : strict) := (forall_mem_cons.mp (plain isStrict)).1
    refine (lasting.declareInternal first).bind (fun id _ => ?_)
    refine (copies pair.2 id).bind (fun cmds fit => (lasting.emit fit).bind (fun _ _ => ?_))
    refine (ih (fun isStrict => ?_)).bind (fun ids _ => .pure (id :: ids))
    exact (forall_mem_cons.mp (plain isStrict)).2

section

variable (casts : ∀ pairs, Preserves strict holds (castAll pos pairs) (fun _ => True))
  (copies : ∀ src target, Preserves strict holds (copyTo src target pos) Command.AllFit)
  {what : String}
include casts copies

theorem bindParams {params : List Param} (plain : strict → ∀ param ∈ params, IsUnquoted param.name) :
    Preserves strict holds (bindParams what params args pos) (fun _ => True) := by
  unfold Compile.bindParams
  dsimp only
  split
  · exact .throw _
  refine (casts _).bind (fun values _ => lasting.declareParams copies (fun isStrict pair mem => ?_))
  exact plain isStrict pair.1 (of_mem_zip mem).1

theorem tryOverloads {index : Nat} {fitting : Bool} {overloads : List (List Param × ScopeId)}
    (plain : strict → ∀ overload ∈ overloads, ∀ param ∈ overload.1, IsUnquoted param.name) :
    Preserves strict holds (tryOverloads what args pos index fitting overloads) (fun _ => True) := by
  induction overloads generalizing index fitting with
  | nil => exact .pure (Sum.inl fitting)
  | cons overload rest ih =>
    obtain ⟨params, scope⟩ := overload
    have first (isStrict : strict) := (forall_mem_cons.mp (plain isStrict)).1
    have later (isStrict : strict) := (forall_mem_cons.mp (plain isStrict)).2
    refine (lasting.inScope scope (lasting.bindParams casts copies first)).attempt.bind (fun outcome _ => ?_)
    cases outcome with
    | ok bound => exact .pure (Sum.inr (index, bound))
    | error fault =>
      dsimp only
      split
      · exact lasting.discard.bind (fun _ _ => ih later)
      · exact lasting.discard.bind (fun _ _ => ih later)
      · exact .throw fault

theorem select {overloads : List (List Param)}
    (plain : strict → ∀ params ∈ overloads, ∀ param ∈ params, IsUnquoted param.name) :
    Preserves strict holds (select what overloads args pos) (fun _ => True) := by
  have describes (ids : List VarId) : Preserves strict holds (describeTypes ids) (fun _ => True) := by
    induction ids with
    | nil => exact .pure []
    | cons id ids ih => exact lasting.var.bind (fun _ _ => ih.bind (fun _ _ => .pure _))
  refine lasting.createChildren.bind (fun scopes _ => ?_)
  refine (lasting.tryOverloads casts copies (fun isStrict overload mem => ?_)).bind ?_
  · exact plain isStrict overload.1 (of_mem_zip mem).1
  rintro (fits | chosen) _
  · cases fits with
    | true => exact (describes args).bind (fun _ _ => .throw _)
    | false => exact .throw _
  · exact .pure chosen

end

/-! ## Objectives -/

theorem claimObjective {id : String} : Preserves strict holds (claimObjective id pos) (fun _ => True) := by
  refine lasting.get.bind (fun state _ => ?_)
  split
  · exact .throw _
  · refine lasting.modify (fun _ => rfl) (fun _ => rfl) (fun _ => rfl) (fun _ => ⟨?_, fun _ => .inl⟩)
    exact subset_append_left _ _

theorem claimNext : Preserves strict holds (claimNext pos) IsLine := by
  intro s before
  let n := freeObjective s.config.nameSpace s.objectives s.objectives.length s.nextObjective
  let id := objectiveId s.config.nameSpace n
  have after {objectives : List String} (kept : s.objectives ⊆ objectives)
      (last : id ∈ objectives ∨ isObjectiveId id = false) :
      holds { s with objectives, nextObjective := n + 1 } := by
    refine lasting.aside before (.of_same rfl rfl rfl) ⟨kept, fun k below => ?_⟩
    rcases passed_of_le_freeObjective (le_of_lt_succ below) with old | passed | rfl
    · exact .inl old
    · exact .inr (.inl (kept passed))
    · exact .inr last
  refine .ok_bind (t := { s with nextObjective := n + 1 }) rfl ?_
  dsimp only
  split
  · next improper => exact .of_error rfl (after (List.Subset.refl _) (.inr (by simpa using improper)))
  next proper =>
  have isLine := isLine_of_isObjectiveId (by simpa using proper)
  refine .bind (m := fun _ t => holds t) ?_ (fun _ t kept => .of_ok rfl kept ⟨kept, fun _ => isLine⟩)
  refine .ok_bind runFrom_get ?_
  split
  · next used => exact .of_error rfl (after (List.Subset.refl _) (.inl (contains_iff_mem.mp used)))
  · have claimed := after (subset_append_left _ [id]) (.inl (mem_append_right _ (mem_singleton_self _)))
    exact .of_ok rfl claimed claimed

theorem create {id : String} (isLine : strict → IsLine id) :
    Preserves strict holds (create id criterion pos) (fun _ => True) := by
  intro s before
  refine .bind (lasting.anonymous_new before) ?_
  rintro result t ⟨kept, var, found, _, _, typed, _⟩
  refine .bind (lasting.bindObjective found (typed .objective rfl) isLine kept) ?_
  rintro _ u ⟨kept, _⟩
  refine Preserves.bind (lasting.modifyVar (fun _ => ?_)) (fun _ _ => .pure result) u kept
  exact ⟨rfl, rfl, rfl, rfl, rfl, rfl⟩

theorem composed {f : Footing} (terms : f.strict = strict) {step : Position → Compile α}
    (composed : Composed f step post) (pos : Position) : Preserves strict holds (step pos) post := by
  subst terms
  induction composed with
  | known _ _ results => exact .known _ (fun isStrict => results isStrict pos)
  | get_bind _ _ rest => exact lasting.get.bind rest
  | var_bind _ _ _ rest => exact lasting.var.bind rest
  | bind _ _ first rest => exact first.bind rest
  | recover _ _ ok error tries falls =>
    refine tries.attempt.bind (fun outcome _ => ?_)
    cases outcome with
    | ok a =>
      rw [ok]
      exact .pure a
    | error fault =>
      rw [error]
      split
      · exact falls
      · exact .throw fault
  | declare => exact lasting.declare
  | anonymous => exact lasting.anonymous
  | bindRegister _ fits => exact lasting.valued fits (by rintro _ _ ⟨⟩)
  | constant _ fits plain => exact lasting.valued fits plain
  | select _ plain _ _ _ casts copies => exact lasting.select casts copies plain
  | store fits => exact lasting.store fits
  | storeText => exact lasting.storeText
  | rebind => exact lasting.rebind
  | create isLine => exact lasting.create isLine
  | claimNext => exact lasting.claimNext
  | claimObjective => exact lasting.claimObjective
  | emit fit => exact lasting.emit fit

end State.Lasting

/-! ## Engines -/

namespace Engine

open Compile State

variable {strict : Prop} {holds : State → Prop}

structure Preserves (engine : Engine) (strict : Prop) (holds : State → Prop) : Prop where
  evaluate : ∀ (items : List Tree) (pos : Position),
    Compile.Preserves strict holds (engine.evaluate items pos) (fun _ => True)
  write : ∀ tree : Tree, Compile.Preserves strict holds (engine.write tree) (fun _ => True)
  generate : ∀ (script : String) (pos : Position),
    Compile.Preserves strict holds (engine.generate script pos) IsLine

theorem Exchange.preserves {engine other : Engine} {α : Type} {step step' : Compile α} {post : α → Prop}
    (exchange : Exchange (.still strict) 0 engine other step step' post) (lasting : Lasting strict holds)
    (preserves : engine.Preserves strict holds) : Compile.Preserves strict holds step post := by
  induction exchange with
  | result holds => exact .result holds
  | composed composed _ => exact lasting.composed rfl composed _
  | evaluate _ _ _ => exact preserves.evaluate _ _
  | write _ _ => exact preserves.write _
  | generate _ _ => exact preserves.generate _ _
  | bind _ _ first rest => exact first.bind rest
  | get_bind _ rest =>
    exact lasting.get.bind (fun s => rest s s (.refl (fun _ => rfl) False.elim))
  | var_bind id _ rest =>
    exact lasting.var.bind (fun var => rest var var ⟨_, rfl, rfl⟩)
  | lift_bind concur _ _ rest =>
    cases concur with
    | ok related => exact rest _ _ related rfl
    | error _ => exact .throw _
  | inUnit _ _ inside =>
    exact lasting.openUnit.bind (fun unit isPath =>
      (lasting.inScope unit.2 inside).bind (fun _ _ => .result isPath))

theorem Preserves.runs {engine : Engine} (preserves : engine.Preserves strict holds)
    (lasting : Lasting strict holds) {α : Type} {step : Compile α} {post : α → Prop}
    (exchange : Exchange (.still strict) 0 engine engine step step post) : Compile.Preserves strict holds step post :=
  exchange.preserves lasting preserves

theorem ofDepth_preserves (lasting : Lasting strict holds) {generate : String → Position → Compile String}
    (generates : ∀ script pos, Compile.Preserves strict holds (generate script pos) IsLine)
    (depth : Nat) : (ofDepth generate depth).Preserves strict holds := by
  induction depth with
  | zero => exact ⟨fun _ _ => .throw _, fun _ => .throw _, generates⟩
  | succ depth ih =>
    exact
      { evaluate := fun items pos => ih.runs lasting (.evaluateSequence_still items pos)
        write := fun tree => ih.runs lasting (.writeStatement_still tree)
        generate := generates }

theorem generateWithin_preserves (lasting : Lasting strict holds) (generations : Nat) (script : String)
    (pos : Position) : Compile.Preserves strict holds (generateWithin generations script pos) IsLine := by
  induction generations generalizing script pos with
  | zero => exact .throw _
  | succ generations ih =>
    exact (ofDepth_preserves lasting ih (depthFor script.length)).runs lasting (.compileScript_still script pos)

theorem preserves_within (lasting : Lasting strict holds) (generations depth : Nat) :
    (ofDepth (generateWithin generations) depth).Preserves strict holds :=
  ofDepth_preserves lasting (generateWithin_preserves lasting generations) depth

theorem Preserves.compileEntry {engine : Engine} (preserves : engine.Preserves strict holds)
    (lasting : Lasting strict holds) (text : String) :
    Compile.Preserves strict holds (engine.compileEntry text) (fun _ => True) := by
  refine lasting.get.bind (fun _ _ => .bind (.known _ (fun _ _ _ => trivial)) (fun tokens _ => ?_))
  refine lasting.openEntry.bind (fun scope _ => ?_)
  exact lasting.inScope scope (preserves.runs lasting (.compileTokens_still tokens))

end Engine

/-! ## States that fit lines -/

namespace State

private theorem steady_fitsLines (strict : Prop) : Steady strict (fun s => strict → s.FitsLines) where
  lines := fun isStrict _ fits => fits isStrict
  aside := by
    intro s t fits beside isStrict
    have fits := fits isStrict
    refine { usable := beside.config ▸ fits.usable, scopes := ?_, vars := ?_, log := ?_ }
    · rw [beside.scopes]
      exact fits.scopes
    · rw [beside.vars]
      exact fits.vars
    · intro entry mem emission isEmission
      rcases beside.entered isStrict entry mem with old | new
      · exact fits.log entry old emission isEmission
      · exact new emission isEmission
  scope := fun id _ kept fits isStrict => (fits isStrict).onScope id (fun scope => (kept scope).1)
  nest := fun _ _ _ _ isLine fits isStrict => (fits isStrict).nest (isLine isStrict)
  unit := fun _ _ fits isStrict => (fits isStrict).onScope _ (fun _ => rfl)
  enter := fun _ _ _ _ _ _ _ plain fits isStrict => (fits isStrict).enterVar ⟨plain isStrict, trivial⟩
  detail := by
    intro s id change kept fits isStrict
    refine (fits isStrict).onVar (fun var before => ?_)
    rw [Variable.FitsLine, (kept var).2.1, (kept var).2.2.2.1]
    exact before
  value := fun _ _ isLine fits isStrict =>
    (fits isStrict).onVar (fun _ before => ⟨before.1, isLine isStrict⟩)
  refer := by
    intro s id owner objective criterion _ _ isLine fits isStrict
    refine FitsLines.onVar ?_ (fun _ before => ⟨before.1, isLine isStrict⟩)
    unfold refresh
    split
    · exact (fits isStrict).onVar (fun _ before => ⟨before.1, trivial⟩)
    · exact fits isStrict
  members := fun _ _ _ _ _ fits isStrict => (fits isStrict).onVar (fun _ before => before)

theorem lasting_fitsLines (strict : Prop) : Lasting strict (fun s => strict → s.FitsLines) :=
  (steady_fitsLines strict).lasting

theorem start_fitsLines {config : Config} (usable : config.Usable) (src : Nat) :
    (start config src).FitsLines where
  usable := usable
  scopes := by
    intro id scope found
    cases id with
    | zero =>
      cases found
      exact (by decide : IsLine "")
    | succ id => cases found
  vars := by
    rintro id var ⟨⟩
  log := by
    intro entry mem emission isEmission phase
    cases mem_singleton.mp mem
    cases isEmission
    have isLine := usable.isLine_registerObjective
    cases phase with
    | setup => exact Command.FitsLine.only ⟨isLine, by decide⟩
    | teardown => exact Command.FitsLine.only isLine
    | activation | tick => rintro _ ⟨⟩

end State

end ScoreScript
