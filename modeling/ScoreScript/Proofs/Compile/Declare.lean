import ScoreScript.Proofs.Compile.Ready

/-!
# Making variables

What the steps that make variables do, and that the state only grows by them.
-/

namespace ScoreScript.Compile

open List

open State ScopeTree

variable {id : Nat} {scope : Scope} {t : State} {name : String} {usage : Usage} {type : ValueType}
  {var : Variable} {access : Access} {pos : Position}

variable {s : State}

theorem typeNamed_name (type : ValueType) (pos : Position) : typeNamed type.name pos = .ok type := by
  simp [typeNamed]

theorem typeNamed_cases (name : String) (pos : Position) :
    (∃ fault, typeNamed name pos = .error fault ∧ fault.kind ≠ .internal) ∨
      ∃ type, typeNamed name pos = .ok type := by
  cases found : ValueType.ofName? name with
  | none => exact .inl ⟨⟨.unknownType name, pos⟩, by rw [typeNamed, found], nofun⟩
  | some type => exact .inr ⟨type, by rw [typeNamed, found]⟩

private theorem checkModifiers_blameless : Blameless (checkModifiers type access usage pos) := by
  unfold checkModifiers
  dsimp only
  split
  · exact .error nofun
  · split
    · exact .error nofun
    · exact .ok ()

theorem runFrom_enterVariable_any (s : State) (type : ValueType) (access : Access) (usage : Usage)
    (name : String) (pos : Position) :
    (∃ fault, (enterVariable type access usage name pos).runFrom s = (.error fault, s) ∧
        (s.current < s.scopes.size → fault.kind ≠ .internal)) ∨
      s.current < s.scopes.size ∧ s.scopes.lookup s.current name = none ∧
        (enterVariable type access usage name pos).runFrom s = (.ok s.vars.size,
            s.enterVar { type, access, usage, name, scope := s.current, position := pos }) := by
  cases admitted : checkModifiers type access usage pos with
  | error fault =>
    refine .inl ⟨fault, ?_, fun _ => checkModifiers_blameless _ admitted⟩
    simp only [enterVariable, runFrom_bind, runFrom_lift, admitted]
  | ok =>
    cases found : s.scopes.scopes[s.current]? with
    | some scope =>
      cases lookup : s.scopes.lookup s.current name with
      | none => exact .inr ⟨lt_size_of_getElem? found, rfl, runFrom_enterVariable found admitted lookup⟩
      | some bound => exact .inl ⟨_, runFrom_enterVariable_bound found admitted lookup, fun _ => by rintro ⟨⟩⟩
    | none =>
      refine .inl ⟨⟨.unknownScope s.current, default⟩, ?_, fun inside => ?_⟩
      · simp only [enterVariable, runFrom_bind, runFrom_lift, admitted, runFrom_get,
          runFrom_onScopes, ScopeTree.declare, Fault.run_bind, Fault.run_get, ScopeTree.scope,
          found, Fault.run_lift]
      · obtain ⟨scope, there⟩ := exists_of_lt_size inside
        cases found.symm.trans there

private theorem runFrom_allocateScore (sound : s.Sound) (usable : s.config.Usable)
    (step : State.Step s (s.enterVar var)) (place : var.scope = s.current) (changing : var.usage ≠ .constant) :
    (allocateScore s.vars.size).runFrom (s.enterVar var) = (.ok (), s.enterScore var) := by
  have found := var_enterVar_new s var
  have inside : var.scope < (s.enterVar var).scopes.size := by
    rw [scopes_size_enterVar, place]
    exact sound.current
  simp only [allocateScore, runFrom_bind, runFrom_var found, if_neg changing,
    runFrom_registerFor inside, runFrom_setValue found]
  rw [registerAt_enterVar sound usable step (by rw [place]; exact sound.current)]
  rfl

/-! ## Members of an objective -/

/-- The state after the scope of the members of a variable was made. -/
def withInner (s : State) (id : Nat) (var : Variable) (outer : Scope) : State :=
  (s.nest var.scope outer var.name).onVar id
    (fun var => { var with inner := some s.scopes.size })

private theorem runFrom_innerScope {outer : Scope} (found : s.vars[id]? = some var)
    (around : s.scopes.scopes[var.scope]? = some outer) (first : var.inner = none) :
    (innerScope id).runFrom s = (.ok s.scopes.size, withInner s id var outer) := by
  have there : (s.nest var.scope outer var.name).vars[id]? = some var := found
  simp only [innerScope, runFrom_bind, runFrom_var found, first, runFrom_createChild around,
    runFrom_modifyVar there, runFrom_pure]
  rfl

variable {terms : Terms}

private theorem grows_withInner (sound : s.Sound) {outer : Scope} (found : s.vars[id]? = some var)
    (around : s.scopes.scopes[var.scope]? = some outer) (type : var.type = .objective)
    (first : var.inner = none) : State.Grows terms s (withInner s id var outer) := by
  refine State.Grows.addScopes (.single (.member found around type first)) sound rfl rfl
    rfl Array.size_modify ?_ ?_
  · intro i other isOther
    have isOther' : (s.nest var.scope outer var.name).vars[i]? = some other := isOther
    rw [withInner, vars_onVar, isOther']
    split
    · exact ⟨_, rfl, .of_value rfl rfl rfl rfl rfl⟩
    · exact ⟨other, rfl, .refl other⟩
  · intro i scope there
    exact (ScopeTree.getElem?_addScope_of_lt _ (lt_size_of_getElem? there)).trans there

def criterionVar (scope : ScopeId) (pos : Position) : Variable :=
  { type := .string, access := .shared, usage := .ordinary, name := criterionField, scope, position := pos }

/-- The state after an objective was entered and got its members. -/
def withObjective (s : State) (outer : Scope) (var : Variable) : State :=
  let inner := (s.enterVar var).scopes.size
  let nested : State := { withInner (s.enterVar var) s.vars.size var outer with current := inner }
  ({ nested.enterVar (criterionVar inner var.position) with current := s.current } : State).onVar s.vars.size
    (fun owner => { owner with members := objectiveMembers nested.vars.size })

theorem vars_withObjective (s : State) (outer : Scope) (var : Variable) (i : Nat) :
    (withObjective s outer var).vars[i]? =
      if i = s.vars.size then
        some { var with
          inner := some (s.enterVar var).scopes.size, members := objectiveMembers (s.vars.size + 1) }
      else if i = s.vars.size + 1 then some (criterionVar (s.enterVar var).scopes.size var.position)
      else s.vars[i]? := by
  simp only [withObjective, withInner, State.onVar, State.enterVar, State.nest, Array.getElem?_modify,
    Array.getElem?_push, Array.size_modify, Array.size_push]
  by_cases first : i = s.vars.size
  · simp [first]
  · simp [first, Ne.symm first]

/-- Once an objective is entered, nothing keeps it from getting its members. -/
theorem runFrom_allocateObjective {outer : Scope}
    (around : (s.enterVar var).scopes.scopes[var.scope]? = some outer) (first : var.inner = none) :
    (allocateObjective s.vars.size).runFrom (s.enterVar var) = (.ok (), withObjective s outer var) := by
  let inner := (s.enterVar var).scopes.size
  let nested := withInner (s.enterVar var) s.vars.size var outer
  have owner : nested.vars[s.vars.size]? = some { var with inner := some inner } := by
    refine (vars_onVar _ _ _ _).trans ?_
    rw [if_pos rfl]
    exact congrArg (Option.map _) (var_enterVar_new s var)
  have made : nested.scopes.scopes[inner]? =
      some { name := var.name, parent := some var.scope, drawn := outer.drawn } :=
    ScopeTree.getElem?_addScope_size _ _
  let entered : State := ({ nested with current := inner } : State).enterVar (criterionVar inner var.position)
  have field : (inScope inner (enterVariable .string .shared .ordinary criterionField
      var.position)).runFrom nested = (.ok nested.vars.size, { entered with current := s.current }) := by
    rw [runFrom_inScope, runFrom_enterVariable (s := { nested with current := inner }) made rfl
      (by rw [ScopeTree.lookup, made]; rfl)]
    rfl
  rw [allocateObjective, runFrom_bind_ok (runFrom_innerScope (var_enterVar_new s var) around first),
    runFrom_bind_ok (runFrom_var owner), runFrom_bind_ok field]
  have later : ({ entered with current := s.current } : State).vars[s.vars.size]? = _ :=
    var_enterVar_old _ owner
  exact runFrom_modifyVar later _

theorem isSegment_criterionField : IsSegment criterionField :=
  .of_all rfl (by decide)

theorem eq_of_objectiveMembers {criterion field : VarId}
    (mem : (objectiveMembers criterion).lookup name = some (.field field)) : criterion = field := by
  rw [objectiveMembers, lookup_cons] at mem
  split at mem
  · cases mem
    rfl
  · simp only [lookup_cons, lookup_nil] at mem
    repeat' split at mem
    all_goals cases mem

private theorem allocateObjective_behaves (stable : s.Stable terms) (found : s.vars[id]? = some var)
    (type : var.type = .objective) (first : var.inner = none) :
    Behaves terms s (allocateObjective id) (fun _ _ => True) := by
  obtain ⟨outer, around⟩ := exists_of_lt_size (stable.sound.scopeOf found)
  let t := withInner s id var outer
  have grows : State.Grows terms s t := grows_withInner stable.sound found around type first
  have sound : t.Sound := grows.sound stable.usable stable.sound
  have made : t.scopes.scopes[s.scopes.size]? =
      some { name := var.name, parent := some var.scope, drawn := outer.drawn } :=
    ScopeTree.getElem?_addScope_size _ _
  have inside := lt_size_of_getElem? made
  obtain ⟨owner, isOwner, keeps⟩ := grows.vars id var found
  have positive : 0 < s.scopes.size := Nat.zero_lt_of_lt stable.sound.current
  let inner : State := { t with current := s.scopes.size }
  have innerSound : inner.Sound := sound.move inside
  -- What is entered into the new scope stands under the fixed name, whatever names are in use.
  let free : Terms := { terms with names := [], still := false }
  have entered : Behaves free inner (enterVariable .string .shared .ordinary criterionField owner.position)
      (fun field u => State.IsField u.vars field) := by
    rcases runFrom_enterVariable_any inner .string .shared .ordinary criterionField
      owner.position with ⟨fault, ran, blameless⟩ | ⟨_, isFree, ran⟩
    · exact .of_error ran (blameless inside)
    · refine .of_ok ran (State.Grows.enterVar innerSound ?_ (Terms.not_keeps rfl rfl _ _) (by simp))
        rfl ⟨_, var_enterVar_new inner _, rfl, nofun⟩
      exact .enter positive made isSegment_criterionField isFree (fun other => absurd rfl other)
        (fun impossible => by cases impossible)
  unfold allocateObjective
  refine Ends.ok_bind (runFrom_innerScope found around first) (Ends.ok_bind (runFrom_var isOwner) ?_)
  refine Ends.bind (m := fun field u => s.Covers u ∧ State.IsField u.vars field)
    (Ends.inScope (Ends.mono entered ?_ ?_)) ?_
  · exact fun u within => grows.inside stable.usable stable.sound (.inl (Nat.le_refl _)) inside within rfl
      rfl (fun none => none)
  · rintro field u within ⟨covers, isField⟩
    have opened : s.Covers t := .of_units rfl
    exact ⟨opened.trans covers grows.emits.kept within.emits.kept within.config, isField⟩
  · rintro field u grown ⟨covers, isField⟩
    obtain ⟨later, isLater, _⟩ := grown.vars id var found
    refine Ends.of_ok (runFrom_modifyVar isLater _) ?_ ⟨covers, trivial⟩
    refine grown.trans (State.Grows.onVar (.members isField) ?_) stable.usable stable.sound
    exact fun _ _ => .of_value rfl rfl rfl rfl rfl

/-! ## Declarations -/

/-- A variable of the current scope can have the name. -/
structure Admits (terms : Terms) (s : State) (type : ValueType) (usage : Usage) (name : String) :
    Prop where
  segment : IsSegment name
  unused : s.scopes.lookup s.current name = none → type ≠ .string → s.Unused name
  drawn : type ≠ .string → s.config.isGenerated name = true → ∀ scope, s.scopes.scopes[s.current]? = some scope →
      ∃ n, n < scope.drawn ∧ name = s.config.generatedName n
  result : usage = .result → s.config.isGenerated name = true
  unnamed : ¬ terms.Keeps s.config name

structure Made (s t : State) (type : ValueType) (usage : Usage) (name : String) (id : Nat)
    (var : Variable) : Prop where
  found : t.vars[id]? = some var
  new : s.vars.size ≤ id
  isType : var.type = type
  isUsage : var.usage = usage
  called : var.name = name
  place : var.scope = s.current
  score : type = .int ∨ type = .bool → usage ≠ .constant → var.value = .register (t.registerAt var.scope var.name)
  unset : type ≠ .objective → (type = .int ∨ type = .bool → usage = .constant) → var.value = .unset

theorem Made.takesAny (made : Made s t .int usage name id var) : t.TakesAny (t.registerAt var.scope var.name) :=
  .inr ⟨id, var, made.found, made.isType, rfl⟩

theorem Made.holdsTruth (made : Made s t .bool usage name id var) (changing : usage ≠ .constant) :
    t.HoldsTruth (t.registerAt var.scope var.name) :=
  ⟨id, var, made.found, made.isType, made.score (.inr rfl) changing⟩

theorem Made.typed (made : Made s t type usage name id var) (stable : s.Stable terms)
    (grows : State.Grows terms s t) : t.Typed terms type id := by
  refine ⟨var, made.found, made.isType, ?_⟩
  intro register held
  have fits := (stable.grows grows).sound.fits id var made.found
  unfold State.Fits at fits
  rw [held] at fits
  obtain ⟨changing, isScore, _⟩ := fits
  have own := made.score (made.isType ▸ isScore) (made.isUsage ▸ changing)
  rw [held] at own
  cases own
  have place := made.place.trans grows.current.symm
  refine ⟨stable.new_clear grows made.new made.found, Nat.le_of_eq place, fun _ _ _ => place, ?_⟩
  intro _ isInt
  right
  exact ⟨id, var, made.found, isInt, rfl⟩

private theorem enter_step (stable : s.Stable terms) (found : s.scopes.scopes[s.current]? = some scope)
    (admits : Admits terms s type usage name) (free : s.scopes.lookup s.current name = none) (access : Access)
    (pos : Position) : State.Step s (s.enterVar { type, access, usage, name, scope := s.current, position := pos }) :=
  .enter stable.below found admits.segment free
    (fun other => ⟨admits.unused free other, fun generated => admits.drawn other generated scope found⟩)
    admits.result

/-- A declaration makes a variable, and gives a score its register and an objective its members. -/
theorem declareInternal_behaves (stable : s.Stable terms) (admits : Admits terms s type usage name) :
    Behaves terms s (declareInternal type.name access usage name pos)
      (fun id t => ∃ var, Made s t type usage name id var) := by
  obtain ⟨scope, found⟩ := exists_of_lt_size stable.sound.current
  let var : Variable := { type, access, usage, name, scope := s.current, position := pos }
  unfold declareInternal
  refine .ok_bind (by rw [typeNamed_name]; rfl) ?_
  rcases runFrom_enterVariable_any s type access usage name pos with
    ⟨fault, ran, blameless⟩ | ⟨_, free, ran⟩
  · exact Ends.of_error (runFrom_bind_error ran _) (State.Grows.refl terms s) (blameless stable.sound.current)
  · have step : State.Step s (s.enterVar var) := enter_step stable found admits free access pos
    refine Ends.ok_bind ran ?_
    by_cases isScore : type = .int ∨ type = .bool
    · have allocate : allocate type s.vars.size = allocateScore s.vars.size := by
        rcases isScore with rfl | rfl <;> rfl
      rw [allocate]
      by_cases constant : usage = .constant
      · have kept : (allocateScore s.vars.size).runFrom (s.enterVar var) = (.ok (), s.enterVar var) := by
          simp only [allocateScore, runFrom_bind, runFrom_var (var_enterVar_new s var)]
          rw [if_pos constant]
          rfl
        refine Ends.ok_bind kept (Ends.pure ?_ ⟨.of_units rfl, var, ?_⟩)
        · exact .enterVar stable.sound step admits.unnamed (fun _ => constant)
        · exact ⟨var_enterVar_new s var, Nat.le_refl _, rfl, rfl, rfl, rfl,
            fun _ changing => absurd constant changing, fun _ _ => rfl⟩
      · have grows : State.Grows terms s (s.enterScore var) :=
          .enterScore stable.sound stable.usable step admits.unnamed isScore constant
        refine Ends.ok_bind (runFrom_allocateScore stable.sound stable.usable step rfl constant)
          (Ends.pure grows ⟨.of_units rfl, _, var_enterScore_new s var, Nat.le_refl _, rfl, rfl,
            rfl, rfl, ?_, ?_⟩)
        · intro _ _
          rw [grows.registerAt_eq stable.usable stable.sound stable.sound.current]
        · exact fun _ impossible => absurd (impossible isScore) constant
    · have grows : State.Grows terms s (s.enterVar var) :=
        .enterVar stable.sound step admits.unnamed (fun other => absurd other isScore)
      cases type with
      | int => exact absurd (.inl rfl) isScore
      | bool => exact absurd (.inr rfl) isScore
      | string =>
        refine Ends.ok_bind (runFrom_pure ()) (Ends.pure grows ⟨.of_units rfl, var, ?_⟩)
        exact ⟨var_enterVar_new s var, Nat.le_refl _, rfl, rfl, rfl, rfl,
          fun impossible => absurd impossible isScore, fun _ _ => rfl⟩
      | objective =>
        have members : Behaves terms (s.enterVar var) (allocateObjective s.vars.size)
            (fun _ t => ∃ later, t.vars[s.vars.size]? = some later ∧ var.Keeps later) :=
          (allocateObjective_behaves (stable.grows grows) (var_enterVar_new s var) rfl
            rfl).mono (fun _ _ later _ => later.vars _ var (var_enterVar_new s var))
        refine Ends.bind (members.after grows (.of_units rfl) stable) ?_
        rintro _ t grown ⟨covers, later, there, keeps⟩
        refine Ends.pure grown ⟨covers, later, there, Nat.le_refl _, keeps.type, keeps.usage, keeps.name,
          keeps.scope, fun impossible => absurd impossible isScore, ?_⟩
        exact fun impossible => absurd rfl impossible

theorem admits_generated (stable : s.Stable terms) (found : s.scopes.scopes[s.current]? = some scope) (type : ValueType)
    (usage : Usage) : Admits terms s.draw type usage (s.config.generatedName scope.drawn) where
  segment := s.config.isSegment_generatedName stable.usable scope.drawn
  unused := fun _ _ => stable.sound.unused_draw stable.below found
  drawn := by
    intro _ _ scope' found'
    rw [scope_draw found] at found'
    cases found'
    exact ⟨scope.drawn, Nat.lt_succ_self _, rfl⟩
  result := fun _ => s.config.isGenerated_generatedName scope.drawn
  unnamed := by
    rintro (mem | ⟨_, plain⟩)
    · obtain ⟨n, _, _, scope', _, called, found', drawn, _⟩ := stable.names _ mem
      rw [found] at found'
      cases found'
      have := s.config.generatedName_injective called
      omega
    · exact absurd (s.config.isGenerated_generatedName scope.drawn) (Bool.eq_false_iff.mp plain)

private theorem checkName_blameless (config : Config) : Blameless (checkName config name pos) := by
  unfold checkName
  dsimp only
  split
  · exact .error nofun
  · split
    · exact .error nofun
    · split
      · exact .error nofun
      · exact .ok ()

theorem checkName_eq_ok {config : Config} {pos : Position} (checked : checkName config name pos = .ok ()) :
    isIdentifier name = true ∧ config.isGenerated name = false := by
  unfold checkName at checked
  dsimp only at checked
  split at checked
  · cases checked
  · next identifier =>
      split at checked
      · cases checked
      · split at checked
        · cases checked
        · next plain =>
            exact ⟨by simpa using identifier, Bool.eq_false_iff.mpr plain⟩

theorem isSegment_of_isIdentifier (identifier : isIdentifier name = true) : IsSegment name := by
  unfold isIdentifier at identifier
  split at identifier
  · cases identifier
  · next c rest split =>
      simp only [Bool.and_eq_true, all_eq_true] at identifier
      refine ⟨by rw [split]; exact cons_ne_nil _ _, ?_⟩
      intro other mem
      rw [split] at mem
      rcases mem_cons.mp mem with rfl | later
      · rcases Bool.or_eq_true_iff.mp identifier.1 with letter | underscore
        · simp [isWordChar, Char.isAlphanum, letter]
        · simp [isWordChar, underscore]
      · exact identifier.2 other later

section

variable {terms : Terms} (stable : s.Stable terms)
include stable

private theorem admits_chosen {pos : Position} (checked : checkName s.config name pos = .ok ())
    (changing : terms.still = false) (type : ValueType) (chosen : usage ≠ .result) :
    Admits terms s type usage name := by
  obtain ⟨identifier, plain⟩ := checkName_eq_ok checked
  refine
    { segment := isSegment_of_isIdentifier identifier
      unused := fun free _ => stable.sound.unused_of_free stable.below plain free
      drawn := fun _ generated => ?_, result := fun result => absurd result chosen, unnamed := ?_ }
  · rw [plain] at generated
    cases generated
  · rintro (mem | ⟨still, _⟩)
    · obtain ⟨n, _, _, _, _, rfl, _⟩ := stable.names _ mem
      rw [s.config.isGenerated_generatedName] at plain
      cases plain
    · rw [changing] at still
      cases still

theorem declare_behaves (changing : terms.still = false) (chosen : usage ≠ .result) :
    Behaves terms s (declare type.name access usage name pos)
      (fun id t => ∃ var, Made s t type usage name id var) := by
  unfold declare
  refine .get_bind ?_
  cases checked : checkName s.config name pos with
  | error fault =>
    exact .of_error (runFrom_bind_error (runFrom_lift _) _) (checkName_blameless _ _ checked)
  | ok =>
    exact .ok_bind (runFrom_lift _)
      (declareInternal_behaves stable (admits_chosen stable checked changing type chosen))

private theorem anonymous_behaves : Behaves terms s (anonymous type.name usage pos)
      (fun id t => ∃ var name, Made s t type usage name id var ∧ s.config.isGenerated name = true) := by
  obtain ⟨scope, found⟩ := exists_of_lt_size stable.sound.current
  have grows : State.Grows terms s s.draw := .draw
  unfold anonymous
  refine .get_bind (Ends.ok_bind (runFrom_nextAnonymous found) ?_)
  have admits := admits_generated stable found type usage
  refine ((declareInternal_behaves (stable.grows grows) admits).mono ?_).after grows (.of_units rfl) stable
  rintro id t _ ⟨var, made⟩
  exact ⟨var, _, { made with }, s.config.isGenerated_generatedName _⟩

theorem temporary_behaves :
    Behaves terms s (temporary type.name pos) (fun id t => ∃ var name, Made s t type .ordinary name id var ∧
        s.config.isGenerated name = true) :=
  anonymous_behaves stable

theorem bindRegister_binds {register : Register} (serves : s.Serves register) :
    Behaves terms s (bindRegister ValueType.int.name register pos)
      (fun id t => ∃ var, t.vars[id]? = some var ∧ var.type = .int ∧
        var.value = .register register ∧ var.scope = t.current) := by
  unfold bindRegister
  refine Ends.bind (anonymous_behaves stable) ?_
  rintro id t grows ⟨covers, var, name, made, _⟩
  have step : State.Step t (t.onVar id (fun var => { var with value := .register register })) := by
    refine .value made.found (fun constant => ?_) ⟨?_, .inl made.isType,
      .inr ⟨made.isType, made.isUsage, grows.serves stable.usable stable.sound serves⟩⟩
    · rw [made.isUsage] at constant
      cases constant
    · simp [made.isUsage]
  refine Ends.ok_bind (runFrom_setValue made.found _) (Ends.pure (grows.moveNew made.new made.found made.isType step)
    ⟨covers, ?_⟩)
  refine ⟨{ var with value := .register register }, ?_, made.isType, rfl, ?_⟩
  · rw [vars_onVar, if_pos rfl, made.found]
    rfl
  · exact made.place.trans grows.current.symm

theorem bindRegister_behaves {register : Register} (spared : ¬ terms.isGuarded register) (takes : s.TakesAny register) :
    Behaves terms s (bindRegister ValueType.int.name register pos) (fun id t => t.Typed terms .int id) := by
  refine (bindRegister_binds stable takes.serves).mono ?_
  rintro id t grows ⟨var, found, isInt, held, place⟩
  refine ⟨var, found, isInt, ?_⟩
  intro other isOther
  rw [held] at isOther
  cases isOther
  have takes' := takes.keeps (grows.keepsTypes stable.usable stable.sound)
  exact ⟨spared, Nat.le_of_eq place, fun _ _ _ => place, fun _ _ => takes'⟩

end

def IsConstant (type : ValueType) (value : Value) : Prop :=
  match value with
  | .int score => type = .int ∨ type = .bool ∧ (score = 0 ∨ score = 1)
  | .text _ => type = .string
  | _ => False

theorem constant_behaves (stable : s.Stable terms) {value : Value} (isConstant : IsConstant type value) :
    Behaves terms s (constant type value pos)
      (fun id t => t.Typed terms type id ∧ ∃ var, t.vars[id]? = some var ∧ var.value = value) := by
  unfold constant
  refine Ends.bind (anonymous_behaves stable) ?_
  rintro id t grows ⟨covers, var, name, made, _⟩
  have unset : var.value = .unset := by
    refine made.unset ?_ (fun _ => rfl)
    rintro rfl
    cases value <;> simp [IsConstant] at isConstant
  have fits : t.Fits { var with value } := by
    cases value with
    | int score => exact ⟨made.isUsage, by rw [made.isType]; exact isConstant⟩
    | text text => exact made.isType.trans isConstant
    | unset => exact isConstant.elim
    | register register => exact isConstant.elim
    | objective id criterion => exact isConstant.elim
  have step : State.Step t (t.onVar id (fun var => { var with value })) :=
    .value made.found (fun _ => unset) fits
  have later : State.Grows terms t (t.onVar id (fun var => { var with value })) := by
    refine .onVar step ?_
    intro other found
    rw [made.found] at found
    cases found
    exact ⟨rfl, rfl, rfl, rfl, fun _ held => by simp [unset] at held,
      fun _ held => by simp [unset] at held⟩
  have there : (t.onVar id (fun var => { var with value })).vars[id]? = some { var with value } := by
    rw [vars_onVar, if_pos rfl, made.found]
    rfl
  refine Ends.ok_bind (runFrom_setValue made.found _)
    (Ends.pure (grows.trans later stable.usable stable.sound) ⟨covers, ?_, _, there, rfl⟩)
  refine ⟨_, there, made.isType, ?_⟩
  rintro register rfl
  exact isConstant.elim

end ScoreScript.Compile
