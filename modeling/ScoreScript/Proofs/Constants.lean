import ScoreScript.Proofs.Registration

/-!
# Constants are bound once

A constant gets its value once. Every place that writes a value asks first whether the variable is a
constant that has one, but for the criterion of an objective, which is put into a field without
asking; fields are never constants. So no operation changes a constant that has a value, whether it
succeeds or fails. A declaration of a constant score gives it a number that is known while compiling,
and enters no command of its own.
-/

namespace ScoreScript

open Engine

variable {engine : Engine} {s t : State} {name : String} {type : ValueType}
  {id result target value : VarId} {owner : Variable}

namespace State

def FieldsOpen (s : State) : Prop :=
  ∀ (id : Nat) (var : Variable) (name : String) (field : Nat), s.vars[id]? = some var →
    var.member? name = some (.field field) →
    ∃ other, s.vars[field]? = some other ∧ other.usage ≠ .constant

def KeepsConstants (s t : State) : Prop :=
  ∀ (id : Nat) (var : Variable), s.vars[id]? = some var → var.usage = .constant → var.value ≠ .unset →
    ∃ later, t.vars[id]? = some later ∧ later.usage = .constant ∧ later.value = var.value

variable {s t : State}

theorem KeepsConstants.refl (s : State) : s.KeepsConstants s :=
  fun _ var found constant _ => ⟨var, found, constant, rfl⟩

theorem FieldsOpen.enterVar (fields : s.FieldsOpen) {var : Variable} (members : var.members = []) :
    (s.enterVar var).FieldsOpen := by
  intro id owner name field found mem
  rcases var_enterVar_elim found with old | ⟨_, rfl⟩
  · obtain ⟨other, there, changing⟩ := fields id owner name field old mem
    exact ⟨other, var_enterVar_old var there, changing⟩
  · simp [Variable.member?, members] at mem

theorem FieldsOpen.onVar (fields : s.FieldsOpen) (id : Nat) {change : Variable → Variable}
    (usage : ∀ var, (change var).usage = var.usage)
    (members : ∀ var name field, (change var).member? name = some (.field field) →
      var.member? name = some (.field field) ∨ ∃ other, s.vars[field]? = some other ∧ other.usage ≠ .constant) :
    (s.onVar id change).FieldsOpen := by
  have later {field : Nat} (isOpen : ∃ other, s.vars[field]? = some other ∧ other.usage ≠ .constant) :
      ∃ other, (s.onVar id change).vars[field]? = some other ∧ other.usage ≠ .constant := by
    obtain ⟨other, there, changing⟩ := isOpen
    rw [vars_onVar, there]
    split
    · exact ⟨change other, rfl, by rw [usage]; exact changing⟩
    · exact ⟨other, rfl, changing⟩
  intro owner var name field found mem
  obtain ⟨before, there, ⟨_, rfl⟩ | ⟨_, rfl⟩⟩ := vars_onVar_elim found
  · exact later (fields owner _ name field there mem)
  · rcases members before name field mem with kept | isOpen
    · exact later (fields owner before name field there kept)
    · exact later isOpen

theorem KeepsConstants.onVar (keeps : s.KeepsConstants t) {id : Nat} {change : Variable → Variable}
    (same : ∀ var, t.vars[id]? = some var → var.usage = .constant → var.value ≠ .unset →
      (change var).usage = .constant ∧ (change var).value = var.value) : s.KeepsConstants (t.onVar id change) := by
  intro other var found constant bound
  obtain ⟨later, there, isConstant, value⟩ := keeps other var found constant bound
  rw [vars_onVar, there]
  split
  · next isTarget =>
      subst isTarget
      obtain ⟨usage, kept⟩ := same later there isConstant (value ▸ bound)
      exact ⟨change later, rfl, usage, kept.trans value⟩
  · exact ⟨later, rfl, isConstant, value⟩

theorem KeepsConstants.onValue (keeps : s.KeepsConstants t) {id : Nat}
    (free : ∀ var, t.vars[id]? = some var → var.usage = .constant → var.value = .unset) (value : Value) :
    s.KeepsConstants (t.onVar id (fun var => { var with value })) :=
  keeps.onVar (fun var found constant bound => absurd (free var found constant) bound)

private theorem steady_keepsConstants (s : State) : Steady False (fun t => t.FieldsOpen ∧ s.KeepsConstants t) where
  lines := False.elim
  aside := by
    rintro t u ⟨fields, keeps⟩ beside
    simp only [FieldsOpen, KeepsConstants, beside.vars]
    exact ⟨fields, keeps⟩
  scope := fun _ _ _ before => before
  nest := fun _ _ _ _ _ before => before
  unit := fun _ _ before => before
  enter := by
    rintro t type access usage name pos _ _ _ ⟨fields, keeps⟩
    refine ⟨fields.enterVar rfl, fun id old found constant bound => ?_⟩
    obtain ⟨later, there, rest⟩ := keeps id old found constant bound
    exact ⟨later, var_enterVar_old _ there, rest⟩
  detail := by
    rintro t id change kept ⟨fields, keeps⟩
    refine ⟨fields.onVar id (fun var => (kept var).1) (fun var name field mem => .inl ?_),
      keeps.onVar (fun var _ constant _ => ⟨(kept var).1.trans constant, (kept var).2.1⟩)⟩
    rw [Variable.member?, (kept var).2.2.1] at mem
    exact mem
  value := by
    rintro t id var value found free _ ⟨fields, keeps⟩
    refine ⟨fields.onVar id (fun _ => rfl) (fun _ _ _ => .inl), keeps.onValue (fun other there => ?_) value⟩
    rw [found] at there
    cases there
    exact free
  refer := by
    rintro t id owner objective criterion found free _ ⟨fields, keeps⟩
    have refreshed : (t.refresh owner criterion).FieldsOpen ∧ s.KeepsConstants (t.refresh owner criterion) := by
      unfold refresh
      split
      · next field mem =>
          obtain ⟨other, there, changing⟩ := fields id owner _ field found mem
          refine ⟨fields.onVar field (fun _ => rfl) (fun _ _ _ => .inl), keeps.onValue (fun var isField => ?_) _⟩
          rw [there] at isField
          cases isField
          exact fun constant => absurd constant changing
      · exact ⟨fields, keeps⟩
    refine ⟨refreshed.1.onVar id (fun _ => rfl) (fun _ _ _ => .inl),
      refreshed.2.onValue (fun var there constant => ?_) _⟩
    obtain ⟨value, there', isValue⟩ := vars_refresh found owner criterion
    rw [there] at there'
    cases there'
    rcases isValue with rfl | ⟨mem, rfl⟩
    · exact free constant
    · -- the variable would be its own field, and so no constant
      obtain ⟨other, isOther, changing⟩ := fields id owner _ id found mem
      rw [found] at isOther
      cases isOther
      exact absurd constant changing
  members := by
    rintro t id criterion var found changing ⟨fields, keeps⟩
    refine ⟨fields.onVar id (fun _ => rfl) (fun owner name field mem => .inr ?_),
      keeps.onVar (fun _ _ constant _ => ⟨constant, rfl⟩)⟩
    rw [← Compile.eq_of_objectiveMembers mem]
    exact ⟨var, found, changing⟩

end State

/-! ## Operations -/

/-- An operation, one of the parts that operations are made of, or several of them one after another. -/
inductive Compile.Action : {α : Type} → Compile α → Prop where
  | operation {α : Type} {step : Compile α} (operation : Operation step) : Action step
  | read {α : Type} (outcome : Except Fault α) : Action (liftM outcome : Compile α)
  | state : Action get
  | store (operand : Operand) (target : VarId) (pos : Position) :
      Action (store operand target pos)
  | storeText (text : String) (target : VarId) (pos : Position) :
      Action (storeText text target pos)
  | bindObjective (target : VarId) (id criterion : String) (pos : Position) :
      Action (bindObjective target id criterion pos)
  | compare (left : Operand) (op : Operator) (right : Operand) (pos : Position) :
      Action (compare left op right pos)
  | arithmetic (left : VarId) (op : Operator) (right : VarId) (pos : Position) :
      Action (arithmetic left op right pos)
  | bindParams (what : String) (params : List Param) (args : List VarId) (pos : Position) :
      Action (bindParams what params args pos)
  | nextObjective : Action nextObjective
  | claimObjective (id : String) (pos : Position) : Action (claimObjective id pos)
  | enter (emission : Emission) : Action (enter emission)
  | evaluateTree (generations depth : Nat) (tree : Tree) :
      Action ((ofDepth (generateWithin generations) depth).evaluateTree tree)
  | evaluateArguments (generations depth : Nat) (tree : Tree) :
      Action ((ofDepth (generateWithin generations) depth).evaluateArguments tree)
  | operateWord (generations depth : Nat) (target : VarId) (word : Tree) (rest : List Tree) :
      Action ((ofDepth (generateWithin generations) depth).operateWord target word rest)
  | writeDeclaration (generations depth : Nat) (items : List Tree) :
      Action ((ofDepth (generateWithin generations) depth).writeDeclaration items)
  | compileBlock (generations depth : Nat) (body : Tree) :
      Action ((ofDepth (generateWithin generations) depth).compileBlock body)
  | compileScript (generations depth : Nat) (script : String) (pos : Position) :
      Action ((ofDepth (generateWithin generations) depth).compileScript script pos)
  | compileEntry (generations depth : Nat) (text : String) :
      Action ((ofDepth (generateWithin generations) depth).compileEntry text)
  | inScope {α : Type} {step : Compile α} (scope : ScopeId) (inside : Action step) :
      Action (inScope scope step)
  | bind {α β : Type} {step : Compile α} {next : α → Compile β} (first : Action step)
      (rest : ∀ a, Action (next a)) : Action (step >>= next)

theorem State.Steady.action {holds : State → Prop} (steady : Steady False holds) {α : Type}
    {step : Compile α} (action : Compile.Action step) : Compile.Preserves False holds step (fun _ => True) := by
  have lasting := steady.lasting
  have engine := preserves_within lasting
  have composed {α : Type} {step : Position → Compile α} {post : α → Prop}
      (composed : Compile.Composed (.still False) step post) := lasting.composed rfl composed
  have same (tree : Tree) : Tree.Same (Footing.still False).place tree tree := .refl (fun _ => rfl) tree
  have sames (trees : List Tree) : Tree.Sames (Footing.still False).place trees trees :=
    .refl (fun _ => rfl) trees
  induction action with
  | operation operation => exact lasting.operation operation
  | read outcome => exact .known outcome (fun _ _ _ => trivial)
  | state => exact lasting.get.forget
  | store => exact (lasting.store False.elim).forget
  | storeText => exact lasting.storeText
  | bindObjective target id criterion pos =>
    intro s before
    cases found : s.vars[target]? with
    | none => exact .of_error (Compile.runFrom_bind_error (Compile.runFrom_var_absent found) _) before
    | some owner =>
      rcases Compile.runFrom_bindObjective found id criterion pos with ⟨fault, ran⟩ | ⟨free, ran⟩
      · exact .of_error ran before
      · refine .of_ok ran ?_ ⟨?_, fun _ => trivial⟩
        all_goals exact steady.refer criterion found free False.elim before
  | compare _ op => exact composed (.compare False.elim op False.elim) _
  | arithmetic => exact composed .arithmetic _
  | bindParams =>
    exact lasting.bindParams (fun _ => composed .castAll _) (fun _ _ => composed .copyTo _) False.elim
  | nextObjective =>
    intro s before
    have passed (n : UInt64) : holds { s with nextObjective := n } := steady.aside before (.of_same rfl rfl rfl)
    exact .of_ok rfl (passed _) ⟨passed _, fun _ => trivial⟩
  | claimObjective => exact lasting.claimObjective
  | enter => exact lasting.logged False.elim
  | evaluateTree generations depth tree =>
    exact (engine generations depth).runs lasting (.evaluateTree (same tree) False.elim)
  | evaluateArguments generations depth tree =>
    exact (engine generations depth).runs lasting (.evaluateArguments (same tree) False.elim)
  | operateWord generations depth target word rest =>
    exact (engine generations depth).runs lasting
      (.applyTrailer .operation target (sames (word :: rest)) False.elim (p := word.position) rfl)
  | writeDeclaration generations depth items =>
    exact (engine generations depth).runs lasting (.writeDeclaration (sames items) rfl False.elim)
  | compileBlock generations depth =>
    exact ((engine generations depth).runs lasting (.compileUnit (.refl (fun _ => rfl) _) False.elim rfl)).forget
  | compileScript generations depth script pos =>
    exact ((engine generations depth).runs lasting (.compileScript_still script pos)).forget
  | compileEntry generations depth text => exact (engine generations depth).compileEntry lasting text
  | inScope scope _ inside => exact lasting.inScope scope inside
  | bind _ _ first rest => exact first.bind (fun a _ => rest a)

/-- What becomes of a state by actions. -/
abbrev State.Follows (s t : State) : Prop :=
  s.LeadsTo @Compile.Action t

theorem State.Steady.follows {holds : State → Prop} (steady : Steady False holds)
    (follows : s.Follows t) (before : holds s) : holds t :=
  steady.lasting.leadsTo steady.action follows before

/-! ## Declarations -/

namespace Compile

open State

variable {s t : State} {pos : Position}

private theorem emitted_enterVar (s : State) (var : Variable) : (s.enterVar var).emitted = s.emitted := by
  simp [State.emitted, State.enterVar, ScopeTree.enter, ScopeTree.bindName, ScopeTree.modifyScope]

theorem declareInternal_constant (isScore : type = .int ∨ type = .bool) {access : Access}
    (ran : (declareInternal type.name access .constant name pos).runFrom s = (.ok id, t)) :
    s.current < s.scopes.size ∧ s.scopes.lookup s.current name = none ∧ id = s.vars.size ∧
      t = s.enterVar { type, access, usage := .constant, name, scope := s.current, position := pos } := by
  rw [declareInternal, runFrom_bind_ok (by rw [runFrom_lift, typeNamed_name])] at ran
  obtain ⟨_, u, entered, ran⟩ := runFrom_bind_eq_ok.mp ran
  rcases runFrom_enterVariable_any s type access .constant name pos with
    ⟨fault, failed, _⟩ | ⟨inside, free, made⟩
  · rw [failed] at entered
    cases entered
  · rw [made] at entered
    cases entered
    have allocated : (allocate type s.vars.size).runFrom
        (s.enterVar { type, access, usage := .constant, name, scope := s.current, position := pos }) =
        (.ok (), s.enterVar { type, access, usage := .constant, name, scope := s.current, position := pos }) := by
      rcases isScore with rfl | rfl
      · rw [allocate, allocateScore, runFrom_bind_ok (runFrom_var (var_enterVar_new s _)), if_pos rfl]
        rfl
      · rw [allocate, allocateScore, runFrom_bind_ok (runFrom_var (var_enterVar_new s _)), if_pos rfl]
        rfl
    rw [runFrom_bind_ok allocated] at ran
    cases ran
    exact ⟨inside, free, rfl, rfl⟩

private theorem declare_constant (isScore : type = .int ∨ type = .bool) {access : Access}
    (ran : (declare type.name access .constant name pos).runFrom s = (.ok id, t)) :
    s.current < s.scopes.size ∧ s.scopes.lookup s.current name = none ∧ id = s.vars.size ∧
      t = s.enterVar { type, access, usage := .constant, name, scope := s.current, position := pos } := by
  rw [declare, runFrom_bind_ok runFrom_get] at ran
  cases checked : checkName s.config name pos with
  | error fault =>
    rw [runFrom_bind_error (by rw [runFrom_lift, checked])] at ran
    cases ran
  | ok =>
    rw [runFrom_bind_ok (by rw [runFrom_lift, checked])] at ran
    exact declareInternal_constant isScore ran

private theorem constant_silent (isScore : type = .int ∨ type = .bool) {value : Value}
    (ran : (constant type value pos).runFrom s = (.ok id, t)) : Extends s t ∧ t.emitted = s.emitted := by
  obtain ⟨_, _, _, made⟩ := valued_leads.of_ran ran
  refine ⟨made.ext, ?_⟩
  obtain ⟨_, u, declared, ran⟩ := runFrom_bind_eq_ok.mp ran
  rw [anonymous, runFrom_bind_ok runFrom_get] at declared
  obtain ⟨name, m, drawn, declared⟩ := runFrom_bind_eq_ok.mp declared
  cases found : s.scopes.scopes[s.current]? with
  | none =>
    simp only [runFrom_onScopes, ScopeTree.nextAnonymous, Fault.run_bind, Fault.run_get, ScopeTree.scope,
      found, Fault.run_lift] at drawn
    cases drawn
  | some scope =>
    rw [runFrom_nextAnonymous found] at drawn
    cases drawn
    obtain ⟨_, _, rfl, rfl⟩ := declareInternal_constant isScore declared
    rw [runFrom_bind_ok (runFrom_setValue (var_enterVar_new _ _) value)] at ran
    cases ran
    exact emitted_enterVar s.draw _

private theorem value_of_setValue {value : Value} (ran : (setValue id value).runFrom s = (.ok (), t)) :
    ∃ var, t.vars[id]? = some var ∧ var.value = value := by
  obtain ⟨owner, found, _⟩ := runFrom_var_bind_eq_ok ran
  rw [runFrom_setValue found] at ran
  cases ran
  exact ⟨{ owner with value }, by rw [vars_onVar, if_pos rfl, found]; rfl, rfl⟩

private theorem operand_of_ran {src : Operand} (ran : (operand id pos).runFrom s = (.ok src, t)) :
    t = s ∧ ∀ score, src = .constant score → ∃ var, s.vars[id]? = some var ∧ var.value = .int score := by
  obtain ⟨owner, found, ran⟩ := runFrom_var_bind_eq_ok ran
  cases value : owner.value with
  | int known =>
    rw [value] at ran
    cases ran
    refine ⟨rfl, ?_⟩
    rintro _ ⟨⟩
    exact ⟨owner, found, value⟩
  | register register =>
    rw [value] at ran
    cases ran
    exact ⟨rfl, by rintro _ ⟨⟩⟩
  | unset | text | objective =>
    rw [value] at ran
    cases ran

private theorem registerOf?_of_ran {register : Register} (ran : (registerOf? id).runFrom s = (.ok (some register), t)) :
    t = s ∧ ∃ var, s.vars[id]? = some var ∧ var.value = .register register := by
  obtain ⟨owner, found, _⟩ := runFrom_var_bind_eq_ok ran
  rw [runFrom_registerOf? found] at ran
  cases value : owner.value with
  | register other =>
    rw [value] at ran
    cases ran
    exact ⟨rfl, owner, found, value⟩
  | unset | int | text | objective =>
    rw [value] at ran
    cases ran

private theorem extends_emit (s : State) (cmds : List Command) : Extends s ((emit cmds).runFrom s).2 := by
  unfold emit
  split
  · exact .refl s
  · exact .of_calm rfl rfl rfl rfl rfl (ScopeTree.emit_isCalm _ _ _)

def Settles (s t : State) (result : VarId) : Prop :=
  Extends s t ∧ ∀ var score, t.vars[result]? = some var → var.value = .int score → t.emitted = s.emitted

private theorem boolToInt_settles (ran : (boolToInt value pos).runFrom s = (.ok result, t)) : Settles s t result := by
  obtain ⟨src, u, read, ran⟩ := runFrom_bind_eq_ok.mp ran
  obtain ⟨rfl, _⟩ := operand_of_ran read
  cases src with
  | constant score =>
    obtain ⟨ext, silent⟩ := constant_silent (.inl rfl) ran
    exact ⟨ext, fun _ _ _ _ => silent⟩
  | resident register =>
    obtain ⟨_, _, _, made⟩ := valued_leads.of_ran ran
    refine ⟨made.ext, fun var score found known => ?_⟩
    obtain ⟨_, _, _, ran⟩ := runFrom_bind_eq_ok.mp ran
    obtain ⟨_, _, set, ran⟩ := runFrom_bind_eq_ok.mp ran
    cases ran
    obtain ⟨held, there, inRegister⟩ := value_of_setValue set
    rw [found] at there
    cases there
    rw [known] at inRegister
    cases inRegister

private theorem intToBool_settles (ran : (intToBool value pos).runFrom s = (.ok result, t)) : Settles s t result := by
  obtain ⟨src, u, read, ran⟩ := runFrom_bind_eq_ok.mp ran
  obtain ⟨rfl, _⟩ := operand_of_ran read
  cases src with
  | constant score =>
    obtain ⟨ext, silent⟩ := constant_silent (.inr rfl) ran
    exact ⟨ext, fun _ _ _ _ => silent⟩
  | resident register =>
    obtain ⟨temp, v, made, ran⟩ := runFrom_bind_eq_ok.mp ran
    obtain ⟨_, _, _, _, introduced⟩ := anonymous_leads.of_ran made
    obtain ⟨target, w, asked, ran⟩ := runFrom_bind_eq_ok.mp ran
    cases target with
    | none => cases ran
    | some target =>
      obtain ⟨_, _, entered, gave⟩ := runFrom_bind_eq_ok.mp ran
      cases gave
      obtain ⟨rfl, held, there, inRegister⟩ := registerOf?_of_ran asked
      have ext := extends_emit w [.set target 0, .guarded false (.inRange register (.exactly 0)) (.set target 1)]
      rw [entered] at ext
      refine ⟨introduced.ext.trans ext, fun var score found known => ?_⟩
      rw [ext.old _ held there] at found
      cases found
      rw [known] at inRegister
      cases inRegister

private theorem cast_settles (isScore : type = .int ∨ type = .bool)
    (ran : (Compile.cast value type.name pos).runFrom s = (.ok result, t)) : Settles s t result := by
  obtain ⟨owner, there, ran⟩ := runFrom_var_bind_eq_ok ran
  by_cases same : owner.type.name = type.name
  · rw [if_pos same] at ran
    cases ran
    exact ⟨.refl s, fun _ _ _ _ => rfl⟩
  rw [if_neg same, ConversionGraph.lookup_standard] at ran
  rcases isScore with rfl | rfl
  · cases isType : owner.type with
    | int => exact absurd (congrArg ValueType.name isType) same
    | bool =>
      rw [isType] at ran
      exact boolToInt_settles ran
    | string | objective =>
      rw [isType] at ran
      cases ran
  · cases isType : owner.type with
    | int =>
      rw [isType] at ran
      exact intToBool_settles ran
    | bool => exact absurd (congrArg ValueType.name isType) same
    | string | objective =>
      rw [isType] at ran
      cases ran

private theorem store_constant (found : s.vars[target]? = some owner)
    (isScore : owner.type = .int ∨ owner.type = .bool) (constant : owner.usage = .constant)
    (unset : owner.value = .unset) {cmds : List Command}
    (ran : (do store (← operand value pos) target pos).runFrom s = (.ok cmds, t)) :
    cmds = [] ∧ (∃ var n, s.vars[value]? = some var ∧ var.value = .int n) ∧
      ∃ score, t = s.onVar target (fun var => { var with value := .int score }) ∧
        (owner.type = .bool → score = 0 ∨ score = 1) := by
  obtain ⟨src, u, read, stored⟩ := runFrom_bind_eq_ok.mp ran
  obtain ⟨rfl, given⟩ := operand_of_ran read
  unfold store at stored
  rw [runFrom_bind_ok (runFrom_var found), unset] at stored
  have set {score : Score} (ran : (do setValue target (.int score); return ([] : List Command)).runFrom u =
      (.ok cmds, t)) : cmds = [] ∧ t = u.onVar target (fun var => { var with value := .int score }) := by
    rw [runFrom_bind_ok (runFrom_setValue found _)] at ran
    cases ran
    exact ⟨rfl, rfl⟩
  cases src with
  | constant score =>
    obtain ⟨var, there, known⟩ := given score rfl
    rcases isScore with isInt | isBool
    · rw [isInt] at stored
      obtain ⟨none, rfl⟩ := set stored
      exact ⟨none, ⟨var, score, there, known⟩, score, rfl, fun isBool => by rw [isInt] at isBool; cases isBool⟩
    · rw [isBool] at stored
      obtain ⟨none, rfl⟩ := set stored
      refine ⟨none, ⟨var, score, there, known⟩, _, rfl, fun _ => ?_⟩
      split
      · exact .inl rfl
      · exact .inr rfl
  | resident register =>
    have kept : Compile.normalize owner.type (.resident register) = .resident register := by
      rcases isScore with isType | isType
      · rw [isType]
        rfl
      · rw [isType]
        rfl
    rw [kept] at stored
    dsimp only at stored
    rw [if_pos constant] at stored
    cases stored

private theorem copyTo_truth (found : s.vars[target]? = some owner) (isBool : owner.type = .bool)
    {cmds : List Command} (ran : (copyTo value target pos).runFrom s = (.ok cmds, t)) :
    (do store (← operand value pos) target pos).runFrom s = (.ok cmds, t) := by
  obtain ⟨src, _, ran⟩ := runFrom_var_bind_eq_ok ran
  cases isType : src.type with
  | int | objective =>
    rw [isType] at ran
    dsimp only at ran
    rw [runFrom_bind_ok (runFrom_var found), isBool] at ran
    cases ran
  | bool =>
    rw [isType] at ran
    dsimp only at ran
    rw [runFrom_bind_ok (runFrom_var found), isBool] at ran
    exact ran
  | string =>
    rw [isType] at ran
    obtain ⟨text, u, read, stored⟩ := runFrom_bind_eq_ok.mp ran
    obtain ⟨_, rfl⟩ := (@textOf_acts ⟨False, True⟩ s value pos).of_ran read
    unfold storeText at stored
    rw [bind_assoc, runFrom_bind_ok (runFrom_var found), isBool] at stored
    cases stored

end Compile

theorem Engine.operate_constant {pos : Position} (found : s.vars[target]? = some owner)
    (isScore : owner.type = .int ∨ owner.type = .bool) (constant : owner.usage = .constant)
    (unset : owner.value = .unset) (ran : (engine.operate target .assign value pos).runFrom s = (.ok result, t)) :
    ∃ u score, State.Extends s u ∧ t = u.onVar target (fun var => { var with value := .int score }) ∧
      t.emitted = s.emitted ∧ (owner.type = .bool → score = 0 ∨ score = 1) := by
  -- both types convert the value and then store it, with nothing left to enter
  have settled {cast : VarId} {u v : State} {cmds : List Command}
      (casted : (Compile.cast value owner.type.name pos).runFrom s = (.ok cast, u))
      (stored : (do Compile.store (← Compile.operand cast pos) target pos).runFrom u =
        (.ok cmds, v))
      (entered : (do Compile.emit cmds; return target).runFrom v = (.ok result, t)) :
      ∃ u score, State.Extends s u ∧ t = u.onVar target (fun var => { var with value := .int score }) ∧
        t.emitted = s.emitted ∧ (owner.type = .bool → score = 0 ∨ score = 1) := by
    obtain ⟨ext, silent⟩ := Compile.cast_settles isScore casted
    obtain ⟨rfl, ⟨var, n, there, known⟩, score, rfl, bit⟩ :=
      Compile.store_constant (ext.old target owner found) isScore constant unset stored
    cases entered
    exact ⟨u, score, ext, rfl, silent var n there known, bit⟩
  unfold operate at ran
  rw [if_neg (by decide), Compile.runFrom_bind_ok (Compile.runFrom_var found)] at ran
  rcases isScore with isInt | isBool
  · rw [isInt] at ran settled ⊢
    obtain ⟨cast, u, casted, ran⟩ := Compile.runFrom_bind_eq_ok.mp ran
    obtain ⟨src, w, read, ran⟩ := Compile.runFrom_bind_eq_ok.mp ran
    obtain ⟨cmds, v, stored, entered⟩ := Compile.runFrom_bind_eq_ok.mp ran
    exact settled casted ((Compile.runFrom_bind_ok read _).trans stored) entered
  · rw [isBool] at ran settled ⊢
    obtain ⟨cast, u, casted, ran⟩ := Compile.runFrom_bind_eq_ok.mp ran
    obtain ⟨cmds, v, copied, entered⟩ := Compile.runFrom_bind_eq_ok.mp ran
    have ext := (Compile.cast_settles (.inr rfl) casted).1
    exact settled casted (Compile.copyTo_truth (ext.old target owner found) isBool copied) entered

theorem Engine.initialValue_of_ran {rest : List Tree} {given : VarId}
    (ran : (engine.initialValue name rest).runFrom s = (.ok (some given), t)) :
    ∃ (eq : Tree) (value : List Tree), rest = eq :: value ∧ eq.isWord "=" = true ∧
      (engine.evaluateItems value eq.position).runFrom s = (.ok given, t) := by
  cases rest with
  | nil => cases ran
  | cons eq value =>
    unfold initialValue at ran
    dsimp only at ran
    split at ran
    · next isEquals =>
        obtain ⟨_, _, evaluated, gave⟩ := Compile.runFrom_bind_eq_ok.mp ran
        cases gave
        exact ⟨eq, value, rfl, isEquals, evaluated⟩
    · cases ran

/-- Between the two states a name was bound to a new constant score, without a command. -/
structure State.Binds (s t : State) (type : ValueType) (name : String) (id : VarId) (score : Score) :
    Prop where
  place : t.current = s.current
  new : s.vars.size ≤ id
  named : t.scopes.lookup t.current name = some id
  known : ∃ var, t.vars[id]? = some var ∧ var.type = type ∧ var.usage = .constant ∧ var.value = .int score
  truth : type = .bool → score = 0 ∨ score = 1
  silent : t.emitted = s.emitted

/-- A declaration of a constant score that succeeds evaluates what stands behind its equals sign, and
binds the name then. -/
theorem Engine.writeDeclaration_constant {items rest : List Tree} {access : Option Access}
    {typeToken nameToken : Token} (isScore : type = .int ∨ type = .bool) (read : Compile.readModifiers none none items =
      .ok (access, some .constant, .leaf typeToken :: .leaf nameToken :: rest)) (isType : typeToken.text = type.name)
    (ran : (engine.writeDeclaration items).runFrom s = (.ok (), t)) :
    ∃ (eq : Tree) (value : List Tree) (given : VarId) (evaluated : State) (id : VarId) (score : Score),
      rest = eq :: value ∧ eq.isWord "=" = true ∧
      (engine.evaluateItems value eq.position).runFrom s = (.ok given, evaluated) ∧
      evaluated.Binds t type nameToken.text id score := by
  have named : Compile.typeNamed typeToken.text typeToken.position = .ok type := by
    rw [isType, Compile.typeNamed_name]
  simp only [writeDeclaration, read, Compile.runFrom_bind, Compile.runFrom_lift, Tree.asLeaf, named] at ran
  rcases initial : (engine.initialValue nameToken.text rest).runFrom s with ⟨fault | given, evaluated⟩
  · rw [initial] at ran
    cases ran
  rw [initial] at ran
  dsimp only [Option.getD_some] at ran
  rcases declared : (Compile.declare type.name (access.getD .hidden) .constant nameToken.text
    nameToken.position).runFrom evaluated with ⟨fault | id, u⟩
  · rw [declared] at ran
    cases ran
  rw [declared] at ran
  cases given with
  | none => cases ran
  | some given =>
  obtain ⟨_, _, operated, done⟩ := Compile.runFrom_bind_eq_ok.mp ran
  cases done
  obtain ⟨eq, value, isRest, isEquals, evaluates⟩ := initialValue_of_ran initial
  obtain ⟨inside, free, rfl, rfl⟩ := Compile.declare_constant isScore declared
  obtain ⟨v, score, ext, rfl, silent, bit⟩ := operate_constant
    (State.var_enterVar_new evaluated _) isScore rfl rfl operated
  have there : (v.onVar evaluated.vars.size (fun var => { var with value := .int score })).vars[
      evaluated.vars.size]? = some { type, access := access.getD .hidden, usage := .constant
                                     name := nameToken.text, scope := evaluated.current
                                     position := nameToken.position, value := .int score } := by
    rw [State.vars_onVar, if_pos rfl, ext.old _ _ (State.var_enterVar_new evaluated _)]
    rfl
  have bound := ScopeTree.lookup_bindName evaluated.scopes evaluated.current evaluated.current
    nameToken.text nameToken.text evaluated.vars.size inside
  rw [if_pos rfl, if_pos rfl, free] at bound
  exact ⟨eq, value, given, evaluated, evaluated.vars.size, score, isRest, isEquals, evaluates,
    { place := ext.current
      new := Nat.le_refl _
      named := ext.current.symm ▸ ext.kept _ _ _ bound
      known := ⟨_, there, rfl, rfl, rfl⟩
      truth := bit
      silent := silent.trans (Compile.emitted_enterVar _ _) }⟩

/-! ## Every state -/

theorem State.Follows.fieldsOpen {config : Config} {src : Nat}
    (reachable : (State.start config src).Follows s) : s.FieldsOpen := by
  refine ((steady_keepsConstants (State.start config src)).follows reachable ⟨?_, .refl _⟩).1
  intro id var name field found
  cases found

/-- The constants of `s`, and those declared next, keep their values. -/
structure State.BindsOnce (s : State) : Prop where
  keeps : ∀ t : State, s.Follows t → s.KeepsConstants t
  declares : ∀ (generations depth : Nat) (items rest : List Tree) (access : Option Access) (typeToken nameToken : Token)
      (type : ValueType) (t : State),
    type = .int ∨ type = .bool →
    Compile.readModifiers none none items =
      .ok (access, some .constant, .leaf typeToken :: .leaf nameToken :: rest) →
    typeToken.text = type.name →
    ((ofDepth (generateWithin generations) depth).writeDeclaration items).runFrom s = (.ok (), t) →
    ∃ (eq : Tree) (value : List Tree) (given : VarId) (evaluated : State) (id : VarId) (score : Score),
      rest = eq :: value ∧
      eq.isWord "=" = true ∧
      ((ofDepth (generateWithin generations) depth).evaluateItems value eq.position).runFrom s = (.ok given, evaluated) ∧
      evaluated.Binds t type nameToken.text id score ∧
      ∀ u : State, t.Follows u → ∃ var, u.vars[id]? = some var ∧ var.usage = .constant ∧ var.value = .int score

/-- Constants are bound once. In every state that actions lead to, no later actions, successful or not,
change a constant that has a value. A declaration of a constant score that succeeds there enters no
command for its variable: what stands behind the equals sign is evaluated before the variable is there,
and nothing is entered after that. The variable has a number, which is 0 or 1 for a truth value, and
keeps it in every state that follows. -/
private theorem follows_bindsOnce {config : Config} {src : Nat} {s : State}
    (reachable : (State.start config src).Follows s) : s.BindsOnce := by
  have keeps {s t : State} (fields : s.FieldsOpen) (later : s.Follows t) : s.KeepsConstants t :=
    ((State.steady_keepsConstants s).follows later ⟨fields, .refl s⟩).2
  refine ⟨fun t => keeps reachable.fieldsOpen, ?_⟩
  intro generations depth items rest access typeToken nameToken type t isScore read isType ran
  obtain ⟨eq, value, given, evaluated, id, score, isRest, isEquals, evaluates, binds⟩ :=
    writeDeclaration_constant isScore read isType ran
  refine ⟨eq, value, given, evaluated, id, score, isRest, isEquals, evaluates, binds, fun u later => ?_⟩
  have after : (State.start config src).Follows t := by
    have followed := reachable.act (.writeDeclaration generations depth items)
    rwa [ran] at followed
  obtain ⟨var, found, _, constant, known⟩ := binds.known
  obtain ⟨last, there, isConstant, same⟩ :=
    keeps after.fieldsOpen later id var found constant (by rw [known]; rintro ⟨⟩)
  exact ⟨last, there, isConstant, same.trans known⟩

/-- A constant truth value is declared by a number, and then assigned it again, which fails. -/
theorem follows_bindsOnce_again :
    let engine := ofDepth (generateWithin 1) 8
    let opened := (Compile.openEntry.runFrom (State.start {} 0)).2
    let items := ["const", "bool", "b", "=", "5"].map (fun text => Tree.leaf ⟨text, default⟩)
    let declared := (engine.writeDeclaration items).runFrom opened
    let again := (engine.operate 1 .assign 0 default).runFrom declared.2
    again.1.isOk = false ∧ (again.2.vars[1]?.map (·.value)) = some (.int 1) ∧ declared.2.KeepsConstants again.2 ∧
      ∃ (evaluated : State) (id : VarId) (score : Score), evaluated.Binds declared.2 .bool "b" id score ∧
        ∃ var, again.2.vars[id]? = some var ∧ var.usage = .constant ∧ var.value = .int score := by
  intro engine opened items declared again
  have reachable : (State.start {} 0).Follows opened := State.LeadsTo.refl.act (.operation .openEntry)
  have later : declared.2.Follows again.2 :=
    State.LeadsTo.refl.act (.operation (.operate 1 8 1 .assign 0 default))
  have succeeds : declared = (.ok (), declared.2) := by
    have isOk : declared.1.isOk = true := by decide +kernel
    cases outcome : declared.1 with
    | ok => rw [← outcome]
    | error fault =>
      rw [outcome] at isOk
      cases isOk
  obtain ⟨_, _, _, evaluated, id, score, _, _, _, binds, keeps⟩ := (follows_bindsOnce reachable).declares 1 8 items _
    none ⟨"bool", default⟩ ⟨"b", default⟩ .bool declared.2 (.inr rfl) rfl rfl succeeds
  have followed : (State.start {} 0).Follows declared.2 := reachable.act (.writeDeclaration 1 8 items)
  exact ⟨by decide +kernel, by decide +kernel, (follows_bindsOnce followed).keeps again.2 later, evaluated, id, score,
    binds, keeps again.2 later⟩

end ScoreScript
