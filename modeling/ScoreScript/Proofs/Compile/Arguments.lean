import Mathlib.Data.List.Forall2
import ScoreScript.Proofs.Compile.Additions
import ScoreScript.Proofs.Compile.Conversion

/-!
# Binding arguments

Whether arguments can be bound to parameters is a matter of their types and of what is known of their
values: `bindFault?` says what is wrong with them. In a scope whose names are free, binding fails with
just that fault, and otherwise makes the parameters.
-/

namespace ScoreScript

open List

variable {args : List VarId} {position : Position} {type : ValueType} {id : VarId} {var : Variable}
  {value : Value}

namespace Variable

def scoreFault? (var : Variable) (position : Position) : Option Fault :=
  match var.value with
  | .int _ | .register _ => none
  | .unset => some ⟨.unassignedVariable var.name, position⟩
  | .text _ | .objective .. => some ⟨.notAScore var.describe var.value, position⟩

/-- What keeps a variable from being copied to another one of its type. -/
def readFault? (var : Variable) (position : Position) : Option Fault :=
  match var.type, var.value with
  | .int, _ | .bool, _ => var.scoreFault? position
  | .string, .text _ => none
  | .string, .unset => some ⟨.unassignedVariable var.name, position⟩
  | .string, value => some ⟨.notAText var.describe value, position⟩
  | .objective, .objective .. => none
  | .objective, _ => some ⟨.unassignedObjective var.name, position⟩

/-- What keeps a variable from being converted to a type. Truth values and numbers are converted to each
other as far as they are scores, and a number that is known has a text. -/
def conversionFault? (var : Variable) (target : String) (position : Position) : Option Fault :=
  if var.type.name = target then none
  else match var.type, ValueType.ofName? target with
    | .int, some .bool | .bool, some .int => var.scoreFault? position
    | .int, some .string =>
      match var.value with
      | .int _ => none
      | _ => some ⟨.cannotCast var.describe target, position⟩
    | _, _ => some ⟨.cannotCast var.describe target, position⟩

theorem readFault?_of_score (isScore : var.type = .int ∨ var.type = .bool) (position : Position) :
    var.readFault? position = var.scoreFault? position := by
  rcases isScore with isType | isType <;> rw [readFault?, isType]

theorem scoreFault?_eq_none (held : (∃ score, var.value = .int score) ∨
    ∃ register, var.value = .register register) (position : Position) : var.scoreFault? position = none := by
  rcases held with ⟨_, isValue⟩ | ⟨_, isValue⟩ <;> rw [scoreFault?, isValue]

end Variable

/-- What is wrong with binding variables to parameters. All are converted before any is read. -/
def bindFault? (what : String) (params : List Param) (vars : List Variable) (position : Position) : Option Fault :=
  let pairs := params.zip vars
  if params.length ≠ vars.length then
    some ⟨.wrongArgumentCount what (toString params.length) vars.length, position⟩
  else
    (pairs.findSome? (fun pair => pair.2.conversionFault? pair.1.type position)).or
      (pairs.findSome? (fun pair => pair.2.readFault? position))

def State.IsParam (s : State) (scope : ScopeId) (param : Param) (id : VarId) : Prop :=
  ∃ var, s.vars[id]? = some var ∧ var.type.name = param.type ∧ var.name = param.name ∧
    var.usage = .parameter ∧ var.scope = scope

namespace Compile

open State

variable {α β : Type} {s : State}

/-- The step fails with the fault that is given, or succeeds where none is given. Either way it only
adds to the state. -/
def Concludes (s : State) (step : Compile α) (fault? : Option Fault) (chosen : List String)
    (post : α → State → Prop) : Prop :=
  ∃ t lines, s.Adds chosen t lines ∧
    match fault? with
    | some fault => step.runFrom s = (.error fault, t)
    | none => ∃ a, step.runFrom s = (.ok a, t) ∧ post a t

namespace Concludes

variable {step : Compile α} {fault? later? : Option Fault} {chosen chosen' : List String}
  {post : α → State → Prop}

theorem of_ok {a : α} {t : State} {lines : List Command} (ran : step.runFrom s = (.ok a, t))
    (adds : s.Adds chosen t lines) (result : post a t) : Concludes s step none chosen post :=
  ⟨t, lines, adds, a, ran, result⟩

theorem pure {a : α} (result : post a s) : Concludes s (Pure.pure a) none [] post :=
  of_ok rfl (.refl s) result

theorem throw (fault : Fault) : Concludes s (MonadExcept.throw fault : Compile α) (some fault) chosen post :=
  ⟨s, [], (Adds.refl s).mono (nil_subset _), rfl⟩

theorem mono {post' : α → State → Prop} (concludes : Concludes s step fault? chosen post)
    (results : ∀ a t, post a t → post' a t) : Concludes s step fault? chosen post' := by
  obtain ⟨t, lines, adds, outcome⟩ := concludes
  refine ⟨t, lines, adds, ?_⟩
  cases fault? with
  | some fault => exact outcome
  | none =>
    obtain ⟨a, ran, result⟩ := outcome
    exact ⟨a, ran, results a t result⟩

variable {next : α → Compile β}

theorem ok_bind {post : β → State → Prop} {a : α} (ran : step.runFrom s = (.ok a, s))
    (rest : Concludes s (next a) fault? chosen post) : Concludes s (step >>= next) fault? chosen post := by
  rw [Concludes, runFrom_bind_ok ran]
  exact rest

theorem bind {m : α → State → Prop} {post : β → State → Prop} (first : Concludes s step fault? chosen m)
    (rest : ∀ a t lines, s.Adds chosen t lines → m a t → Concludes t (next a) later? chosen' post) :
    Concludes s (step >>= next) (fault?.or later?) (chosen ++ chosen') post := by
  obtain ⟨t, lines, adds, outcome⟩ := first
  cases fault? with
  | some fault =>
    exact ⟨t, lines, adds.mono (subset_append_left _ _), runFrom_bind_error outcome next⟩
  | none =>
    obtain ⟨a, ran, result⟩ := outcome
    obtain ⟨u, more, adds', outcome⟩ := rest a t lines adds result
    rw [Concludes, runFrom_bind_ok ran]
    exact ⟨u, lines ++ more, adds.trans adds', outcome⟩

theorem map {next : α → β} {post' : β → State → Prop} (concludes : Concludes s step fault? chosen post)
    (results : ∀ a t lines, s.Adds chosen t lines → post a t → post' (next a) t) :
    Concludes s (do return next (← step)) fault? chosen post' := by
  obtain ⟨t, lines, adds, outcome⟩ := concludes
  refine ⟨t, lines, adds, ?_⟩
  cases fault? with
  | some fault => exact runFrom_bind_error outcome _
  | none =>
    obtain ⟨a, ran, result⟩ := outcome
    exact ⟨next a, runFrom_bind_ok ran _, results a t lines adds result⟩

theorem seq {m : α → State → Prop} {post : β → State → Prop} (first : Concludes s step none [] m)
    (rest : ∀ a t lines, s.Adds [] t lines → m a t → Concludes t (next a) fault? chosen post) :
    Concludes s (step >>= next) fault? chosen post := by
  have whole := first.bind rest
  rwa [Option.none_or] at whole

end Concludes

/-! ## Variables under generated names -/

theorem valued_concludes (roomy : s.Roomy) (memberless : type ≠ .objective) {usage : Usage}
    (admitted : checkModifiers type .hidden usage position = .ok ()) :
    Concludes s (do let id ← anonymous type.name usage position; setValue id value; return id) none []
      (fun id t => ∃ var, t.vars[id]? = some var ∧ var.type = type ∧ var.value = value) := by
  obtain ⟨scope, here, free⟩ := roomy
  obtain ⟨var, found, isType, _, isValue⟩ := s.var_made scope.drawn type usage value position
  exact .of_ok (runFrom_valued here (free _ (Nat.le_refl _)) memberless admitted)
    (adds_made here type usage value position) ⟨var, found, isType, isValue⟩

theorem constant_concludes (roomy : s.Roomy) (memberless : type ≠ .objective) :
    Concludes s (constant type value position) none []
      (fun id t => ∃ var, t.vars[id]? = some var ∧ var.type = type ∧ var.value = value) :=
  valued_concludes roomy memberless (by cases type <;> rfl)

theorem emit_concludes (roomy : s.Roomy) {cmds : List Command} :
    Concludes s (emit cmds) none [] (fun _ t => t.vars = s.vars) := by
  obtain ⟨scope, here, _⟩ := roomy
  cases cmds with
  | nil => exact .pure rfl
  | cons cmd cmds => exact .of_ok (runFrom_emit_cons here cmd) (.log s _) rfl

theorem temporary_concludes (roomy : s.Roomy) (isScore : type = .int ∨ type = .bool) :
    Concludes s (temporary type.name position) none []
      (fun id t => ∃ var register, t.vars[id]? = some var ∧ var.type = type ∧ var.value = .register register) := by
  obtain ⟨scope, here, free⟩ := roomy
  obtain ⟨var, found, isType, isValue⟩ := s.var_withScore scope.drawn type position
  exact .of_ok (runFrom_temporary here (free _ (Nat.le_refl _)) isScore)
    (adds_made here type _ _ position) ⟨var, _, found, isType, isValue⟩

/-! ## Conversions -/

theorem runFrom_operand (found : s.vars[id]? = some var) (position : Position) :
    match var.scoreFault? position with
    | some fault => (operand id position).runFrom s = (.error fault, s)
    | none => ∃ src, (operand id position).runFrom s = (.ok src, s) := by
  rw [operand, runFrom_bind_ok (runFrom_var found), Variable.scoreFault?]
  cases var.value with
  | int score => exact ⟨_, rfl⟩
  | register register => exact ⟨_, rfl⟩
  | unset | text | objective => rfl

theorem operand_bind (found : s.vars[id]? = some var) {next : Operand → Compile α} {post : α → State → Prop}
    (rest : var.scoreFault? position = none → ∀ src, Concludes s (next src) none [] post) :
    Concludes s (operand id position >>= next) (var.scoreFault? position) [] post := by
  have reads := runFrom_operand found position
  cases fault : var.scoreFault? position with
  | some fault =>
    rw [fault] at reads
    exact ⟨s, [], .refl s, runFrom_bind_error reads next⟩
  | none =>
    rw [fault] at reads
    obtain ⟨src, ran⟩ := reads
    exact .ok_bind ran (rest fault src)

/-- A variable of a type is there, which can be copied if the other one can. -/
def Yields (other : Variable) (type : ValueType) (position : Position) (id : VarId) (s : State) : Prop :=
  ∃ var, s.vars[id]? = some var ∧ var.type = type ∧ var.readFault? position = other.readFault? position

theorem Yields.of_score {other given : Variable} (found : s.vars[id]? = some given)
    (isType : given.type = type) (isScore : type = .int ∨ type = .bool) (held : (∃ score, given.value = .int score) ∨
      ∃ register, given.value = .register register) (readable : other.readFault? position = none) :
    Yields other type position id s := by
  refine ⟨given, found, isType, ?_⟩
  rw [readable, Variable.readFault?_of_score (isType ▸ isScore), Variable.scoreFault?_eq_none held]

section

variable {id : VarId} {var : Variable} {position : Position}

section

variable (roomy : s.Roomy) (found : s.vars[id]? = some var)
include roomy found

theorem intToBool_converts (isInt : var.type = .int) :
    Concludes s (intToBool id position) (var.scoreFault? position) [] (Yields var .bool position) := by
  refine operand_bind found (fun known src => ?_)
  have readable := (Variable.readFault?_of_score (.inl isInt) position).trans known
  cases src with
  | constant score =>
    refine (constant_concludes roomy (by decide)).mono ?_
    rintro result t ⟨given, there, isType, isValue⟩
    exact .of_score there isType (.inr rfl) (.inl ⟨_, isValue⟩) readable
  | resident register =>
    refine (temporary_concludes roomy (.inr rfl)).seq ?_
    rintro result t lines adds ⟨given, target, there, isType, isValue⟩
    refine .ok_bind (runFrom_registerOf? there) ?_
    rw [isValue]
    refine (emit_concludes (adds.roomy roomy)).seq (fun _ u _ _ same => .pure ?_)
    exact .of_score (same ▸ there) isType (.inr rfl) (.inr ⟨_, isValue⟩) readable

theorem boolToInt_converts (isBool : var.type = .bool) :
    Concludes s (boolToInt id position) (var.scoreFault? position) [] (Yields var .int position) := by
  refine operand_bind found (fun known src => ?_)
  have readable := (Variable.readFault?_of_score (.inr isBool) position).trans known
  cases src with
  | constant score =>
    refine (constant_concludes roomy (by decide)).mono ?_
    rintro result t ⟨given, there, isType, isValue⟩
    exact .of_score there isType (.inl rfl) (.inl ⟨_, isValue⟩) readable
  | resident register =>
    refine (valued_concludes roomy (by decide) rfl).mono ?_
    rintro result t ⟨given, there, isType, isValue⟩
    exact .of_score there isType (.inl rfl) (.inr ⟨_, isValue⟩) readable

theorem intToText_converts (isInt : var.type = .int) :
    Concludes s (intToText id position)
      (match var.value with
        | .int _ => none
        | _ => some ⟨.cannotCast var.describe ValueType.string.name, position⟩) []
      (Yields var .string position) := by
  refine .ok_bind (runFrom_var found) ?_
  cases held : var.value with
  | int score =>
    refine (constant_concludes roomy (by decide)).mono ?_
    rintro result t ⟨given, there, isType, isValue⟩
    refine ⟨given, there, isType, ?_⟩
    rw [Variable.readFault?_of_score (.inl isInt), Variable.scoreFault?_eq_none (.inl ⟨score, held⟩),
      Variable.readFault?, isType, isValue]
  | unset | text | register | objective => exact .throw _

theorem cast_converts (target : ValueType) :
    Concludes s (cast id target.name position) (var.conversionFault? target.name position) []
      (Yields var target position) := by
  refine .ok_bind (runFrom_var found) ?_
  unfold Variable.conversionFault?
  by_cases same : var.type = target
  · rw [if_pos (congrArg ValueType.name same), if_pos (congrArg ValueType.name same)]
    exact .pure ⟨var, found, same, rfl⟩
  have other : ¬ var.type.name = target.name := fun named => same (ValueType.name_injective named)
  rw [if_neg other, if_neg other, ConversionGraph.lookup_standard, ValueType.ofName?_name]
  cases isType : var.type with
  | int =>
    cases target with
    | int => exact absurd isType same
    | bool => exact intToBool_converts roomy found isType
    | string => exact intToText_converts roomy found isType
    | objective => exact .throw _
  | bool =>
    cases target with
    | bool => exact absurd isType same
    | int => exact boolToInt_converts roomy found isType
    | string | objective => exact .throw _
  | string => cases target <;> exact .throw _
  | objective => cases target <;> exact .throw _

end

end

/-! ## Parameters -/

/-- The variable was declared for a parameter and waits for its value. -/
structure Awaits (base s : State) (param : Param) (type : ValueType) (id : VarId) (var : Variable) :
    Prop where
  found : s.vars[id]? = some var
  new : base.vars.size ≤ id
  isType : var.type = type
  isName : var.name = param.name
  isUsage : var.usage = .parameter
  place : var.scope = base.current
  score : type = .int ∨ type = .bool → ∃ register, var.value = .register register
  text : type = .string → var.value = .unset
  field : type = .objective → ∃ field other, var.members = objectiveMembers field ∧
    base.vars.size ≤ field ∧ s.vars[field]? = some other

theorem allocateObjective_entered {scope : Scope} (here : s.scopes.scopes[s.current]? = some scope)
    (var : Variable) (place : var.scope = s.current) (first : var.inner = none) {chosen : List String}
    (adds : s.Adds chosen (s.enterVar var) []) :
    ∃ t inner field other, (allocateObjective s.vars.size).runFrom (s.enterVar var) = (.ok (), t) ∧
      s.Adds chosen t [] ∧ t.vars[s.vars.size]? =
        some { var with inner := some inner, members := objectiveMembers field } ∧
      s.vars.size ≤ field ∧ t.vars[field]? = some other := by
  obtain ⟨outer, around, _⟩ := scope_enterVar var here
  rw [← place] at around
  have inside : s.scopes.size ≤ (s.enterVar var).scopes.size := Nat.le_of_eq (scopes_size_enterVar s var).symm
  have nested : s.Adds chosen (withInner (s.enterVar var) s.vars.size var outer) [] :=
    (adds.nest around var.name).onVar (Nat.le_refl _) _
  refine ⟨_, _, s.vars.size + 1, criterionVar (s.enterVar var).scopes.size var.position, runFrom_allocateObjective
    around first, ?_,
    (vars_withObjective s outer var _).trans (if_pos rfl), Nat.le_succ _, ?_⟩
  · refine (nested.inside (ScopeTree.lt_size_of_getElem? here) inside ?_
      (criterionVar _ var.position)).onVar (Nat.le_refl _) _
    exact ScopeTree.lt_size_of_getElem? (ScopeTree.getElem?_addScope_size _ _)
  · rw [vars_withObjective, if_neg (Nat.succ_ne_self _), if_pos rfl]

theorem declare_awaits (roomy : s.Roomy) {param : Param} (named : param.type = type.name)
    (plain : s.config.isGenerated param.name = false) (free : s.scopes.lookup s.current param.name = none)
    (position : Position) : ∃ t var, (declareInternal param.type .hidden .parameter param.name position).runFrom s =
      (.ok s.vars.size, t) ∧ s.Adds [param.name] t [] ∧ Awaits s t param type s.vars.size var := by
  obtain ⟨scope, here, _⟩ := roomy
  have inside := ScopeTree.lt_size_of_getElem? here
  let var : Variable :=
    { type, access := .hidden, usage := .parameter, name := param.name, scope := s.current, position }
  have entered : (enterVariable type .hidden .parameter param.name position).runFrom s =
      (.ok s.vars.size, s.enterVar var) :=
    runFrom_enterVariable here (by cases type <;> rfl) free
  have adds (value : Value) : s.Adds [param.name] (s.enterVar { var with value }) [] := by
    refine .enterVar here (.inr (mem_singleton_self _))
      (fun n _ (same : s.config.generatedName n = param.name) => ?_)
    rw [← same, s.config.isGenerated_generatedName] at plain
    cases plain
  have declared {t : State} (allocated : (allocate type s.vars.size).runFrom (s.enterVar var) = (.ok (), t)) :
      (declareInternal param.type .hidden .parameter param.name position).runFrom s = (.ok s.vars.size, t) := by
    simp only [declareInternal, named, typeNamed_name, runFrom_bind, runFrom_lift, entered, allocated, runFrom_pure]
  have score (isScore : type = .int ∨ type = .bool) (same : allocate type = allocateScore) :
      ∃ t var, (declareInternal param.type .hidden .parameter param.name position).runFrom s =
        (.ok s.vars.size, t) ∧ s.Adds [param.name] t [] ∧ Awaits s t param type s.vars.size var := by
    have allocated := runFrom_allocateScore_entered (s := s) var inside rfl
    rw [← same] at allocated
    refine ⟨_, _, declared allocated, adds _, State.var_enterVar_new s _, Nat.le_refl _, rfl, rfl, rfl, rfl,
      fun _ => ⟨_, rfl⟩, ?_, ?_⟩
    · rintro rfl
      rcases isScore with other | other <;> cases other
    · rintro rfl
      rcases isScore with other | other <;> cases other
  cases type with
  | int => exact score (.inl rfl) rfl
  | bool => exact score (.inr rfl) rfl
  | string =>
    refine ⟨_, var, declared rfl, adds .unset, State.var_enterVar_new s _, Nat.le_refl _, rfl, rfl, rfl,
      rfl, ?_, fun _ => rfl, by rintro ⟨⟩⟩
    rintro (other | other) <;> cases other
  | objective =>
    obtain ⟨t, inner, field, other, allocated, more, found, new, isField⟩ :=
      allocateObjective_entered here var rfl rfl (adds .unset)
    refine ⟨t, _, declared allocated, more, found, Nat.le_refl _, rfl, rfl, rfl, rfl, ?_, by rintro ⟨⟩,
      fun _ => ⟨field, other, rfl, new, isField⟩⟩
    rintro (other | other) <;> cases other

section

variable {base : State} {chosen : List String} {lines : List Command} {param : Param}
  {type : ValueType} {id : VarId} {slot : Variable}

theorem Awaits.isParam (awaits : Awaits base s param type id slot) (named : param.type = type.name) {t : State}
    {value : Value} (found : t.vars[id]? = some { slot with value }) : t.IsParam base.current param id :=
  ⟨_, found, (congrArg ValueType.name awaits.isType).trans named.symm, awaits.isName, awaits.isUsage, awaits.place⟩

/-- The step fails with the fault that is given, or gives a parameter that was added its value. -/
def Copies (base s : State) (chosen : List String) (lines : List Command) (param : Param) (id : VarId)
    (step : Compile (List Command)) (fault? : Option Fault) : Prop :=
  match fault? with
  | some fault => step.runFrom s = (.error fault, s)
  | none => ∃ cmds t, step.runFrom s = (.ok cmds, t) ∧ base.Adds chosen t lines ∧
      t.IsParam base.current param id

/-- A variable is copied to a parameter of its type if it can be read. -/
theorem copyTo_awaiting (adds : base.Adds chosen s lines) (awaits : Awaits base s param type id slot)
    (named : param.type = type.name) {value : VarId} (found : s.vars[value]? = some var)
    (same : var.type = type) (position : Position) :
    Copies base s chosen lines param id (copyTo value id position) (var.readFault? position) := by
  have score (isScore : type = .int ∨ type = .bool)
      (copies : (copyTo value id position).runFrom s = (do store (← operand value position) id position).runFrom s) :
      Copies base s chosen lines param id (copyTo value id position) (var.readFault? position) := by
    rw [Copies.eq_def, copies, Variable.readFault?_of_score (same ▸ isScore)]
    have reads := runFrom_operand found position
    cases fault : var.scoreFault? position with
    | some fault =>
      rw [fault] at reads
      exact runFrom_bind_error reads _
    | none =>
      rw [fault] at reads
      obtain ⟨src, ran⟩ := reads
      obtain ⟨register, held⟩ := awaits.score isScore
      have stored : ∃ cmds, (store src id position).runFrom s = (.ok cmds, s) := by
        rw [store, runFrom_bind_ok (runFrom_var awaits.found), held]
        cases normalize slot.type src <;> exact ⟨_, rfl⟩
      obtain ⟨cmds, stored⟩ := stored
      exact ⟨cmds, s, (runFrom_bind_ok ran _).trans stored, adds,
        awaits.isParam named awaits.found⟩
  cases type with
  | int =>
    refine score (.inl rfl) ?_
    rw [copyTo, runFrom_bind_ok (runFrom_var found), same]
    refine (runFrom_bind_ok (runFrom_var awaits.found) _).trans ?_
    rw [awaits.isType]
    rfl
  | bool =>
    refine score (.inr rfl) ?_
    rw [copyTo, runFrom_bind_ok (runFrom_var found), same]
    refine (runFrom_bind_ok (runFrom_var awaits.found) _).trans ?_
    rw [awaits.isType]
    rfl
  | string =>
    rw [Copies.eq_def, copyTo, runFrom_bind_ok (runFrom_var found), same, Variable.readFault?.eq_def, same]
    cases held : var.value with
    | text text =>
      have reads : (textOf value position).runFrom s = (.ok text, s) := by
        rw [textOf, runFrom_bind_ok (runFrom_var found), held]
        rfl
      have stored : (storeText text id position).runFrom s =
          (.ok (), s.onVar id (fun var => { var with value := .text text })) := by
        rw [storeText, runFrom_bind_ok (runFrom_var awaits.found)]
        simp only [awaits.isType, awaits.text rfl, ne_eq, not_true_eq_false, if_false]
        exact runFrom_setValue awaits.found _
      refine ⟨[], _, (runFrom_bind_ok reads _).trans (runFrom_bind_ok stored _), ?_, ?_⟩
      · exact adds.onVar awaits.new _
      · exact awaits.isParam named (by rw [vars_onVar, if_pos rfl, awaits.found]; rfl)
    | unset | int | register | objective =>
      refine runFrom_bind_error (t := s) ?_ _
      rw [textOf, runFrom_bind_ok (runFrom_var found), held]
      rfl
  | objective =>
    rw [Copies.eq_def, copyTo, runFrom_bind_ok (runFrom_var found), same, Variable.readFault?.eq_def, same]
    have typed : slot.type ≠ .objective ↔ False := by rw [awaits.isType]; decide
    cases held : var.value with
    | objective objective criterion =>
      have reads : (referent value position).runFrom s = (.ok (objective, criterion), s) := by
        rw [referent, runFrom_bind_ok (runFrom_var found), held]
        rfl
      obtain ⟨field, other, members, new, isField⟩ := awaits.field rfl
      let filled := s.onVar field (fun var => { var with value := .text criterion })
      obtain ⟨before, there⟩ : ∃ value, filled.vars[id]? = some { slot with value } := by
        rw [vars_onVar, awaits.found]
        split
        · exact ⟨_, rfl⟩
        · exact ⟨slot.value, rfl⟩
      have mem : slot.member? criterionField = some (.field field) := by
        rw [Variable.member?, members]
        rfl
      let bound := filled.onVar id (fun var => { var with value := .objective objective criterion })
      have referred : (bindObjective id objective criterion position).runFrom s = (.ok (), bound) := by
        rw [bindObjective, runFrom_bind_ok (runFrom_var awaits.found)]
        simp only [awaits.isUsage, reduceCtorEq, false_and, if_false, mem]
        refine (runFrom_bind_ok (runFrom_setValue isField _) _).trans ?_
        exact runFrom_setValue there _
      refine ⟨[], bound, (runFrom_bind_ok (runFrom_var awaits.found) _).trans ?_, ?_, ?_⟩
      · simp only [typed, if_false]
        exact (runFrom_bind_ok reads _).trans (runFrom_bind_ok referred _)
      · exact (adds.onVar new _).onVar awaits.new _
      · exact awaits.isParam named (by rw [vars_onVar, if_pos rfl, there]; rfl)
    | unset | int | register | text =>
      refine (runFrom_bind_ok (runFrom_var awaits.found) _).trans ?_
      simp only [typed, if_false]
      refine runFrom_bind_error (t := s) ?_ _
      rw [referent, runFrom_bind_ok (runFrom_var found), held]
      rfl

end

theorem declareParam_concludes (roomy : s.Roomy) {param : Param} (named : param.type = type.name)
    (plain : s.config.isGenerated param.name = false)
    (free : s.scopes.lookup s.current param.name = none) {value : VarId} {other : Variable}
    (yields : Yields other type position value s) :
    Concludes s (do
        let id ← declareInternal param.type .hidden .parameter param.name position
        emit (← copyTo value id position)
        return id) (other.readFault? position) [param.name]
      (fun id t => t.IsParam s.current param id) := by
  obtain ⟨t, slot, declared, adds, awaits⟩ := declare_awaits roomy named plain free position
  obtain ⟨var, found, isType, copied⟩ := yields
  have copies := copyTo_awaiting adds awaits named (adds.vars value var found) isType position
  rw [copied, Copies.eq_def] at copies
  rw [Concludes, runFrom_bind_ok declared]
  cases fault : other.readFault? position with
  | some fault =>
    rw [fault] at copies
    exact ⟨t, [], adds, runFrom_bind_error copies _⟩
  | none =>
    rw [fault] at copies
    obtain ⟨cmds, u, ran, adds, isParam⟩ := copies
    obtain ⟨v, lines, more, emitted, written, same⟩ := emit_concludes (adds.roomy roomy)
    refine ⟨v, lines, adds.trans more, s.vars.size, ?_, ?_⟩
    · rw [runFrom_bind_ok ran, runFrom_bind_ok written]
      rfl
    · obtain ⟨var, there, rest⟩ := isParam
      exact ⟨var, same ▸ there, rest⟩

theorem findSome?_cons_or {γ δ : Type} (f : γ → Option δ) (x : γ) (xs : List γ) :
    (x :: xs).findSome? f = (f x).or (xs.findSome? f) := by
  rw [findSome?_cons]
  cases f x <;> rfl

section

variable {pairs : List (Param × Variable)} (position : Position)

variable {position} in
theorem Yields.adds {other : Variable} {chosen : List String} {t : State} {lines : List Command}
    (yields : Yields other type position id s) (adds : s.Adds chosen t lines) : Yields other type position id t := by
  obtain ⟨var, found, rest⟩ := yields
  exact ⟨var, adds.vars id var found, rest⟩

def Supplies (position : Position) (s : State) (pair : Param × Variable) (id : VarId) : Prop :=
  ∃ type : ValueType, pair.1.type = type.name ∧ Yields pair.2 type position id s

theorem castAll_concludes (roomy : s.Roomy) (typed : ∀ pair ∈ pairs, ∃ type : ValueType, pair.1.type = type.name)
    (found : List.Forall₂ (fun pair id => s.vars[id]? = some pair.2) pairs args) :
    Concludes s (castAll position ((pairs.map Prod.fst).zip args))
      (pairs.findSome? (fun pair => pair.2.conversionFault? pair.1.type position)) []
      (fun values t => List.Forall₂ (Supplies position t) pairs values) := by
  induction pairs generalizing s args with
  | nil =>
    cases found
    exact .pure .nil
  | cons pair pairs ih =>
    cases found with
    | @cons _ arg _ args isVar found =>
    obtain ⟨type, isType⟩ := typed pair mem_cons_self
    rw [findSome?_cons_or, isType, map_cons, zip_cons_cons, castAll, isType]
    refine (cast_converts roomy isVar type).bind (fun value t lines adds yields => ?_)
    have kept : List.Forall₂ (fun pair id => t.vars[id]? = some pair.2) pairs args :=
      found.imp (fun pair id there => adds.vars id pair.2 there)
    refine (ih (adds.roomy roomy) (fun pair mem => typed pair (mem_cons_of_mem _ mem))
      kept).map (fun values u _ more supplied => ?_)
    exact .cons ⟨type, isType, yields.adds more⟩ supplied

theorem declareParams_concludes (roomy : s.Roomy) {values : List VarId}
    (plain : ∀ pair ∈ pairs, s.config.isGenerated pair.1.name = false)
    (free : ∀ pair ∈ pairs, s.scopes.lookup s.current pair.1.name = none)
    (distinct : (pairs.map (fun pair => pair.1.name)).Nodup)
    (supplied : List.Forall₂ (Supplies position s) pairs values) :
    Concludes s (declareParams position ((pairs.map Prod.fst).zip values))
      (pairs.findSome? (fun pair => pair.2.readFault? position)) (pairs.map (fun pair => pair.1.name))
      (fun ids t => List.Forall₂ (t.IsParam s.current) (pairs.map Prod.fst) ids) := by
  induction pairs generalizing s values with
  | nil =>
    cases supplied
    exact .pure .nil
  | cons pair pairs ih =>
    cases supplied with
    | @cons _ value _ values supply supplied =>
    obtain ⟨type, isType, yields⟩ := supply
    have first := declareParam_concludes roomy isType (plain pair mem_cons_self)
      (free pair mem_cons_self) yields
    have split : declareParams position ((pair.1, value) :: (pairs.map Prod.fst).zip values) = (do
        let id ← (do
          let id ← declareInternal pair.1.type .hidden .parameter pair.1.name position
          emit (← copyTo value id position)
          return id)
        return id :: (← declareParams position ((pairs.map Prod.fst).zip values))) := by
      simp only [declareParams, bind_assoc, pure_bind]
    rw [findSome?_cons_or, map_cons, zip_cons_cons, split]
    rw [map_cons, nodup_cons] at distinct
    refine first.bind (fun id t lines adds isParam => ?_)
    have rest := @ih t (adds.roomy roomy) values ?plain ?free distinct.2 ?supplied
    case plain =>
      intro other mem
      rw [adds.config]
      exact plain other (mem_cons_of_mem _ mem)
    case free =>
      intro other mem
      have apart : other.1.name ∉ [pair.1.name] := by
        rw [mem_singleton]
        intro same
        exact distinct.1 (same ▸ mem_map_of_mem mem)
      rw [adds.current, adds.names _ (plain other (mem_cons_of_mem _ mem)) apart]
      exact free other (mem_cons_of_mem _ mem)
    case supplied =>
      refine supplied.imp ?_
      rintro other id ⟨type, isType, yields⟩
      exact ⟨type, isType, yields.adds adds⟩
    rw [adds.current] at rest
    refine rest.map (fun ids u more later params => .cons ?_ params)
    obtain ⟨var, found, isVar⟩ := isParam
    exact ⟨var, later.vars id var found, isVar⟩

end

theorem forall₂_zip {params : List Param} {vars : List Variable}
    (found : List.Forall₂ (fun id var => s.vars[id]? = some var) args vars) (same : params.length = vars.length) :
    List.Forall₂ (fun pair id => s.vars[id]? = some pair.2) (params.zip vars) args := by
  induction found generalizing params with
  | nil =>
    rw [zip_nil_right]
    exact .nil
  | cons isVar found ih =>
    cases params with
    | nil => cases same
    | cons param params => exact .cons isVar (ih (Nat.succ.inj same))

theorem bindParams_concludes (roomy : s.Roomy) {params : List Param} {vars : List Variable}
    (typed : ∀ param ∈ params, ∃ type : ValueType, param.type = type.name)
    (plain : ∀ param ∈ params, s.config.isGenerated param.name = false)
    (free : ∀ param ∈ params, s.scopes.lookup s.current param.name = none) (distinct : (params.map Param.name).Nodup)
    (found : List.Forall₂ (fun id var => s.vars[id]? = some var) args vars) {what : String} :
    Concludes s (bindParams what params args position) (bindFault? what params vars position)
      (params.map Param.name) (fun ids t => List.Forall₂ (t.IsParam s.current) params ids) := by
  unfold bindParams bindFault?
  rw [found.length_eq]
  by_cases same : params.length = vars.length
  · have firsts : (params.zip vars).map Prod.fst = params := map_fst_zip (Nat.le_of_eq same)
    have names : (params.zip vars).map (fun pair => pair.1.name) = params.map Param.name := by
      rw [← firsts, map_map]
      simp only [firsts]
      rfl
    have isParam {pair : Param × Variable} (mem : pair ∈ params.zip vars) : pair.1 ∈ params :=
      (of_mem_zip mem).1
    have cast := castAll_concludes position roomy
      (fun pair mem => typed pair.1 (isParam mem)) (forall₂_zip found same)
    rw [firsts] at cast
    simp only [ne_eq, same, not_true_eq_false, if_false]
    refine cast.bind (fun values t lines adds supplied => ?_)
    have declared := declareParams_concludes position (adds.roomy roomy) ?plain ?free (names ▸ distinct) supplied
    case plain =>
      intro pair mem
      rw [adds.config]
      exact plain pair.1 (isParam mem)
    case free =>
      intro pair mem
      rw [adds.current, adds.names _ (plain pair.1 (isParam mem)) not_mem_nil]
      exact free pair.1 (isParam mem)
    rw [firsts, names, adds.current] at declared
    exact declared
  · simp only [ne_eq, same, not_false_eq_true, if_true]
    exact .throw _

end Compile

end ScoreScript
