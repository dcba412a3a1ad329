import ScoreScript.Proofs.Compile.Unbroken
import ScoreScript.Proofs.Positions.Steps

/-!
# What steps are made of

Every step of the compiler is a sequence of a few operations on the state: they declare variables,
give them values, enter commands and open units. `Compile.Composed` lists the operations that use no
engine. Each stands for one word of a script, and reports its faults at the position of that word; else
the position makes no difference. What holds of the operations holds of every step by induction.
-/

namespace ScoreScript

namespace Engine

open Compile

/-- What a word stands for as a literal does not depend on where it stands. -/
theorem literal?_uniform (word : String) :
    (∀ p, literal? word p = none) ∨ (∃ holds, ∀ p, literal? word p = some (constantBool holds p)) ∨
      (∃ text, ∀ p, literal? word p = some (constantText text p)) ∨
      (∃ score, ∀ p, literal? word p = some (constantInt score p)) ∨
      ∃ cause, (∀ p, literal? word p = some (throw ⟨cause, p⟩)) ∧ cause.kind ≠ .internal := by
  unfold literal?
  split
  · exact .inr (.inl ⟨true, fun _ => rfl⟩)
  split
  · exact .inr (.inl ⟨false, fun _ => rfl⟩)
  split
  · cases Json.decodeText? word with
    | some text => exact .inr (.inr (.inl ⟨text, fun _ => rfl⟩))
    | none => exact .inr (.inr (.inr (.inr ⟨.invalidStringLiteral word, fun _ => rfl, by rintro ⟨⟩⟩)))
  · cases Score.parse? word with
    | some score => exact .inr (.inr (.inr (.inl ⟨score, fun _ => rfl⟩)))
    | none =>
      dsimp only
      -- The digits are those after a minus, or all characters.
      split <;> split
      · exact .inr (.inr (.inr (.inr ⟨.invalidIntegerLiteral word, fun _ => rfl, by rintro ⟨⟩⟩)))
      · exact .inl (fun _ => rfl)
      · exact .inr (.inr (.inr (.inr ⟨.invalidIntegerLiteral word, fun _ => rfl, by rintro ⟨⟩⟩)))
      · exact .inl (fun _ => rfl)

theorem literal?_cases {word : String} {pos : Position} {step : Compile VarId}
    (isLiteral : literal? word pos = some step) :
    (∃ holds, step = constantBool holds pos) ∨ (∃ text, step = constantText text pos) ∨
      (∃ score, step = constantInt score pos) ∨ ∃ fault : Fault, step = throw fault ∧ fault.kind ≠ .internal := by
  rcases literal?_uniform word with none | ⟨holds, is⟩ | ⟨text, is⟩ | ⟨score, is⟩ | ⟨cause, is, blameless⟩
  · cases (none pos).symm.trans isLiteral
  all_goals cases (is pos).symm.trans isLiteral
  · exact .inl ⟨holds, rfl⟩
  · exact .inr (.inl ⟨text, rfl⟩)
  · exact .inr (.inr (.inl ⟨score, rfl⟩))
  · exact .inr (.inr (.inr ⟨_, rfl, blameless⟩))

end Engine

namespace Compile

variable {α β : Type}

/-! ## Objectives in one go -/

/-- Take the next name for an objective into use. -/
def claimNext (pos : Position) : Compile String := do
  let id ← nextObjective
  if !isObjectiveId id then throw ⟨.badName id .notAnObjective, pos⟩
  claimObjective id pos
  return id

/-- Make a variable that refers to a new objective. -/
def create (id criterion : String) (pos : Position) : Compile VarId := do
  let result ← temporary ValueType.objective.name pos
  bindObjective result id criterion pos
  modifyVar result (fun var => { var with constructed := true })
  return result

/-- Let an objective variable refer to what another refers to. -/
def rebind (src target : VarId) (pos : Position) : Compile (List Command) := do
  let owner ← var target
  if owner.type ≠ .objective then throw ⟨.incompatibleCopy .objective owner.describe, pos⟩
  let (id, criterion) ← referent src pos
  bindObjective target id criterion pos
  return []

theorem claimNext_bind (next : String → Compile β) (pos : Position) : (do
    let id ← nextObjective
    if !isObjectiveId id then throw ⟨.badName id .notAnObjective, pos⟩
    claimObjective id pos
    next id) = claimNext pos >>= next := by
  simp only [claimNext, bind_assoc]
  refine congrArg _ (funext (fun id => ?_))
  split
  · rfl
  · simp only [bind_assoc, pure_bind]

/-! ## Operations -/

/-- A step made of operations on the state, wherever the word stands that it is made for, and what is
known of its result on strict terms. On these terms whatever goes into a command has to be part of a
line; otherwise nothing is asked and nothing is known. -/
inductive Composed (f : Footing) : {α : Type} → (Position → Compile α) → (α → Prop) → Prop where
  | known {α : Type} {post : α → Prop} (outcome : Position → Except Fault α)
      (concur : ∀ {p q}, f.place p q → Concur f.place Eq (outcome p) (outcome q))
      (results : f.strict → ∀ p a, outcome p = .ok a → post a) :
      Composed f (fun p => (liftM (outcome p) : Compile α)) post
  | get_bind {α : Type} {post : α → Prop} {next : Position → State → Compile α}
      (reads : ∀ p {s t : State}, s.Alike f t → next p s = next p t)
      (rest : ∀ s : State, (f.strict → s.FitsLines) → Composed f (fun p => next p s) post) :
      Composed f (fun p => get >>= next p) post
  | var_bind {α : Type} {post : α → Prop} (id : VarId) {next : Position → Variable → Compile α}
      (reads : ∀ p var pos, next p { var with position := pos } = next p var)
      (rest : ∀ var : Variable, (f.strict → var.FitsLine) → Composed f (fun p => next p var) post) :
      Composed f (fun p => var id >>= next p) post
  | bind {α β : Type} {step : Position → Compile α} {next : Position → α → Compile β} {post : α → Prop}
      {last : β → Prop} (first : Composed f step post)
      (rest : ∀ a, (f.strict → post a) → Composed f (fun p => next p a) last) :
      Composed f (fun p => step p >>= next p) last
  /-- A conversion is tried before another one. -/
  | recover {α : Type} {first second : Position → Compile α} (tries : Composed f first (fun _ => True))
      (falls : Composed f second (fun _ => True))
      {next : Position → Except Fault α → Compile α} (ok : ∀ p a, next p (.ok a) = return a)
      (error : ∀ p fault, next p (.error fault) =
        if fault.kind = .cannotCast then second p else throw fault) :
      Composed f (fun p => attempt (first p) >>= next p) (fun _ => True)
  | declare (typeName : String) (access : Access) (usage : Usage) (name : String) :
      Composed f (declare typeName access usage name) (fun _ => True)
  | anonymous (typeName : String) (usage : Usage) :
      Composed f (anonymous typeName usage) (fun _ => True)
  | bindRegister (typeName : String) {register : Register} (fits : f.strict → register.FitsLine) :
      Composed f (bindRegister typeName register) (fun _ => True)
  | constant (type : ValueType) {value : Value} (fits : f.strict → value.FitsLine)
      (plain : ∀ id criterion, value ≠ .objective id criterion) :
      Composed f (constant type value) (fun _ => True)
  /-- Parameters are bound in scopes of their own. -/
  | select (what : String) {overloads : List (List Param)}
      (plain : f.strict → ∀ params ∈ overloads, ∀ param ∈ params, IsUnquoted param.name) (args : List VarId)
      (casts : ∀ pairs, Composed f (fun p => castAll p pairs) (fun _ => True))
      (copies : ∀ src target, Composed f (copyTo src target) Command.AllFit) :
      Composed f (select what overloads args) (fun _ => True)
  | store {src : Operand} (fits : f.strict → src.FitsLine) (target : VarId) :
      Composed f (store src target) Command.AllFit
  | storeText (text : String) (target : VarId) : Composed f (storeText text target) (fun _ => True)
  | rebind (src target : VarId) : Composed f (rebind src target) Command.AllFit
  | create {id : String} (isLine : f.strict → IsLine id) (criterion : String) :
      Composed f (create id criterion) (fun _ => True)
  | claimNext : Composed f claimNext IsLine
  | claimObjective (id : String) : Composed f (claimObjective id) (fun _ => True)
  | emit {cmds : List Command} (fit : f.strict → Command.AllFit cmds) :
      Composed f (fun _ => emit cmds) (fun _ => True)

namespace Composed

variable {f : Footing} {post : α → Prop} {id left owner right src target value : VarId} {op : Operator}
  {args : List VarId} {name text typeName what word : String} {score : Score} {holds : Bool} {property : Property}

theorem result {a : α} (holds : f.strict → post a) : Composed f (fun _ => (Pure.pure a : Compile α)) post :=
  .known (fun _ => .ok a) (fun _ => .ok rfl) (by rintro isStrict _ _ ⟨⟩; exact holds isStrict)

theorem pure (a : α) : Composed f (fun _ => (Pure.pure a : Compile α)) (fun _ => True) :=
  .result (fun _ => trivial)

theorem throw (cause : Cause) : Composed f (fun p => (MonadExcept.throw ⟨cause, p⟩ : Compile α)) post :=
  .known (fun p => .error ⟨cause, p⟩) (fun placed => .fail cause placed) (by rintro _ _ _ ⟨⟩)

theorem throw_bind (cause : Cause) (next : Position → β → Compile α) :
    Composed f (fun p => MonadExcept.throw ⟨cause, p⟩ >>= next p) post :=
  .throw cause

theorem orFault {found : Option α} {cause : Cause} :
    Composed f (fun p => (liftM (orFault found cause p) : Compile α)) (fun _ => True) := by
  cases found with
  | some value => exact .pure value
  | none => exact .throw cause

theorem emitOne {cmd : Command} (fits : f.strict → cmd.FitsLine) :
    Composed f (fun _ => Compile.emit [cmd]) (fun _ => True) :=
  .emit (fun isStrict => (fits isStrict).only)

theorem emitCall {path : String} (isLine : f.strict → IsLine path) :
    Composed f (fun _ => Compile.emitCall path) (fun _ => True) :=
  .get_bind (fun _ _ _ alike => by rw [alike.call]) (fun _ fits => .emitOne (fun isStrict =>
    ⟨isLine_of_isPathSegment (fits isStrict).usable.nameSpace, isLine isStrict⟩))

theorem registerOf? : Composed f (fun _ => registerOf? id)
    (fun found => ∀ register, found = some register → register.FitsLine) := by
  refine .var_bind id (fun _ _ _ => rfl) (fun owner fits => .result (fun isStrict register found => ?_))
  have held := (fits isStrict).2
  cases value : owner.value with
  | register other =>
    rw [value] at held found
    cases found
    exact held
  | unset | int | text | objective =>
    rw [value] at found
    cases found

/-- What is read from a variable fits on a line. -/
theorem operand : Composed f (operand id) Operand.FitsLine := by
  refine .var_bind id (fun _ _ _ => rfl) (fun owner fits => ?_)
  cases value : owner.value with
  | int => exact .result (fun _ => trivial)
  | register =>
    have held (isStrict : f.strict) := (fits isStrict).2
    rw [value] at held
    exact .result held
  | unset | text | objective => exact .throw _

theorem textOf : Composed f (textOf id) (fun _ => True) := by
  refine .var_bind id (fun _ _ _ => rfl) (fun owner _ => ?_)
  cases owner.value with
  | text => exact .pure _
  | unset | int | register | objective => exact .throw _

theorem referent : Composed f (referent id) (fun named => IsLine named.1) := by
  refine .var_bind id (fun _ _ _ => rfl) (fun owner fits => ?_)
  cases value : owner.value with
  | objective =>
    have held (isStrict : f.strict) := (fits isStrict).2
    rw [value] at held
    exact .result held
  | unset | int | register | text => exact .throw _

/-- The commands that copy a score fit on lines. -/
theorem copyTo : Composed f (copyTo src target) Command.AllFit := by
  refine .var_bind src (fun _ _ _ => rfl) (fun owner _ => ?_)
  cases owner.type with
  | int | bool =>
    refine .var_bind target (fun _ _ _ => rfl) (fun var _ => ?_)
    dsimp only
    split
    · exact .throw _
    · exact Composed.operand.bind (fun _ fits => .store fits target)
  | string =>
    refine Composed.textOf.bind (fun text _ => ?_)
    exact (Composed.storeText text target).bind (fun _ _ => .result (fun _ => Command.allFit_nil))
  | objective => exact .rebind src target

theorem temporary : Composed f (temporary typeName) (fun _ => True) :=
  .anonymous typeName .ordinary

theorem constantInt : Composed f (constantInt score) (fun _ => True) :=
  .constant .int (fun _ => trivial) (by rintro _ _ ⟨⟩)

theorem constantBool : Composed f (constantBool holds) (fun _ => True) :=
  .constant .bool (fun _ => trivial) (by rintro _ _ ⟨⟩)

theorem constantText : Composed f (constantText text) (fun _ => True) :=
  .constant .string (fun _ => trivial) (by rintro _ _ ⟨⟩)

/-! ## Conversions -/

theorem intToBool : Composed f (intToBool value) (fun _ => True) := by
  refine Composed.operand.bind (fun operand fits => ?_)
  cases operand with
  | constant score => exact .constantBool
  | resident register =>
    refine Composed.temporary.bind (fun result _ => ?_)
    refine Composed.registerOf?.bind (fun found target => ?_)
    cases found with
    | none => exact .throw _
    | some cell =>
      refine (Composed.emit (fun isStrict => ?_)).bind (fun _ _ => .pure result)
      have isTarget := target isStrict cell rfl
      exact Command.allFit_cons isTarget (Command.FitsLine.only ⟨fits isStrict, isTarget⟩)

theorem intToText : Composed f (intToText value) (fun _ => True) := by
  refine .var_bind value (fun _ _ _ => rfl) (fun owner _ => ?_)
  cases owner.value with
  | int score => exact .constantText
  | unset | text | register | objective => exact .throw _

theorem boolToInt : Composed f (boolToInt value) (fun _ => True) := by
  refine Composed.operand.bind (fun operand fits => ?_)
  cases operand with
  | constant score => exact .constantInt
  | resident register => exact .bindRegister _ fits

theorem convert {conversion : Conversion} : Composed f (convert conversion value) (fun _ => True) := by
  cases conversion with
  | intToBool => exact .intToBool
  | intToText => exact .intToText
  | boolToInt => exact .boolToInt

/-- The conversions are looked up in any graph of them. -/
theorem castWith {graph : ConversionGraph Conversion} {target : String} :
    Composed f (castWith graph value target) (fun _ => True) := by
  refine .var_bind value (fun _ _ _ => rfl) (fun owner _ => ?_)
  split
  · exact .pure value
  split
  · next first second _ =>
      exact .recover .convert .convert (fun _ _ => rfl) (fun _ _ => rfl)
  · exact .convert
  · exact .convert
  · exact .throw _
  · exact .throw _

theorem cast {target : String} : Composed f (cast value target) (fun _ => True) :=
  .castWith

theorem castAll {pairs : List (Param × VarId)} : Composed f (fun p => castAll p pairs) (fun _ => True) := by
  induction pairs with
  | nil => exact .pure []
  | cons pair pairs ih =>
    exact Composed.cast.bind (fun _ _ => ih.bind (fun _ _ => .pure _))

theorem selected (what : String) {overloads : List (List Param)}
    (plain : f.strict → ∀ params ∈ overloads, ∀ param ∈ params, IsUnquoted param.name) (args : List VarId) :
    Composed f (Compile.select what overloads args) (fun _ => True) :=
  .select what plain args (fun _ => .castAll) (fun _ _ => .copyTo)

/-! ## Scores -/

/-- A constant gets a register of its own. -/
theorem materialize : Composed f (materialize score) Register.FitsLine := by
  refine Composed.temporary.bind (fun temp _ => ?_)
  refine (@Composed.store f (.constant score) (fun _ => trivial) temp).bind (fun cmds fit => ?_)
  refine (Composed.emit fit).bind (fun _ _ => ?_)
  refine Composed.registerOf?.bind (fun found fits => ?_)
  cases found with
  | some register => exact .result (fun isStrict => fits isStrict register rfl)
  | none => exact .throw _

theorem changeCommand {target : Register} (isTarget : f.strict → target.FitsLine) (op : Operator) {right : Operand}
    (fits : f.strict → right.FitsLine) : Composed f (changeCommand target op right) Command.FitsLine := by
  have added (amount : Score) : f.strict → (addCommand target amount).FitsLine := by
    intro isStrict
    unfold addCommand
    split
    · exact isTarget isStrict
    · exact isTarget isStrict
  unfold Compile.changeCommand
  cases right with
  | resident register => exact .result (fun isStrict => ⟨isTarget isStrict, fits isStrict⟩)
  | constant score =>
    dsimp only
    split
    · exact .result (added score)
    split
    · exact .result (added (-score))
    · refine Composed.materialize.bind (fun register isRegister => ?_)
      exact .result (fun isStrict => ⟨isTarget isStrict, isRegister isStrict⟩)

theorem arithmetic : Composed f (arithmetic left op right) (fun _ => True) := by
  refine Composed.operand.bind (fun lhs isLeft => ?_)
  refine Composed.operand.bind (fun rhs isRight => ?_)
  split
  · next a b =>
      have folded : Composed f (fun p => (liftM (located (op.fold a b) p) : Compile Score)) (fun _ => True) := by
        cases op.fold a b with
        | ok score => exact .pure score
        | error cause => exact .throw cause
      exact folded.bind (fun score _ => .constantInt)
  · refine Composed.temporary.bind (fun result _ => ?_)
    refine Composed.registerOf?.bind (fun found holds => ?_)
    cases found with
    | none => exact .throw _
    | some target =>
      refine (Composed.store isLeft result).bind (fun copied areCopied => ?_)
      have isTarget (isStrict : f.strict) := holds isStrict target rfl
      refine (Composed.changeCommand isTarget op isRight).bind (fun change isChange => ?_)
      refine (Composed.emit (fun isStrict => ?_)).bind (fun _ _ => .pure result)
      exact List.forall_mem_append.mpr ⟨areCopied isStrict, (isChange isStrict).only⟩

/-- A register is set to 1 where a comparison holds. -/
theorem guardedSet {target left : Register} (isTarget : f.strict → target.FitsLine)
    (isLeft : f.strict → left.FitsLine) (op : Operator) {right : Operand} (fits : f.strict → right.FitsLine) :
    Composed f (fun p => (liftM (guardedSet target left op right p) : Compile (List Command))) Command.AllFit := by
  cases right with
  | resident other =>
    have compared (holds : Bool) (comparison : Comparison) : f.strict → Command.AllFit
        [.guarded holds (.compare left comparison other) (.set target 1)] :=
      fun isStrict => Command.FitsLine.only ⟨⟨isLeft isStrict, fits isStrict⟩, isTarget isStrict⟩
    simp only [Compile.guardedSet]
    split
    · exact .result (compared _ _)
    · cases op.comparison? with
      | none => exact .throw _
      | some comparison => exact .result (compared _ _)
  | constant c =>
    have ranged (holds : Bool) (range : ScoreRange) : f.strict → Command.AllFit
        [.guarded holds (.inRange left range) (.set target 1)] :=
      fun isStrict => Command.FitsLine.only ⟨isLeft isStrict, isTarget isStrict⟩
    simp only [Compile.guardedSet]
    split
    · exact .result (ranged _ _)
    · rcases op.range? c with _ | _ | range
      · exact .throw _
      · exact .result (fun _ => Command.allFit_nil)
      · exact .result (ranged _ _)

theorem compareRegister {left : Register} (isLeft : f.strict → left.FitsLine) (op : Operator) {right : Operand}
    (fits : f.strict → right.FitsLine) : Composed f (compareRegister left op right) (fun _ => True) := by
  refine Composed.temporary.bind (fun result _ => ?_)
  refine Composed.registerOf?.bind (fun found holds => ?_)
  cases found with
  | none => exact .throw _
  | some target =>
    have isTarget (isStrict : f.strict) := holds isStrict target rfl
    refine (Composed.guardedSet isTarget isLeft op fits).bind (fun cmds fit => ?_)
    refine (Composed.emit (fun isStrict => ?_)).bind (fun _ _ => .pure result)
    exact Command.allFit_cons (isTarget isStrict) (fit isStrict)

theorem compare {left right : Operand} (isLeft : f.strict → left.FitsLine) (op : Operator)
    (isRight : f.strict → right.FitsLine) : Composed f (compare left op right) (fun _ => True) := by
  unfold Compile.compare
  split
  · exact Composed.orFault.bind (fun holds _ => .constantBool)
  · exact Composed.orFault.bind (fun flipped _ => .compareRegister isRight flipped (fun _ => trivial))
  · exact .compareRegister isLeft op isRight

/-! ## Objectives -/

theorem construct : Composed f (construct args) (fun _ => True) := by
  have next (criterion : String) : Composed f (fun p => Compile.claimNext p >>= (Compile.create · criterion p))
      (fun _ => True) :=
    Composed.claimNext.bind (fun _ isLine => .create isLine criterion)
  simp only [← claimNext_bind] at next
  refine (Composed.selected _ (fun _ => isUnquoted_objectiveOverloads) args).bind ?_
  rintro ⟨index, params⟩ _
  match params with
  | [] => exact (Composed.pure _).bind (fun criterion _ => next criterion)
  | [param] => exact Composed.textOf.bind (fun criterion _ => next criterion)
  | param :: named :: _ =>
    refine Composed.textOf.bind (fun criterion _ => Composed.textOf.bind (fun id _ => ?_))
    dsimp only
    split
    · exact .throw_bind _ _
    · next checked =>
        have isLine := isLine_of_isObjectiveId (by simpa using checked)
        exact (Composed.claimObjective id).bind (fun _ _ => .create (fun _ => isLine) criterion)

theorem readProperty : Composed f (readProperty property name owner) (fun _ => True) := by
  cases property with
  | id => exact Composed.referent.bind (fun named _ => .constantText)
  | displayName => exact .throw _

theorem assignProperty : Composed f (assignProperty property name owner value) (fun _ => True) := by
  cases property with
  | id => exact .throw _
  | displayName =>
    refine Composed.referent.bind (fun named isLine => ?_)
    refine Composed.cast.bind (fun text _ => ?_)
    exact Composed.textOf.bind (fun shown _ => .emitOne isLine)

theorem holderOf {expected : Nat} : Composed f (holderOf what expected args) IsLine := by
  cases args with
  | nil => exact .throw _
  | cons first args =>
    unfold Compile.holderOf
    dsimp only
    split
    · exact .throw _
    refine Composed.cast.bind (fun text _ => ?_)
    refine Composed.textOf.bind (fun holder _ => ?_)
    split
    · exact .throw _
    · next plain =>
        rw [Bool.not_eq_true, Bool.or_eq_false_iff] at plain
        exact .result (fun _ => isLine_of_no_blank plain.2)

theorem callMethod {method : Method} : Composed f (callMethod method owner args) (fun _ => True) := by
  cases method with
  | get =>
    refine Composed.holderOf.bind (fun holder isHolder => ?_)
    refine Composed.referent.bind (fun named isLine => ?_)
    exact (Composed.bindRegister _ (fun isStrict => ⟨isHolder isStrict, isLine isStrict⟩)).bind (fun _ _ => .pure _)
  | set =>
    refine Composed.holderOf.bind (fun holder isHolder => ?_)
    refine Composed.referent.bind (fun named isLine => ?_)
    dsimp only
    split
    · next first value rest =>
        refine Composed.cast.bind (fun value _ => ?_)
        refine Composed.operand.bind (fun src fits => ?_)
        have isRegister (isStrict : f.strict) : Register.FitsLine ⟨holder, named.1⟩ :=
          ⟨isHolder isStrict, isLine isStrict⟩
        refine (Composed.bindRegister _ isRegister).bind (fun target _ => ?_)
        refine (Composed.store fits target).bind (fun cmds fit => ?_)
        exact (Composed.emit fit).bind (fun _ _ => .pure none)
    · exact .throw _
  | reset =>
    refine Composed.holderOf.bind (fun holder isHolder => ?_)
    refine Composed.referent.bind (fun named isLine => ?_)
    have fits (isStrict : f.strict) : (Command.reset ⟨holder, named.1⟩).FitsLine :=
      ⟨isHolder isStrict, isLine isStrict⟩
    exact (Composed.emitOne fits).bind (fun _ _ => .pure none)

/-! ## Operators -/

theorem undefinedOperation : Composed f (undefinedOperation target op : Position → Compile α) (fun _ => True) :=
  .var_bind target (fun _ _ _ => rfl) (fun _ _ => .throw _)

/-- The right side is converted before the two are compared. -/
theorem compareAs : Composed f (fun pos => do
    let right ← Compile.cast right typeName pos
    let lhs ← Compile.operand target pos
    let rhs ← Compile.operand right pos
    Compile.compare lhs op rhs pos) (fun _ => True) := by
  refine Composed.cast.bind (fun value _ => ?_)
  refine Composed.operand.bind (fun _ isLeft => ?_)
  exact Composed.operand.bind (fun _ isRight => .compare isLeft op isRight)

theorem operateInt : Composed f (operateInt target op right) (fun _ => True) := by
  unfold Compile.operateInt
  cases op.kind with
  | assignment =>
    refine Composed.cast.bind (fun value _ => ?_)
    refine Composed.operand.bind (fun src fits => ?_)
    refine (Composed.store fits target).bind (fun cmds fit => ?_)
    exact (Composed.emit fit).bind (fun _ _ => .pure target)
  | arithmetic => exact Composed.cast.bind (fun value _ => .arithmetic)
  | comparison => exact .compareAs
  | boolean | structural => exact .undefinedOperation

theorem operateText : Composed f (operateText target op right) (fun _ => True) := by
  have texts {next : String → String → Position → Compile VarId}
      (rest : ∀ lhs rhs, Composed f (next lhs rhs) (fun _ => True)) :
      Composed f (fun pos => do
        let right ← Compile.cast right ValueType.string.name pos
        let lhs ← Compile.textOf target pos
        let rhs ← Compile.textOf right pos
        next lhs rhs pos) (fun _ => True) := by
    refine Composed.cast.bind (fun value _ => ?_)
    refine Composed.textOf.bind (fun lhs _ => ?_)
    exact Composed.textOf.bind (fun rhs _ => rest lhs rhs)
  cases op with
  | assign =>
    refine Composed.cast.bind (fun value _ => ?_)
    exact Composed.copyTo.bind (fun _ _ => .pure target)
  | add => exact texts (fun _ _ => .constantText)
  | equal => exact texts (fun _ _ => .constantBool)
  | notEqual => exact texts (fun _ _ => .constantBool)
  | _ => exact .undefinedOperation

theorem operateObjective : Composed f (operateObjective target op right) (fun _ => True) := by
  cases op with
  | assign =>
    refine Composed.cast.bind (fun value _ => ?_)
    exact Composed.copyTo.bind (fun _ _ => .pure target)
  | _ => exact .undefinedOperation

theorem copyIntoTemporary : Composed f (copyIntoTemporary value) (fun _ => True) := by
  refine Composed.temporary.bind (fun temp _ => ?_)
  refine Composed.copyTo.bind (fun cmds fit => ?_)
  exact (Composed.emit fit).bind (fun _ _ => .pure temp)

/-- The name that is given can stand in a script. -/
theorem nameable : Composed f (nameable value) IsUnquoted := by
  refine .var_bind value (fun _ _ _ => rfl) (fun owner fits => ?_)
  refine .get_bind (fun _ _ _ alike => by simp only [alike.resolve]) (fun state _ => ?_)
  split
  · exact .result (fun isStrict => (fits isStrict).1)
  refine Composed.copyIntoTemporary.bind (fun temp _ => ?_)
  exact .var_bind temp (fun _ _ _ => rfl) (fun _ fits => .result (fun isStrict => (fits isStrict).1))

theorem guardRegister {register : Register} (fits : f.strict → register.FitsLine) (existing : Nat) :
    Composed f (Engine.guardRegister register existing) Register.FitsLine := by
  refine .get_bind (fun _ _ _ alike => by simp only [alike.predates]) (fun state _ => ?_)
  split
  · exact .result fits
  refine Composed.temporary.bind (fun snapshot _ => ?_)
  refine (Composed.store fits snapshot).bind (fun cmds fit => ?_)
  refine (Composed.emit fit).bind (fun _ _ => ?_)
  refine Composed.operand.bind (fun operand isCopy => ?_)
  cases operand with
  | resident copy => exact .result isCopy
  | constant score => exact .throw _

theorem named : Composed f (Engine.named word) (fun _ => True) := by
  unfold Engine.named
  split
  · exact .throw _
  refine .get_bind (fun _ _ _ alike => by simp only [alike.resolve]) (fun state _ => ?_)
  cases state.resolve word with
  | some id => exact .pure id
  | none => exact .throw _

theorem literal? (word : String) : (∀ p, Engine.literal? word p = none) ∨ ∃ step : Position → Compile VarId,
      (∀ p, Engine.literal? word p = some (step p)) ∧ Composed f step (fun _ => True) := by
  rcases Engine.literal?_uniform word with
    none | ⟨holds, is⟩ | ⟨text, is⟩ | ⟨score, is⟩ | ⟨cause, is, _⟩
  · exact .inl none
  · exact .inr ⟨_, is, .constantBool⟩
  · exact .inr ⟨_, is, .constantText⟩
  · exact .inr ⟨_, is, .constantInt⟩
  · exact .inr ⟨_, is, .throw cause⟩

end Composed

end Compile

end ScoreScript
