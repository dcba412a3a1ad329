import ScoreScript.Compiler
import ScoreScript.Proofs.Positions.Parts

/-!
# Steps over another engine

The steps of an engine use the engine below it. `Engine.Exchange` relates such a step to the same step
over another engine, for trees that differ in positions only. Where trees are kept within a budget, what
goes to the engine below is smaller. What holds of the operations and of two engines holds of every step
over them by induction.
-/

namespace ScoreScript

open List

open Tree

/-- Compile something as a unit of its own inside the current scope; the result is its path. -/
def Compile.inUnit (pos : Position) (body : Compile Unit) : Compile String := do
  let (path, scope) ← openUnit pos
  inScope scope body
  return path

/-! ## Scripts without quotes -/

section Scripts

variable {name right : String} {sep : Char}

private theorem quote_ne_separator (usable : Config.isSeparator sep = true) : '"' ≠ sep := by
  rintro rfl
  exact absurd usable (by decide)

private theorem notMem_negationScript (plain : IsUnquoted name) (usable : Config.isSeparator sep = true) :
    '"' ∉ (Compile.negationScript name sep).toList := by
  have := quote_ne_separator usable
  simp [Compile.negationScript, plain.2, this]

theorem notMem_conjunctionScript (plain : IsUnquoted name) (plain' : IsUnquoted right)
    (usable : Config.isSeparator sep = true) : '"' ∉ (Compile.conjunctionScript name right sep).toList := by
  have := quote_ne_separator usable
  simp [Compile.conjunctionScript, plain.2, plain'.2, this]

theorem notMem_disjunctionScript (plain : IsUnquoted name) (plain' : IsUnquoted right)
    (usable : Config.isSeparator sep = true) : '"' ∉ (Compile.disjunctionScript name right sep).toList := by
  have := quote_ne_separator usable
  simp [Compile.disjunctionScript, plain.2, plain'.2, this]

end Scripts

namespace Engine

open Compile
open Tree (Same Sames sizes)

/-- The second step is the first one with another engine in place of the one it uses, and with other
positions. -/
inductive Exchange (f : Footing) (budget : Nat) (engine other : Engine) :
    {α : Type} → Compile α → Compile α → (α → Prop) → Prop where
  | result {α : Type} {post : α → Prop} {a : α} (holds : f.strict → post a) :
      Exchange f budget engine other (Pure.pure a) (Pure.pure a) post
  | composed {α : Type} {step : Position → Compile α} {post : α → Prop} (composed : Composed f step post)
      {p q : Position} (placed : f.place p q) : Exchange f budget engine other (step p) (step q) post
  | evaluate {items items' : List Tree} (same : Sames f.place items items')
      (small : f.bounded → sizes items < budget) {p q : Position} (placed : f.place p q) :
      Exchange f budget engine other (engine.evaluate items p) (other.evaluate items' q) (fun _ => True)
  | write {tree tree' : Tree} (same : Same f.place tree tree')
      (within : f.bounded → tree.Within f.separator budget) :
      Exchange f budget engine other (engine.write tree) (other.write tree') (fun _ => True)
  | generate {script : String} (plain : f.strict → '"' ∉ script.toList) {p q : Position}
      (placed : f.place p q) :
      Exchange f budget engine other (engine.generate script p) (other.generate script q) IsLine
  | bind {α β : Type} {step step' : Compile α} {next next' : α → Compile β} {post : α → Prop}
      {last : β → Prop} (first : Exchange f budget engine other step step' post)
      (rest : ∀ a, (f.strict → post a) → Exchange f budget engine other (next a) (next' a) last) :
      Exchange f budget engine other (step >>= next) (step' >>= next') last
  | get_bind {α : Type} {next next' : State → Compile α} {post : α → Prop}
      (rest : ∀ s t : State, s.Alike f t → (f.strict → s.FitsLines) →
        Exchange f budget engine other (next s) (next' t) post) :
      Exchange f budget engine other (get >>= next) (get >>= next') post
  | var_bind {α : Type} (id : VarId) {next next' : Variable → Compile α} {post : α → Prop}
      (rest : ∀ var var' : Variable, var.Alike f.place var' → (f.strict → var.FitsLine) →
        Exchange f budget engine other (next var) (next' var') post) :
      Exchange f budget engine other (var id >>= next) (var id >>= next') post
  | lift_bind {α β : Type} {outcome outcome' : Except Fault β} {rel : β → β → Prop}
      {next next' : β → Compile α} {post : α → Prop} (concur : Concur f.place rel outcome outcome')
      (agree : Stays f.place → outcome = outcome')
      (rest : ∀ b b', rel b b' → outcome = .ok b → Exchange f budget engine other (next b) (next' b') post) :
      Exchange f budget engine other (liftM outcome >>= next) (liftM outcome' >>= next') post
  | inUnit {p q : Position} (placed : f.place p q) {body body' : Compile Unit} {post : Unit → Prop}
      (inside : Exchange f budget engine other body body' post) :
      Exchange f budget engine other (inUnit p body) (inUnit q body') IsLine

namespace Exchange

variable {f : Footing} {budget : Nat} {engine other : Engine} {α β : Type} {post : α → Prop}
  {items items' : List Tree} {tree tree' : Tree} {p q : Position} {op : Operator} {target value right : VarId}
  {cause : Cause}

theorem pure (a : α) : Exchange f budget engine other (Pure.pure a : Compile α) (Pure.pure a) (fun _ => True) :=
  .result (fun _ => trivial)

theorem throw (placed : f.place p q) : Exchange f budget engine other
    (MonadExcept.throw ⟨cause, p⟩ : Compile α) (MonadExcept.throw ⟨cause, q⟩) post :=
  .composed (.throw cause) placed

theorem throw_bind (placed : f.place p q) {next next' : β → Compile α} :
    Exchange f budget engine other (MonadExcept.throw ⟨cause, p⟩ >>= next)
      (MonadExcept.throw ⟨cause, q⟩ >>= next') post :=
  .throw placed

theorem seq {step : Position → Compile β} {next next' : β → Compile α} {first : β → Prop}
    (composed : Composed f step first) (placed : f.place p q)
    (rest : ∀ a, (f.strict → first a) → Exchange f budget engine other (next a) (next' a) post) :
    Exchange f budget engine other (step p >>= next) (step q >>= next') post :=
  .bind (.composed composed placed) rest

private theorem asLeaf_bind (same : Same f.place tree tree') {next next' : Token → Compile α}
    (rest : ∀ token token' : Token, token.text = token'.text → f.place token.position token'.position →
      Exchange f budget engine other (next token) (next' token') post) :
    Exchange f budget engine other (liftM tree.asLeaf >>= next) (liftM tree'.asLeaf >>= next') post :=
  .lift_bind same.asLeaf (fun stays => by rw [same.eq stays])
    (fun token token' word _ => rest token token' word.1 word.2)

/-! ## Sequences of trees -/

theorem evaluateItems (same : Sames f.place items items')
    (small : f.bounded → sizes items < budget) (placed : f.place p q) :
    Exchange f budget engine other (engine.evaluateItems items p) (other.evaluateItems items' q) (fun _ => True) := by
  have start := same.startOf placed
  refine .bind (.evaluate same small start) (fun value _ => ?_)
  cases value with
  | some value => exact .pure value
  | none => exact .throw start

theorem evaluateTree (same : Same f.place tree tree')
    (small : f.bounded → tree.size < budget ∨ tree.bracket? = some .paren ∧ tree.size ≤ budget) :
    Exchange f budget engine other (engine.evaluateTree tree) (other.evaluateTree tree') (fun _ => True) := by
  cases same with
  | leaf text placed =>
    refine .evaluateItems (.cons (.leaf text placed) .nil) (fun bounded => ?_) placed
    rcases small bounded with small | ⟨impossible, _⟩
    · simpa [sizes] using small
    · cases impossible
  | @group trees _ inner bracket divider pos _ placed =>
    cases bracket with
    | brace | square => exact .throw placed
    | line =>
      cases divider with
      | comma | statement => exact .throw placed
      | space =>
        refine .evaluateItems inner (fun bounded => ?_) placed
        rcases small bounded with small | ⟨impossible, _⟩
        · simpa [Tree.size] using small
        · cases impossible
    | paren =>
      cases divider with
      | comma | statement => exact .throw placed
      | space =>
        refine .evaluateItems inner (fun bounded => ?_) placed
        have size : (Tree.group trees .paren .space pos).size = 1 + sizes trees := by
          simp [Tree.size]
        have := small bounded
        omega

theorem evaluateAll {trees trees' : List Tree} (same : Sames f.place trees trees')
    (small : f.bounded → sizes trees < budget) :
    Exchange f budget engine other (engine.evaluateAll trees) (other.evaluateAll trees') (fun _ => True) := by
  induction same with
  | nil => exact .pure []
  | cons first rest ih =>
    refine .bind (.evaluateTree first (fun bounded => .inl ?_))
      (fun _ _ => .bind (ih (fun bounded => ?_)) (fun _ _ => .pure _))
    · have := small bounded
      rw [sizes] at this
      omega
    · have := small bounded
      rw [sizes] at this
      omega

theorem evaluateArguments (same : Same f.place tree tree') (small : f.bounded → tree.size ≤ budget) :
    Exchange f budget engine other (engine.evaluateArguments tree) (other.evaluateArguments tree') (fun _ => True) := by
  have shown := same.shown
  have none {place place' : Position} (placed : f.place place place') :
      Exchange f budget engine other
        (MonadExcept.throw ⟨.expectedArguments tree.shown, place⟩ : Compile (List VarId))
        (MonadExcept.throw ⟨.expectedArguments tree'.shown, place'⟩) (fun _ => True) := by
    rw [shown]
    exact .throw placed
  cases same with
  | leaf _ placed => exact none placed
  | @group trees _ inner bracket divider pos _ placed =>
    cases bracket with
    | brace | square | line => exact none placed
    | paren =>
      have inside (bounded : f.bounded) : sizes trees < budget := by
        have size : (Tree.group trees .paren divider pos).size = 1 + sizes trees := by
          simp [Tree.size]
        have := small bounded
        omega
      cases divider with
      | comma => exact .evaluateAll inner inside
      | statement => exact .throw placed
      | space =>
        cases inner with
        | nil => exact .pure []
        | cons first rest =>
          exact .bind (.evaluateItems (.cons first rest) inside placed) (fun _ _ => .pure _)

/-! ## Operations -/

theorem callGenerated {script : String} (plain : f.strict → '"' ∉ script.toList) (placed : f.place p q) :
    Exchange f budget engine other (engine.callGenerated script p) (other.callGenerated script q) (fun _ => True) :=
  .bind (.generate plain placed) (fun _ isLine => .composed (.emitCall isLine) placed)

theorem negate (placed : f.place p q) :
    Exchange f budget engine other (engine.negate value p) (other.negate value q) (fun _ => True) := by
  refine .seq .operand placed (fun operand _ => ?_)
  cases operand with
  | constant score => exact .composed .constantBool placed
  | resident reg =>
    refine .seq .copyIntoTemporary placed (fun result _ => .var_bind result ?_)
    rintro owner _ ⟨_, rfl, _⟩ plain
    refine .get_bind (fun s t alike fits => ?_)
    rw [← alike.config]
    refine .bind (.callGenerated (fun isStrict => ?_) placed) (fun _ _ => .pure result)
    exact notMem_negationScript (plain isStrict).1 (fits isStrict).usable.separator

theorem connect {left : VarId} {conjunction : Bool} (placed : f.place p q) :
    Exchange f budget engine other (engine.connect left conjunction right p)
      (other.connect left conjunction right q) (fun _ => True) := by
  refine .seq .operand placed (fun lhs _ => .seq .operand placed (fun rhs _ => ?_))
  match lhs, rhs with
  | .constant a, .constant b => exact .composed .constantBool placed
  | .constant a, .resident _ =>
    dsimp only
    split
    · exact .pure right
    · exact .composed .constantBool placed
  | .resident _, .constant b =>
    dsimp only
    split
    · exact .pure left
    · exact .composed .constantBool placed
  | .resident _, .resident _ =>
    refine .seq .copyIntoTemporary placed (fun result _ => .var_bind result ?_)
    rintro owner _ ⟨_, rfl, _⟩ plain
    refine .seq .nameable placed (fun name plain' => .get_bind (fun s t alike fits => ?_))
    rw [← alike.config]
    refine .bind (.callGenerated (fun isStrict => ?_) placed) (fun _ _ => .pure result)
    have usable := (fits isStrict).usable.separator
    split
    · exact notMem_conjunctionScript (plain isStrict).1 (plain' isStrict) usable
    · exact notMem_disjunctionScript (plain isStrict).1 (plain' isStrict) usable

theorem operateBool (placed : f.place p q) :
    Exchange f budget engine other (engine.operateBool target op right p)
      (other.operateBool target op right q) (fun _ => True) := by
  cases op with
  | assign =>
    refine .seq .cast placed (fun value _ => .seq .copyTo placed ?_)
    exact fun _ fit => .seq (.emit fit) placed (fun _ _ => .pure target)
  | negation => exact .negate placed
  | both => exact .seq .cast placed (fun _ _ => .connect placed)
  | either => exact .seq .cast placed (fun _ _ => .connect placed)
  | equal => exact .composed .compareAs placed
  | notEqual => exact .composed .compareAs placed
  | _ => exact .composed .undefinedOperation placed

theorem operate (placed : f.place p q) :
    Exchange f budget engine other (engine.operate target op right p) (other.operate target op right q)
      (fun _ => True) := by
  unfold Engine.operate
  split
  · exact .throw_bind placed
  refine .var_bind target ?_
  rintro owner _ ⟨_, rfl, _⟩ _
  dsimp only
  cases owner.type with
  | int => exact .composed .operateInt placed
  | bool => exact .operateBool placed
  | string => exact .composed .operateText placed
  | objective => exact .composed .operateObjective placed

theorem opposite (placed : f.place p q) :
    Exchange f budget engine other (engine.opposite value p) (other.opposite value q) (fun _ => True) :=
  .seq .constantInt placed (fun _ _ => .operate placed)

/-! ## Members -/

private theorem operateRest (target : VarId) (op : Operator) {rest rest' : List Tree}
    (same : Sames f.place rest rest') (small : f.bounded → sizes rest < budget) (placed : f.place p q) :
    Exchange f budget engine other
      (do
        if rest.isEmpty then MonadExcept.throw ⟨.expectedOperand op, p⟩
        let right ← engine.evaluateItems rest p
        return some (← engine.operate target op right p))
      (do
        if rest'.isEmpty then MonadExcept.throw ⟨.expectedOperand op, q⟩
        let right ← other.evaluateItems rest' q
        return some (← other.operate target op right q)) (fun _ => True) := by
  dsimp only
  rw [same.isEmpty]
  split
  · exact .throw_bind placed
  refine .bind (.evaluateItems same small placed) (fun right _ => ?_)
  exact .bind (.operate placed) (fun _ _ => .pure _)

theorem applyTrailer (trailer : Trailer) (target : VarId) {trees trees' : List Tree}
    (same : Sames f.place trees trees') (small : f.bounded → sizes trees ≤ budget) (placed : f.place p q) :
    Exchange f budget engine other (engine.applyTrailer trailer target p trees)
      (other.applyTrailer trailer target q trees') (fun _ => True) := by
  induction count : trees.length using Nat.strongRecOn
    generalizing trailer target trees trees' p q with
  | _ count ih =>
  cases same with
  | nil =>
    cases trailer with
    | operation => exact .pure _
    | member => exact .throw placed
  | @cons first first' rest rest' head tail =>
    have smaller (bounded : f.bounded) : first.size + sizes rest ≤ budget := small bounded
    have later (trailer : Trailer) (target : VarId) {p q : Position} (placed : f.place p q) :
        Exchange f budget engine other (engine.applyTrailer trailer target p rest)
          (other.applyTrailer trailer target q rest') (fun _ => True) := by
      refine ih rest.length ?_ trailer target tail (fun bounded => ?_) placed rfl
      · rw [← count]
        exact Nat.lt_succ_self _
      · exact Nat.le_trans (Nat.le_add_left _ _) (smaller bounded)
    cases trailer with
    | operation =>
      rw [Engine.applyTrailer, Engine.applyTrailer]
      refine .lift_bind head.operatorOf (fun stays => by rw [head.eq stays]) ?_
      rintro ⟨op, p⟩ ⟨_, q⟩ ⟨rfl, placed, one⟩ _
      have operated := @operateRest f budget engine other p q target op _ _ tail
        (fun bounded => by have := smaller bounded; omega) placed
      cases op with
      | access => exact later .member target placed
      | new => exact .throw placed
      | negation => exact .throw placed
      | _ => exact operated
    | member =>
      rw [Engine.applyTrailer, Engine.applyTrailer]
      refine .asLeaf_bind head (fun token token' text placed => .var_bind target ?_)
      rintro owner _ ⟨_, rfl, _⟩ _
      rw [text]
      simp only [Variable.member?]
      cases owner.members.lookup token'.text with
      | none => exact .throw placed
      | some member =>
        cases member with
        | field field => exact later .operation field placed
        | property property =>
          cases tail with
          | nil => exact .seq .readProperty placed (fun _ _ => .pure _)
          | @cons op op' value value' isOp values =>
            dsimp only
            rw [isOp.isWord, Sames.isEmpty values]
            split
            · next assigns =>
                split
                · exact .throw_bind placed
                split
                · exact .throw_bind isOp.position
                refine .bind (.evaluateItems values (fun bounded => ?_) placed) (fun value _ => ?_)
                · have one := size_of_isWord ((isOp.isWord "=").trans assigns)
                  have := smaller bounded
                  rw [sizes] at this
                  omega
                · exact .seq .assignProperty placed (fun _ _ => .pure none)
            · exact .seq .readProperty placed (fun result _ => later .operation result placed)
        | method method =>
          cases tail with
          | nil => exact .throw placed
          | @cons arguments arguments' rest rest' given tail =>
            have parts (bounded : f.bounded) : first.size + (arguments.size + sizes rest) ≤ budget := smaller bounded
            refine .bind (.evaluateArguments given (fun bounded => ?_)) (fun args _ => ?_)
            · have := parts bounded
              omega
            refine .seq .callMethod placed (fun result _ => ?_)
            cases result with
            | none =>
              dsimp only
              rw [Sames.isEmpty tail]
              split
              · exact .pure none
              · exact .throw placed
            | some result =>
              refine ih rest.length ?_ .operation result tail (fun bounded => ?_) placed rfl
              · rw [← count]
                simp only [length_cons]
                omega
              · have := parts bounded
                omega

/-! ## Expressions -/

theorem evaluateWord (word : List Char) (placed : f.place p q) :
    Exchange f budget engine other (engine.evaluateWord p word) (other.evaluateWord q word) (fun _ => True) := by
  induction word with
  | nil => exact .composed .named placed
  | cons c rest ih =>
    rw [Engine.evaluateWord, Engine.evaluateWord]
    rcases @Composed.literal? f (String.ofList (c :: rest)) with none | ⟨step, isLiteral, composed⟩
    · rw [none, none]
      dsimp only
      split
      · exact .bind ih (fun _ _ => .operate placed)
      split
      · exact .bind ih (fun _ _ => .opposite placed)
      · exact .composed .named placed
    · rw [isLiteral, isLiteral]
      exact .composed composed placed

theorem evaluatePrimary (same : Same f.place tree tree') (small : f.bounded → tree.size ≤ budget) :
    Exchange f budget engine other (engine.evaluatePrimary tree) (other.evaluatePrimary tree') (fun _ => True) := by
  cases same with
  | leaf text placed =>
    rw [Engine.evaluatePrimary, Engine.evaluatePrimary, text]
    exact .evaluateWord _ placed
  | group inner bracket divider placed =>
    cases bracket with
    | paren => exact .evaluateTree (.group inner _ _ placed) (fun bounded => .inr ⟨rfl, small bounded⟩)
    | line | brace | square => exact .throw placed

theorem evaluateMembers (value : VarId) {rest rest' : List Tree} (same : Sames f.place rest rest')
    (small : f.bounded → sizes rest ≤ budget) (placed : f.place p q) :
    Exchange f budget engine other (engine.evaluateMembers value rest p)
      (other.evaluateMembers value rest' q) (fun _ => True) := by
  cases same with
  | nil => exact .pure _
  | cons dot path =>
    rw [Engine.evaluateMembers, Engine.evaluateMembers, dot.isWord, dot.shown]
    split
    · refine .applyTrailer .member value path (fun bounded => ?_) placed
      have := small bounded
      rw [sizes] at this
      omega
    · exact .throw dot.position

theorem evaluateNew (same : Sames f.place items items')
    (small : f.bounded → sizes items ≤ budget) (placed : f.place p q) :
    Exchange f budget engine other (engine.evaluateNew items p) (other.evaluateNew items' q) (fun _ => True) := by
  cases same with
  | nil => exact .throw placed
  | cons head tail =>
    rw [Engine.evaluateNew, Engine.evaluateNew]
    refine .asLeaf_bind head (fun token token' text start => ?_)
    rw [text]
    refine .lift_bind (typeNamed_concur start) (fun stays => by rw [stays _ _ start]) ?_
    rintro type _ rfl _
    dsimp only
    split
    · exact .throw_bind start
    cases tail with
    | nil => exact .throw start
    | @cons arguments _ rest _ given tail =>
      have parts (bounded : f.bounded) : arguments.size + sizes rest ≤ budget :=
        Nat.le_trans (Nat.le_add_left _ _) (small bounded)
      refine .bind (.evaluateArguments given (fun bounded => ?_)) (fun args _ => ?_)
      · exact Nat.le_trans (Nat.le_add_right _ _) (parts bounded)
      refine .seq .construct placed (fun value _ => .evaluateMembers value tail ?_ placed)
      exact fun bounded => Nat.le_trans (Nat.le_add_left _ _) (parts bounded)

/-- An assignment evaluates its target, or the owner of the member that is its target. -/
theorem evaluateAssignment {target target' rest rest' : List Tree} {eq eq' : Tree}
    (same : Sames f.place target target') (isEq : Same f.place eq eq') (values : Sames f.place rest rest')
    (assigns : eq.isWord "=" = true) (small : f.bounded → sizes (target ++ eq :: rest) ≤ budget)
    (placed : f.place p q) : Exchange f budget engine other (engine.evaluateAssignment target eq rest p)
      (other.evaluateAssignment target' eq' rest' q) (fun _ => True) := by
  have one := size_of_isWord assigns
  have total (bounded : f.bounded) : sizes target + (1 + sizes rest) ≤ budget := by
    have := small bounded
    rwa [sizes_append, sizes, one] at this
  unfold Engine.evaluateAssignment
  dsimp only
  rw [same.isEmpty]
  split
  · exact .throw_bind placed
  have members := splitMember_same same
  cases isSplit : splitMember target with
  | none =>
    rw [isSplit] at members
    generalize splitMember target' = parts at members
    cases members
    refine .bind (.evaluateItems same (fun bounded => ?_) placed) (fun owner _ => ?_)
    · have := total bounded
      omega
    · refine .applyTrailer .operation owner (.cons isEq values) (fun bounded => ?_) isEq.position
      have := total bounded
      rw [sizes, one]
      omega
  | some parts =>
    obtain ⟨base, last⟩ := parts
    obtain ⟨dot, rfl, _⟩ := splitMember_eq isSplit
    rw [isSplit] at members
    generalize splitMember target' = parts at members
    cases members with
    | @some _ parts' related =>
      obtain ⟨base', last'⟩ := parts'
      have bases : Sames f.place base base' := related.1
      have lasts : Same f.place last last' := related.2
      rw [sizes_append, sizes, sizes, sizes] at total
      refine .bind (.evaluateItems bases (fun bounded => ?_) placed) (fun owner _ => ?_)
      · have := total bounded
        omega
      · refine .applyTrailer .member owner (.cons lasts (.cons isEq values)) (fun bounded => ?_) placed
        have := total bounded
        rw [sizes, sizes, one]
        omega

/-- The engine below evaluates parts that are smaller by one. -/
theorem evaluateSequence (same : Sames f.place items items')
    (small : f.bounded → sizes items ≤ budget) (placed : f.place p q) :
    Exchange f budget engine other (engine.evaluateSequence items p) (other.evaluateSequence items' q)
      (fun _ => True) := by
  cases same with
  | nil => exact .throw placed
  | @cons first first' rest rest' head tail =>
    have assignment := splitAssignment_same (.cons head tail)
    have loosest := splitLoosest_same (.cons head tail) Operator.levels 0
    unfold Engine.evaluateSequence
    dsimp only
    cases isAssignment : splitAssignment (first :: rest) with
    | some parts =>
      obtain ⟨target, eq, value⟩ := parts
      rw [isAssignment] at assignment
      generalize splitAssignment (first' :: rest') = parts at assignment
      cases assignment with
      | some related =>
        obtain ⟨whole, assigns⟩ := splitAssignment_eq isAssignment
        rw [whole] at small
        exact .evaluateAssignment related.1 related.2.1 related.2.2 assigns small head.position
    | none =>
    rw [isAssignment] at assignment
    generalize splitAssignment (first' :: rest') = parts at assignment
    cases assignment
    dsimp only
    cases isSplit : splitLoosest (first :: rest) Operator.levels 0 with
    | some parts =>
      obtain ⟨left, op, right⟩ := parts
      rw [isSplit] at loosest
      generalize splitLoosest (first' :: rest') Operator.levels 0 = parts at loosest
      cases loosest with
      | some related =>
        obtain ⟨whole, level, binary⟩ := splitLoosest_eq isSplit
        obtain ⟨token, symbol, rfl, _⟩ := isBinary_eq binary
        have total (bounded : f.bounded) : sizes left + (1 + sizes right) ≤ budget := by
          have := small bounded
          rwa [whole, sizes_append, sizes, Tree.size] at this
        have lefts : Sames f.place left _ := related.1
        refine .bind (.evaluateItems lefts (fun bounded => ?_) head.position) (fun value _ => ?_)
        · have := total bounded
          omega
        · exact .applyTrailer .operation value (.cons related.2.1 related.2.2)
            (fun bounded => Nat.le_trans (Nat.le_add_left _ _) (total bounded)) related.2.1.position
    | none =>
    rw [isSplit] at loosest
    generalize splitLoosest (first' :: rest') Operator.levels 0 = parts at loosest
    cases loosest
    dsimp only
    have total (bounded : f.bounded) : first.size + sizes rest ≤ budget := small bounded
    have smaller {word : String} (isWord : first'.isWord word = true) (bounded : f.bounded) : sizes rest < budget := by
      have := size_of_isWord ((head.isWord word).trans isWord)
      have := total bounded
      omega
    rw [head.isWord, head.isWord, head.isWord]
    split
    · next negated =>
        refine .bind (.evaluateItems tail (smaller negated) head.position) (fun value _ => ?_)
        exact .bind (.operate head.position) (fun _ _ => .pure _)
    split
    · next opposed =>
        refine .bind (.evaluateItems tail (smaller opposed) head.position) (fun value _ => ?_)
        exact .bind (.opposite head.position) (fun _ _ => .pure _)
    split
    · next made =>
        exact .evaluateNew tail (fun bounded => Nat.le_of_lt (smaller made bounded)) head.position
    · refine .bind (.evaluatePrimary head (fun bounded => ?_)) (fun value _ => ?_)
      · exact Nat.le_trans (Nat.le_add_right _ _) (total bounded)
      · exact .evaluateMembers value tail
          (fun bounded => Nat.le_trans (Nat.le_add_left _ _) (total bounded)) head.position

/-! ## Units -/

theorem writeAll {trees trees' : List Tree} (same : Sames f.place trees trees')
    (within : f.bounded → ∀ tree ∈ trees, tree.Within f.separator budget) :
    Exchange f budget engine other (engine.writeAll trees) (other.writeAll trees') (fun _ => True) := by
  induction same with
  | nil => exact .pure ()
  | cons head tail ih =>
    refine .bind (.write head (fun bounded => within bounded _ mem_cons_self)) (fun _ _ => ih ?_)
    exact fun bounded tree member => within bounded tree (mem_cons_of_mem _ member)

section

variable {tokens others : List Token} (texts : Token.Sames f.place tokens others)
  (light : f.bounded → Token.weigh f.separator false tokens + 2 ≤ budget)
include texts light

theorem compileTokens :
    Exchange f budget engine other (engine.compileTokens tokens) (other.compileTokens others) (fun _ => True) := by
  refine .get_bind (fun s t alike _ => ?_)
  refine .lift_bind (Layout.readStatements_concur alike.layout texts)
    (fun stays => by rw [alike.layout.eq stays, texts.eq stays]) (fun trees trees' same read => ?_)
  refine .writeAll same (fun bounded => ?_)
  have sep : s.layout.separator = f.separator := alike.separator bounded
  rw [← sep] at light ⊢
  exact Layout.readStatements_within read (light bounded)

theorem compileUnit (placed : f.place p q) :
    Exchange f budget engine other (engine.compileUnit tokens p) (other.compileUnit others q) IsLine :=
  .inUnit placed (.compileTokens texts light)

end

section Bodies

variable {body body' : Tree} (same : Same f.place body body')
  (light : f.bounded → Token.weigh f.separator false (bodyTokens body) + 2 ≤ budget)

include same light

theorem callBlock : Exchange f budget engine other (engine.callBlock body) (other.callBlock body') (fun _ => True) :=
  .bind (.compileUnit same.bodyTokens light same.position)
    (fun _ isLine => .composed (.emitCall isLine) same.position)

theorem callGuarded (ifZero : Bool) {reg : Register} (fits : f.strict → reg.FitsLine) :
    Exchange f budget engine other (engine.callGuarded ifZero reg body)
      (other.callGuarded ifZero reg body') (fun _ => True) := by
  refine .bind (.compileUnit same.bodyTokens light same.position) (fun path isLine => ?_)
  refine .get_bind (fun s t alike after => ?_)
  rw [← alike.call]
  have called (isStrict : f.strict) :
      (Command.guarded ifZero (.inRange reg (.exactly 0)) (s.call path)).FitsLine :=
    ⟨fits isStrict, isLine_of_isPathSegment (after isStrict).usable.nameSpace, isLine isStrict⟩
  exact .composed (.emitOne called) same.position

end Bodies

/-! ## Statements -/

theorem initialValue (name : String) {rest rest' : List Tree} (same : Sames f.place rest rest')
    (small : f.bounded → sizes rest ≤ budget) :
    Exchange f budget engine other (engine.initialValue name rest) (other.initialValue name rest') (fun _ => True) := by
  cases same with
  | nil => exact .pure none
  | @cons eq eq' value value' head tail =>
    rw [Engine.initialValue, Engine.initialValue, head.isWord, head.shown]
    split
    · next assigns =>
        refine .bind (.evaluateItems tail (fun bounded => ?_) head.position) (fun _ _ => .pure _)
        have := size_of_isWord ((head.isWord "=").trans assigns)
        have := small bounded
        rw [sizes] at this
        omega
    · refine .get_bind (fun s t alike _ => ?_)
      rw [alike.config]
      exact .throw head.position

theorem writeDeclaration (same : Sames f.place items items')
    (start : f.place (startOf items default) (startOf items' default)) (small : f.bounded → sizes items ≤ budget) :
    Exchange f budget engine other (engine.writeDeclaration items) (other.writeDeclaration items') (fun _ => True) := by
  rw [Engine.writeDeclaration, Engine.writeDeclaration]
  refine .lift_bind (readModifiers_concur none none same) (fun stays => by rw [Sames.eq stays same]) ?_
  rintro ⟨access, usage, items⟩ ⟨_, _, items'⟩ ⟨rfl, rfl, parts, before, whole⟩ _
  have total (bounded : f.bounded) : sizes before + sizes items ≤ budget := by
    rw [← sizes_append]
    exact whole ▸ small bounded
  dsimp only at parts ⊢
  cases parts with
  | nil => exact .throw start
  | cons type parts =>
    refine .asLeaf_bind type (fun token token' text placed => ?_)
    rw [text]
    refine .lift_bind (typeNamed_concur placed) (fun stays => by rw [stays _ _ placed]) ?_
    rintro type _ rfl _
    cases parts with
    | nil => exact .throw placed
    | cons name rest =>
      refine .asLeaf_bind name (fun token token' text placed => ?_)
      rw [text]
      refine .bind (.initialValue _ rest (fun bounded => ?_)) (fun value _ => ?_)
      · have := total bounded
        rw [sizes, sizes] at this
        omega
      refine .seq (.declare _ _ _ _) placed (fun id _ => ?_)
      cases value with
      | some value => exact .bind (.operate start) (fun _ _ => .pure ())
      | none =>
        dsimp only
        split
        · exact .throw placed
        · exact .pure ()

theorem writeBranches {cond condition' body body' : Tree} {alternative alternative' : Option Tree}
    (conditions : Same f.place cond condition') (bodies : Same f.place body body')
    (alternatives : Option.Rel (Same f.place) alternative alternative') (small : f.bounded → cond.size < budget)
    (light : f.bounded → ∀ part ∈ body :: alternative.toList,
      Token.weigh f.separator false (bodyTokens part) + 2 ≤ budget) :
    Exchange f budget engine other (engine.writeBranches cond body alternative)
      (other.writeBranches condition' body' alternative') (fun _ => True) := by
  have placed := conditions.position
  refine .get_bind (fun s t alike _ => ?_)
  rw [alike.size]
  refine .bind (.evaluateTree conditions (fun bounded => .inl (small bounded))) (fun value _ => ?_)
  refine .seq .cast placed (fun value _ => .seq .operand placed (fun operand fits => ?_))
  have first (bounded : f.bounded) := light bounded body mem_cons_self
  cases alternatives with
  | none =>
    cases operand with
    | resident reg => exact .callGuarded bodies first false fits
    | constant score =>
      dsimp only
      cases score != 0 with
      | true => exact .callBlock bodies first
      | false => exact .pure ()
  | @some last last' second =>
    have later (bounded : f.bounded) :=
      light bounded last (mem_cons_of_mem _ mem_cons_self)
    cases operand with
    | resident reg =>
      refine .seq (.guardRegister fits _) placed (fun reg isGuard => ?_)
      exact .bind (.callGuarded bodies first false isGuard) (fun _ _ => .callGuarded second later true isGuard)
    | constant score =>
      dsimp only
      cases score != 0 with
      | true => exact .callBlock bodies first
      | false => exact .callBlock second later

theorem writeIf (same : Same f.place tree tree')
    (parts : f.bounded → ∃ cond body alternative, tree.IfOf cond body alternative ∧
      cond.size < budget ∧ ∀ part ∈ body :: alternative.toList,
        Token.weigh f.separator false (bodyTokens part) + 2 ≤ budget) :
    Exchange f budget engine other (engine.writeIf tree) (other.writeIf tree') (fun _ => True) := by
  refine .lift_bind same.asChildren (fun stays => by rw [same.eq stays]) (fun trees trees' inner known => ?_)
  have placed := same.position
  obtain _ | ⟨keyword, _ | ⟨cond, _ | ⟨body, _ | ⟨word, _ | ⟨last, _ | _⟩⟩⟩⟩⟩ := inner
  · exact .throw placed
  · exact .throw placed
  · exact .throw placed
  · refine .writeBranches cond body .none (fun bounded => ?_) (fun bounded => ?_) <;>
      · obtain ⟨_, _, _, ifOf, small, light⟩ := parts bounded
        cases ifOf <;> cases known
        first | exact small | exact light
  · exact .throw placed
  · refine .writeBranches cond body (.some last) (fun bounded => ?_) (fun bounded => ?_) <;>
      · obtain ⟨_, _, _, ifOf, small, light⟩ := parts bounded
        cases ifOf <;> cases known
        first | exact small | exact light
  · exact .throw placed

theorem writeStatement (same : Same f.place tree tree') (within : f.bounded → tree.Within f.separator (budget + 1)) :
    Exchange f budget engine other (engine.writeStatement tree) (other.writeStatement tree') (fun _ => True) := by
  have small (bounded : f.bounded) := (within bounded).sizes_items
  have placed := same.position
  have sames := same.items
  unfold Engine.writeStatement
  generalize tree'.items = items' at sames ⊢
  generalize parts : tree.items = items at sames small ⊢
  have evaluated : Exchange f budget engine other
      (do let _ ← engine.evaluate items tree.position) (do let _ ← other.evaluate items' tree'.position)
      (fun _ => True) :=
    .bind (.evaluate sames small placed) (fun _ _ => .pure ())
  cases sames with
  | nil => exact evaluated
  | @cons first first' rest rest' head tail =>
    dsimp only
    rw [← head.word?, ← head.isWord, ← isBlock_same (.cons head tail),
      ← isDeclaration_same (.cons head tail)]
    split
    · next keyword =>
        refine .writeIf same (fun bounded => ?_)
        obtain ⟨cond, body, alternative, ifOf⟩ :=
          (within bounded).isStatement.ifOf parts (Tree.word?_of_isKeyword keyword)
        exact ⟨cond, body, alternative, ifOf, (within bounded).ifOf ifOf⟩
    split
    · exact .throw head.position
    split
    · next block =>
        obtain ⟨isBody, rfl⟩ := isBlock_eq block
        exact .callBlock head (fun bounded => (within bounded).block parts isBody)
    split
    · exact .writeDeclaration (.cons head tail) head.position
        (fun bounded => Nat.le_of_lt (small bounded))
    · exact evaluated

/-! ## Nothing but the engine -/

section Still

variable {strict : Prop}

theorem evaluateSequence_still (items : List Tree) (pos : Position) :
    Exchange (.still strict) 0 engine other (engine.evaluateSequence items pos)
      (other.evaluateSequence items pos) (fun _ => True) :=
  .evaluateSequence (.refl (fun _ => rfl) items) False.elim rfl

theorem writeStatement_still (tree : Tree) : Exchange (.still strict) 0 engine other
    (engine.writeStatement tree) (other.writeStatement tree) (fun _ => True) :=
  .writeStatement (.refl (fun _ => rfl) tree) False.elim

theorem compileTokens_still (tokens : List Token) : Exchange (.still strict) 0 engine other
    (engine.compileTokens tokens) (other.compileTokens tokens) (fun _ => True) :=
  .compileTokens (.refl (fun _ => rfl) tokens) False.elim

theorem compileScript_still (script : String) (pos : Position) :
    Exchange (.still strict) 0 engine other (engine.compileScript script pos)
      (other.compileScript script pos) IsLine := by
  refine .get_bind (fun s t alike _ => ?_)
  rw [alike.layout.eq (fun _ _ => id)]
  refine .lift_bind (.refl (fun _ => rfl) _) (fun _ => rfl) ?_
  rintro tokens _ rfl _
  exact .compileUnit (.refl (fun _ => rfl) tokens) False.elim rfl

end Still

end Exchange

end Engine

end ScoreScript
