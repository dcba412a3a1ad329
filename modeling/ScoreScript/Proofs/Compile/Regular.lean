import ScoreScript.Proofs.Compile.Targets

/-!
# Engines and their changes

An engine is regular when all it does are changes of the list, whatever state it starts from and
whether or not it succeeds. An engine that uses a regular one for what lies deeper is regular
itself.
-/

namespace ScoreScript

open List

open Tree

variable {items trees value : List Tree} {pos : Position} {eq tree : Tree} {target : VarId}
  {op : Operator}

namespace Engine

open Compile State

/-- What a word gives: a new variable that is no objective, or what its name stands for. -/
def Says (s : State) (word : String) (result : Option VarId) (t : State) : Prop :=
  ∀ id, result = some id → (∃ type, type ≠ .objective ∧ t.IsVar type id) ∧ (∀ pos, literal? word pos ≠ none) ∨
      (∃ pos, literal? word pos = none) ∧ t = s ∧ s.resolve word = some id

/-- All that an engine does are changes of the list. -/
structure Regular (engine : Engine) (mode : Mode) : Prop where
  evaluate : ∀ (s : State) (items : List Tree) (pos : Position), s.Fair mode → s.Accepts mode items →
    Acts mode s (engine.evaluate items pos)
      (fun result t => ∀ id, result = some id → ¬ s.Constructs items → t.Apart mode id)
  word : ∀ (s : State) (token : Token) (pos : Position), IsSegment token.text →
    Acts mode s (engine.evaluate [.leaf token] pos) (Says s token.text)
  write : ∀ (s : State) (tree : Tree), s.Fair mode → (mode.faithful → tree.IsStatement ∧ s.Writes tree) →
    Acts mode s (engine.write tree) (fun _ _ => True)
  generate : ∀ (s : State) (script : String) (pos : Position), s.Fair mode → (mode.faithful → s.Scripted script) →
    Acts mode s (engine.generate script pos) (fun _ _ => True)

variable {mode : Mode} {s : State} {engine : Engine}

abbrev GivesApart (mode : Mode) (result : Option VarId) (t : State) : Prop :=
  ∀ id, result = some id → t.Apart mode id

def Inert (mode : Mode) (s : State) (tree : Tree) : Prop :=
  mode.faithful → ∀ sequence ∈ tree.sequences, rebinds s.config sequence = false

private theorem accepts_word (fair : s.Fair mode) (token : Token) : s.Accepts mode [.leaf token] := by
  refine fair.accepts (fun _ => ?_)
  by_cases assigns : token.text = "="
  · simp [rebinds, splitAssignment, Tree.isWord, Tree.word?, assigns, Tree.constructs,
      Tree.Inert, sequencesIn, sequences]
  · simp [rebinds, splitAssignment, Tree.isWord, Tree.word?, assigns, Tree.Inert, sequencesIn, sequences]

namespace Regular

/-! ## Parts of expressions -/

section

variable (regular : engine.Regular mode) (fair : s.Fair mode)
include regular fair

theorem evaluateItems_acts (accepts : s.Accepts mode items) :
    Acts mode s (engine.evaluateItems items pos) (fun id t => ¬ s.Constructs items → t.Apart mode id) := by
  refine .bind (regular.evaluate s items _ fair accepts) ?_
  rintro (_ | value) t _ result
  · exact .throw
  · exact .pure (result value rfl)

theorem evaluateTree_acts (inert : Inert mode s tree) : Acts mode s (engine.evaluateTree tree)
      (fun id t => ∀ children pos, tree = .group children .paren .space pos →
        ¬ s.Constructs children → t.Apart mode id) := by
  have accepts {children : List Tree} {bracket : Bracket} {divider : Divider} {pos : Position}
      (same : tree = .group children bracket divider pos) (evaluated : bracket ≠ .brace) :
      s.Accepts mode children := by
    subst same
    exact fair.accepts (fun faithful => Tree.Inert.children (inert faithful) evaluated)
  unfold evaluateTree
  split
  · next token =>
      exact (regular.evaluateItems_acts fair (accepts_word fair token)).mono
        (fun _ _ _ _ _ _ impossible => by cases impossible)
  · exact (regular.evaluateItems_acts fair (accepts rfl nofun)).mono
      (fun _ _ _ _ _ _ impossible => by cases impossible)
  · refine (regular.evaluateItems_acts fair (accepts rfl nofun)).mono ?_
    rintro id t _ result _ _ ⟨⟩
    exact result
  · exact .throw
  · exact .throw

private theorem evaluateAll_acts (inert : ∀ tree ∈ trees, Inert mode s tree) :
    Acts mode s (engine.evaluateAll trees) (fun _ _ => True) := by
  induction trees generalizing s with
  | nil => exact .pure trivial
  | cons tree trees ih =>
    rw [forall_mem_cons] at inert
    refine .bind (regular.evaluateTree_acts fair inert.1) (fun value t changes _ => ?_)
    refine .bind (ih (fair.changes changes) ?_) (fun _ _ _ _ => .pure trivial)
    intro tree member faithful
    rw [changes.retains.config]
    exact inert.2 tree member faithful

private theorem evaluateArguments_acts (inert : Inert mode s tree) :
    Acts mode s (engine.evaluateArguments tree) (fun _ _ => True) := by
  unfold evaluateArguments
  split
  · refine regular.evaluateAll_acts fair (fun child member faithful => ?_)
    exact (Tree.Inert.children (inert faithful) nofun).2.member member
  · exact .pure trivial
  · refine .bind (regular.evaluateItems_acts fair (fair.accepts (fun faithful => ?_))) (fun _ _ _ _ => .pure trivial)
    exact Tree.Inert.children (inert faithful) nofun
  · exact .throw
  · exact .throw

/-! ## Operators -/

private theorem callGenerated_acts {script : String} (scripted : mode.faithful → s.Scripted script) :
    Acts mode s (engine.callGenerated script pos) (fun _ _ => True) := by
  refine .bind (regular.generate s script pos fair scripted) (fun path t _ _ => ?_)
  exact .get_bind emit_acts

private theorem negate_acts {value : VarId} : Acts mode s (engine.negate value pos) (fun id t => t.Apart mode id) := by
  refine .bind operand_acts ?_
  rintro (score | reg) _ _ rfl
  · exact constant_plain.mono (fun _ _ _ plain _ => plain)
  · refine .bind (copyIntoTemporary_acts fair) ?_
    rintro result t changes ⟨plain, _⟩
    have fair := fair.changes changes
    refine .var_bind (fun copied found => .get_bind ?_)
    refine .bind (regular.callGenerated_acts fair (fun faithful => ?_))
      (fun _ u changes _ => .pure (fun _ => changes.plain plain))
    exact .negation ((fair faithful).named result copied found)

private theorem connect_acts {left right : VarId} (apart : s.Apart mode left) (apart' : s.Apart mode right)
    {conjunction : Bool} :
    Acts mode s (engine.connect left conjunction right pos) (fun id t => t.Apart mode id) := by
  have known (t : State) (holds : Bool) : Acts mode t (constantBool holds pos) (fun id t => t.Apart mode id) :=
    constant_plain.mono (fun _ _ _ plain _ => plain)
  refine .bind operand_acts ?_
  rintro lhs _ _ rfl
  refine .bind operand_acts ?_
  rintro rhs _ _ rfl
  match lhs, rhs with
  | .constant a, .constant b => exact known _ _
  | .constant a, .resident _ =>
    dsimp only
    split
    · exact .pure apart'
    · exact known _ _
  | .resident _, .constant b =>
    dsimp only
    split
    · exact .pure apart
    · exact known _ _
  | .resident _, .resident _ =>
    refine .bind (copyIntoTemporary_acts fair) ?_
    rintro result t changes ⟨plain, copied, found, isBool, bound⟩
    have fair := fair.changes changes
    refine .var_bind (fun other there => ?_)
    rw [found] at there
    cases there
    refine .bind (nameable_acts fair) (fun name u later segment => .get_bind ?_)
    have fair' := fair.changes later
    refine .bind (regular.callGenerated_acts fair' (fun faithful => ?_))
      (fun _ v last _ => .pure (fun _ => last.plain (later.plain plain)))
    have own := (fair faithful).named result copied found
    cases conjunction with
    | false => exact .disjunction own (segment faithful)
    | true =>
      refine .conjunction own (segment faithful) (.inr (fun id resolved => ?_))
      have bound' : u.scopes.lookup u.current copied.name = some result := by
        rw [later.current]
        exact later.kept bound
      rw [State.resolve, ScopeTree.resolve_of_lookup bound'] at resolved
      cases resolved
      obtain ⟨value, found', _⟩ := later.retains.vars result copied found
      exact ⟨_, found', isBool⟩

private theorem operateBool_acts (apart : s.Apart mode target) {right : VarId} :
    Acts mode s (engine.operateBool target op right pos) (fun id t => t.Apart mode id) := by
  have connects (conjunction : Bool) : Acts mode s (do
      let value ← cast right ValueType.bool.name pos
      engine.connect target conjunction value pos) (fun id t => t.Apart mode id) := by
    refine .bind (cast_apart fair right (by decide) pos) (fun value t changes apart' => ?_)
    exact regular.connect_acts (fair.changes changes) (apart.changes changes) apart'
  have compares : Acts mode s (do
      let right ← cast right ValueType.bool.name pos
      let lhs ← operand target pos
      let rhs ← operand right pos
      compare lhs op rhs pos) (fun id t => t.Apart mode id) := by
    refine .bind cast_acts (fun value t _ _ => ?_)
    refine .bind operand_acts (fun lhs u _ _ => ?_)
    refine .bind operand_acts (fun rhs v _ _ => ?_)
    exact compare_acts.mono (fun _ _ _ plain _ => plain)
  cases op with
  | assign =>
    refine .bind cast_acts (fun value t changes _ => ?_)
    have apart := apart.changes changes
    refine .bind (copyTo_acts (fair.changes changes) (fun faithful => .inl (apart faithful)))
      (fun cmds u changes' _ => ?_)
    refine .bind emit_acts (fun _ v changes'' _ => .pure ?_)
    exact (apart.changes changes').changes changes''
  | negation => exact regular.negate_acts fair
  | both => exact connects true
  | either => exact connects false
  | equal => exact compares
  | notEqual => exact compares
  | _ => exact undefinedOperation_acts

theorem operate_acts {right : VarId}
    (apart : mode.faithful → op = .assign → s.Plain target ∨ ¬ s.IsVar .objective right) :
    Acts mode s (engine.operate target op right pos) (fun id t => t.Apart mode id) := by
  unfold operate
  dsimp only
  split
  · exact .throw
  refine .var_bind (fun owner found => ?_)
  have other (type : owner.type ≠ .objective) : s.Apart mode target := fun faithful =>
    (fair faithful).plain_of_type found type
  cases type : owner.type with
  | int => exact operateInt_acts (other (by rw [type]; decide))
  | bool => exact regular.operateBool_acts fair (other (by rw [type]; decide))
  | string => exact operateText_acts fair (other (by rw [type]; decide))
  | objective => exact operateObjective_acts fair apart

theorem opposite_acts {value : VarId} : Acts mode s (engine.opposite value pos) (fun id t => t.Apart mode id) := by
  refine .bind constant_plain (fun nought t changes _ => ?_)
  exact regular.operate_acts (fair.changes changes) (fun _ => nofun)

end

/-! ## Operators and members on the right of a value -/

def Trails (mode : Mode) (s : State) (trees : List Tree) : Prop :=
  mode.faithful → Tree.Unassigned trees ∧ Tree.Inert s.config trees

theorem Trails.accepts (trails : Trails mode s trees) (fair : s.Fair mode) : s.Accepts mode trees :=
  fair.accepts (fun faithful =>
    (trails faithful).imp_left (rebinds_of_unassigned s.config))

theorem Trails.suffix (before : List Tree) {t : State} (trails : Trails mode s (before ++ trees))
    (changes : State.Changes mode.sure s t) : Trails mode t trees := by
  intro faithful
  obtain ⟨unassigned, inert⟩ := trails faithful
  rw [changes.retains.config]
  exact ⟨fun tree member => unassigned tree (mem_append_right _ member), inert.suffix⟩

theorem Trails.head (trails : Trails mode s (tree :: trees)) : Inert mode s tree :=
  fun faithful => (trails faithful).2.member (mem_cons_self ..)

private theorem operatorOf_assign (found : operatorOf tree = .ok (.assign, pos)) : tree.isWord "=" = true := by
  rcases operatorOf_cases tree with ⟨fault, failed, _⟩ | ⟨token, op, rfl, written, isOp⟩
  · rw [failed] at found
    cases found
  · rw [isOp] at found
    cases found
    simp [Tree.isWord, Tree.word?, ← written, Operator.symbol]

theorem applyTrailer_acts (regular : engine.Regular mode) (fair : s.Fair mode) (trailer : Trailer)
    (trails : Trails mode s trees) (apart : trailer = .operation → trees = [] → s.Apart mode target) :
    Acts mode s (engine.applyTrailer trailer target pos trees) (GivesApart mode) := by
  -- The arguments of a method are taken off together with its name, so the induction is on the
  -- number of trees.
  induction count : trees.length using Nat.strongRecOn generalizing s trailer target trees pos
  rename_i count ih
  subst count
  cases trees with
  | nil =>
    cases trailer with
    | operation =>
      refine .pure ?_
      rintro _ ⟨⟩
      exact apart rfl rfl
    | member => exact .throw
  | cons first rest =>
    have goesOn {t : State} {trailer : Trailer} {value : Nat} {pos : Position}
        {trees : List Tree} (suffix : trees <:+ rest) (changes : State.Changes mode.sure s t)
        (given : trailer = .operation → t.Apart mode value) :
        Acts mode t (engine.applyTrailer trailer value pos trees) (GivesApart mode) := by
      obtain ⟨before, rfl⟩ := suffix
      refine ih trees.length ?_ (fair.changes changes) trailer ?_ (fun isOperation _ => given isOperation) rfl
      · simp only [length_cons, length_append]
        omega
      · exact Trails.suffix (first :: before) trails changes
    cases trailer with
    | operation =>
      rw [applyTrailer]
      refine .lift_bind ?_
      rintro ⟨op, place⟩ found
      have operates : Acts mode s (if rest.isEmpty then throw ⟨.expectedOperand op, place⟩
          else do
            let right ← engine.evaluateItems rest place
            return some (← engine.operate target op right place))
          (GivesApart mode) := by
        split
        · exact .throw
        · have accepts := (Trails.suffix [first] trails .refl).accepts fair
          refine .bind (regular.evaluateItems_acts fair accepts) (fun right t changes _ => ?_)
          refine .bind (regular.operate_acts (fair.changes changes) ?_) ?_
          · rintro faithful rfl
            have assigns := operatorOf_assign found
            rw [(trails faithful).1 first (mem_cons_self ..)] at assigns
            cases assigns
          · intro result u _ apart
            refine .pure ?_
            rintro _ ⟨⟩
            exact apart
      cases op with
      | access => exact goesOn suffix_rfl .refl (by rintro ⟨⟩)
      | new => exact Acts.throw
      | negation => exact Acts.throw
      | _ => exact operates
    | member =>
      rw [applyTrailer]
      refine .lift_bind (fun token _ => .var_bind (fun owner isOwner => ?_))
      cases isMember : owner.member? token.text with
      | none => exact .throw
      | some member =>
        cases member with
        | field field =>
          exact goesOn suffix_rfl .refl (fun _ faithful => (fair faithful).plain_field isOwner isMember)
        | property property =>
          cases rest with
          | nil =>
            refine .bind readProperty_acts (fun value t _ plain => .pure ?_)
            rintro _ ⟨⟩
            exact fun _ => plain
          | cons op value =>
            dsimp only
            split
            · next assigns =>
                split
                · exact .throw
                split
                · exact .throw
                have accepts := (Trails.suffix [first, op] trails .refl).accepts fair
                refine .bind (regular.evaluateItems_acts fair accepts) (fun given t _ _ => ?_)
                refine .bind assignProperty_acts (fun _ _ _ _ => .pure (by rintro _ ⟨⟩))
            · refine .bind readProperty_acts (fun read t changes plain => ?_)
              exact goesOn suffix_rfl changes (fun _ _ => plain)
        | method method =>
          cases rest with
          | nil => exact .throw
          | cons arguments others =>
            have inert : Inert mode s arguments :=
              Trails.head (Trails.suffix [first] trails .refl)
            refine .bind (regular.evaluateArguments_acts fair inert)
              (fun args t changes _ => ?_)
            refine .bind callMethod_acts ?_
            rintro (_ | value) u changes' plain
            · dsimp only
              split
              · exact .pure (by rintro _ ⟨⟩)
              · exact .throw
            · exact goesOn (suffix_cons _ _) (changes.trans changes')
                (fun _ _ => plain value rfl)

private theorem evaluateTruth_acts (regular : engine.Regular mode) (truth : isTruth items = true) :
    Acts mode s (engine.evaluateItems items pos) (fun id t => ¬ t.IsVar .objective id) := by
  obtain ⟨token, rfl, isLiteral⟩ : ∃ token, items = [.leaf token] ∧ (token.text = "true" ∨ token.text = "false") := by
    match items with
    | [] | _ :: _ :: _ => cases truth
    | [tree] =>
      rcases Bool.or_eq_true_iff.mp truth with isTrue | isFalse
      · obtain ⟨token, rfl, text⟩ := isWord_eq isTrue
        exact ⟨token, rfl, .inl text⟩
      · obtain ⟨token, rfl, text⟩ := isWord_eq isFalse
        exact ⟨token, rfl, .inr text⟩
  obtain ⟨_, _, isTrue, isFalse⟩ := isSegment_keywords
  have segment : IsSegment token.text := by
    rcases isLiteral with same | same <;> rw [same] <;> assumption
  refine .bind (regular.word s token _ segment) ?_
  rintro (_ | value) t _ said
  · exact .throw
  · refine .pure ?_
    rcases said value rfl with ⟨⟨type, other, var, found, isType⟩, _⟩ | ⟨⟨place, bare⟩, _⟩
    · rintro ⟨_, found', isObjective⟩
      rw [found] at found'
      cases found'
      exact other (isType.symm.trans isObjective)
    · rcases isLiteral with same | same <;>
        · rw [same] at bare
          cases bare

theorem applyAssignment_acts (regular : engine.Regular mode) (fair : s.Fair mode) (assigns : eq.isWord "=" = true)
    (accepts : s.Accepts mode value) (apart : mode.faithful → s.Plain target ∨ isTruth value = true) :
    Acts mode s (engine.applyTrailer .operation target pos (eq :: value)) (GivesApart mode) := by
  obtain ⟨token, rfl, text⟩ := isWord_eq assigns
  have isAssign : operatorOf (.leaf token) = .ok (.assign, token.position) := by
    rw [operatorOf, text]
    rfl
  rw [applyTrailer]
  refine Leads.ok_bind (a := (.assign, token.position)) (by rw [runFrom_lift, isAssign]) ?_
  dsimp only
  split
  · exact Acts.throw
  have evaluated : Acts mode s (engine.evaluateItems value token.position)
      (fun right t => mode.faithful → t.Plain target ∨ ¬ t.IsVar .objective right) := by
    by_cases faithful : mode.faithful
    · rcases apart faithful with plain | truth
      · exact (regular.evaluateItems_acts fair accepts).mono (fun _ _ changes _ _ => .inl (changes.plain plain))
      · exact (regular.evaluateTruth_acts truth).mono (fun _ _ _ other _ => .inr other)
    · exact (regular.evaluateItems_acts fair accepts).mono (fun _ _ _ _ isFaithful => absurd isFaithful faithful)
  refine Acts.bind evaluated (fun right t changes apart => ?_)
  refine .bind (regular.operate_acts (fair.changes changes)
    (fun faithful _ => apart faithful)) (fun result u _ apart => .pure ?_)
  rintro _ ⟨⟩
  exact apart

private theorem applyMember_acts (regular : engine.Regular mode) (fair : s.Fair mode) {member : Tree}
    (assigns : eq.isWord "=" = true) (accepts : s.Accepts mode value) :
    Acts mode s (engine.applyTrailer .member target pos (member :: eq :: value)) (GivesApart mode) := by
  rw [applyTrailer]
  refine .lift_bind (fun token _ => .var_bind (fun owner isOwner => ?_))
  cases isMember : owner.member? token.text with
  | none => exact .throw
  | some member =>
    cases member with
    | field field =>
      refine regular.applyAssignment_acts fair assigns accepts (fun faithful => .inl ?_)
      exact (fair faithful).plain_field isOwner isMember
    | property property =>
      dsimp only
      rw [if_pos assigns]
      split
      · exact .throw
      split
      · exact .throw
      refine .bind (regular.evaluateItems_acts fair accepts) (fun given t _ _ => ?_)
      exact .bind assignProperty_acts (fun _ _ _ _ => .pure (by rintro _ ⟨⟩))
    | method method =>
      obtain ⟨word, rfl, _⟩ := isWord_eq assigns
      exact Leads.of_error (runFrom_bind_error rfl _) .refl

end Regular

/-! ## Words -/

private theorem literal?_acts {word : String} {step : Compile VarId} (literal : literal? word pos = some step) :
    Acts mode s step (fun id t => t.Plain id ∧ ∃ type, type ≠ .objective ∧ t.IsVar type id) := by
  have constant (type : ValueType) (other : type ≠ .objective) (value : Value) :
      Acts mode s (Compile.constant type value pos)
        (fun id t => t.Plain id ∧ ∃ type, type ≠ .objective ∧ t.IsVar type id) :=
    constant_acts.mono
      (fun _ _ _ result => ⟨result.1, type, other, result.2⟩)
  rcases literal?_cases literal with ⟨_, rfl⟩ | ⟨_, rfl⟩ | ⟨_, rfl⟩ | ⟨fault, rfl, _⟩
  · exact constant .bool (by decide) _
  · exact constant .string (by decide) _
  · exact constant .int (by decide) _
  · exact .throw

private theorem literal?_eq_none {word : String} (bare : literal? word pos = none) (other : Position) :
    literal? word other = none := by
  rcases literal?_uniform word with none | ⟨_, is⟩ | ⟨_, is⟩ | ⟨_, is⟩ | ⟨_, is, _⟩
  · exact none other
  all_goals cases bare.symm.trans (is pos)

private theorem named_acts (s : State) (word : String) (pos : Position) :
    Acts mode s (named word pos) (fun id t => t = s ∧ s.resolve word = some id) := by
  unfold named
  dsimp only
  split
  · exact .throw
  · refine .get_bind ?_
    cases resolved : s.resolve word with
    | none => exact .throw
    | some id => exact .pure ⟨rfl, rfl⟩

theorem Regular.evaluateWord_acts (regular : engine.Regular mode) (fair : s.Fair mode) (chars : List Char) :
    Acts mode s (engine.evaluateWord pos chars) (fun id t => t.Apart mode id ∨
      literal? (String.ofList chars) pos = none ∧ t = s ∧ s.resolve (String.ofList chars) = some id) := by
  induction chars with
  | nil => exact (named_acts s _ pos).mono (fun _ _ _ found => .inr ⟨rfl, found⟩)
  | cons c rest ih =>
    rw [evaluateWord]
    split
    · next step literal =>
        exact (literal?_acts literal).mono (fun _ _ _ result => .inl (fun _ => result.1))
    · next bare =>
        split
        · refine .bind ih (fun value t changes _ => ?_)
          exact (regular.operate_acts (fair.changes changes) (by rintro _ ⟨⟩)).mono (fun _ _ _ => .inl)
        split
        · refine .bind ih (fun value t changes _ => ?_)
          exact (regular.opposite_acts (fair.changes changes)).mono (fun _ _ _ => .inl)
        · exact (named_acts s _ pos).mono (fun _ _ _ found => .inr ⟨bare, found⟩)

/-! ## Sequences -/

namespace Regular

section

variable (regular : engine.Regular mode)
include regular

private theorem evaluatePrimary_acts (fair : s.Fair mode) (inert : Inert mode s tree) :
    Acts mode s (engine.evaluatePrimary tree) (fun id t => ¬ s.Constructs [tree] → t.Apart mode id) := by
  cases tree with
  | leaf token =>
    refine (regular.evaluateWord_acts fair token.text.toList).mono ?_
    rintro id t _ (apart | ⟨bare, rfl, resolved⟩) spared
    · exact apart
    · rw [String.ofList_toList] at bare resolved
      exact fun _ => Classical.byContradiction (fun made => spared (.word bare resolved made))
  | group children bracket divider pos =>
    cases bracket with
    | paren =>
      cases divider with
      | space =>
        refine (regular.evaluateTree_acts fair inert).mono (fun id t _ result spared => ?_)
        exact result children pos rfl (fun inside => spared (.group inside))
      | comma => exact .throw
      | statement => exact .throw
    | _ => exact .throw

theorem evaluateMembers_acts (fair : s.Fair mode) {value : VarId} {rest : List Tree} (trails : Trails mode s rest) :
    Acts mode s (engine.evaluateMembers value rest pos)
      (fun result t => ∀ id, result = some id → (rest = [] → s.Apart mode value) → t.Apart mode id) := by
  cases rest with
  | nil =>
    refine .pure ?_
    rintro _ ⟨⟩ apart
    exact apart rfl
  | cons dot path =>
    rw [evaluateMembers]
    split
    · exact (regular.applyTrailer_acts fair .member
        (Trails.suffix [dot] trails .refl) (by rintro ⟨⟩)).mono
        (fun _ _ _ apart id isResult _ => apart id isResult)
    · exact .throw

private theorem evaluateNew_acts (broken : mode.broken) (fair : s.Fair mode) (trails : Trails mode s items) :
    Acts mode s (engine.evaluateNew items pos)
      (fun result t => ∀ id, result = some id → (∀ type arguments, items ≠ [type, arguments]) → t.Apart mode id) := by
  cases items with
  | nil => exact .throw
  | cons typeTree rest =>
    rw [evaluateNew]
    refine .lift_bind (fun token _ => .lift_bind (fun type _ => ?_))
    dsimp only
    split
    · exact .throw
    cases rest with
    | nil => exact .throw
    | cons arguments rest =>
      have inert : Inert mode s arguments :=
        Trails.head (Trails.suffix [typeTree] trails .refl)
      refine .bind (regular.evaluateArguments_acts fair inert) (fun args t changes _ => ?_)
      have fair := fair.changes changes
      refine .bind (construct_acts broken fair) (fun value u changes' _ => ?_)
      have trails : Trails mode u rest :=
        Trails.suffix [typeTree, arguments] trails (changes.trans changes')
      refine (regular.evaluateMembers_acts (fair.changes changes') trails).mono ?_
      intro result v _ apart id isResult other
      refine apart id isResult (fun alone => ?_)
      rw [alone] at other
      exact absurd rfl (other _ _)

private theorem evaluateAssignment_acts (fair : s.Fair mode) {target : List Tree}
    (split : splitAssignment items = some (target, eq, value)) (accepts : s.Accepts mode items) :
    Acts mode s (engine.evaluateAssignment target eq value pos) (GivesApart mode) := by
  obtain ⟨rfl, assigns⟩ := splitAssignment_eq split
  have unassigned := unassigned_target split
  -- What comes before the `=` is evaluated in the state as it is, and what comes after it later.
  have before {some : List Tree} (inside : ∀ tree ∈ some, tree ∈ target) : s.Accepts mode some := by
    have none : Tree.Unassigned some := fun tree member => unassigned tree (inside tree member)
    refine fair.accepts (fun faithful => ⟨rebinds_of_unassigned _ none, ?_⟩)
    exact (accepts faithful).1.part (fun tree member => mem_append_left _ (inside tree member)) none
  have after {t : State} (changes : State.Changes mode.sure s t) : t.Accepts mode value := by
    refine (fair.changes changes).accepts (fun faithful => ?_)
    have inert := (accepts faithful).1
    rw [changes.retains.config]
    exact ⟨inert.value assigns, (Tree.Inert.cons_iff.mp inert.suffix).2.2⟩
  unfold evaluateAssignment
  dsimp only
  split
  · exact .throw
  cases isMember : splitMember target with
  | some parts =>
    obtain ⟨base, member⟩ := parts
    obtain ⟨dot, rfl, _⟩ := splitMember_eq isMember
    refine .bind (regular.evaluateItems_acts fair
      (before (fun _ => mem_append_left _))) (fun owner t changes _ => ?_)
    exact regular.applyMember_acts (fair.changes changes) assigns (after changes)
  | none =>
    refine .bind (regular.evaluateItems_acts fair (before (fun _ => id))) (fun owner t changes apart => ?_)
    refine regular.applyAssignment_acts (fair.changes changes) assigns (after changes) ?_
    intro faithful
    exact ((accepts faithful).2 target eq value split).imp_left (fun spared => apart spared faithful)

/-- An engine that is regular evaluates sequences regularly one level further up. -/
theorem evaluateSequence_acts (broken : mode.broken) (fair : s.Fair mode) (accepts : s.Accepts mode items) :
    Acts mode s (engine.evaluateSequence items pos)
      (fun result t => ∀ id, result = some id → ¬ s.Constructs items → t.Apart mode id) := by
  cases items with
  | nil => exact .throw
  | cons first rest =>
    unfold evaluateSequence
    dsimp only
    split
    · next target eq value split =>
        exact (regular.evaluateAssignment_acts fair split accepts).mono
          (fun _ _ _ apart id isResult _ => apart id isResult)
    · next whole =>
        have trails : Trails mode s (first :: rest) := fun faithful =>
          ⟨unassigned_of_splitAssignment whole, (accepts faithful).1⟩
        have later : Trails mode s rest := Trails.suffix [first] trails .refl
        split
        · next left op right split =>
            obtain ⟨same, _⟩ := splitLoosest_eq split
            rw [same] at trails
            have accepts : s.Accepts mode left := by
              refine fair.accepts (fun faithful => ?_)
              obtain ⟨unassigned, inert⟩ := trails faithful
              have none : Tree.Unassigned left := fun tree member =>
                unassigned tree (mem_append_left _ member)
              exact ⟨rebinds_of_unassigned _ none, inert.part (fun _ => mem_append_left _) none⟩
            refine .bind (regular.evaluateItems_acts fair accepts) (fun value t changes _ => ?_)
            exact (regular.applyTrailer_acts (fair.changes changes) .operation
              (trails.suffix _ changes) (by rintro _ ⟨⟩)).mono
              (fun _ _ _ apart id isResult _ => apart id isResult)
        split
        · refine .bind (regular.evaluateItems_acts fair (later.accepts fair)) (fun value t changes _ => ?_)
          refine .bind (regular.operate_acts (fair.changes changes) (by rintro _ ⟨⟩))
            (fun result u _ apart => .pure ?_)
          rintro _ ⟨⟩ _
          exact apart
        split
        · refine .bind (regular.evaluateItems_acts fair (later.accepts fair)) (fun value t changes _ => ?_)
          refine .bind (regular.opposite_acts (fair.changes changes)) (fun result u _ apart => .pure ?_)
          rintro _ ⟨⟩ _
          exact apart
        split
        · next isNew =>
            refine (regular.evaluateNew_acts broken fair later).mono ?_
            intro result t _ apart id isResult spared
            refine apart id isResult (fun type arguments same => spared ?_)
            rw [same]
            exact .new isNew
        · refine .bind (regular.evaluatePrimary_acts fair trails.head) (fun value t changes apart => ?_)
          have later : Trails mode t rest := Trails.suffix [first] trails changes
          refine (regular.evaluateMembers_acts (fair.changes changes) later).mono ?_
          intro result u changes' apart' id isResult spared
          refine apart' id isResult (fun alone => apart ?_)
          rwa [alone] at spared

end

end Regular

private theorem splitLoosest_singleton (tree : Tree) (count level : Nat) : splitLoosest [tree] count level = none := by
  induction count generalizing level with
  | zero => rfl
  | succ count ih => exact ih (level + 1)

theorem evaluateSequence_segment (engine : Engine) {token : Token} (segment : IsSegment token.text) :
    engine.evaluateSequence [.leaf token] pos =
      if token.text = "new" then engine.evaluateNew [] token.position
      else do
        let value ← (literal? token.text token.position).getD (named token.text token.position)
        return some value := by
  have mark (c : Char) (notWord : isWordChar c = false) : c ∉ token.text.toList := fun member => by
    rw [segment.word c member] at notWord
    cases notWord
  have alone (text : String) (c : Char) (notWord : isWordChar c = false)
      (inside : c ∈ text.toList) : (Tree.leaf token).isWord text = false := by
    refine Bool.eq_false_iff.mpr (fun same => mark c notWord ?_)
    rwa [show token.text = text by simpa [Tree.isWord, Tree.word?] using same]
  have evaluated : engine.evaluateWord token.position token.text.toList =
      (literal? token.text token.position).getD (named token.text token.position) := by
    cases chars : token.text.toList with
    | nil => exact absurd chars segment.nonempty
    | cons c rest =>
      have isWord : String.ofList (c :: rest) = token.text := by
        rw [← chars, String.ofList_toList]
      have first (other : Char) (notWord : isWordChar other = false) : c ≠ other := by
        rintro rfl
        exact mark c notWord (chars ▸ mem_cons_self ..)
      rw [evaluateWord, isWord]
      cases literal? token.text token.position with
      | some step => rfl
      | none =>
        dsimp only
        rw [if_neg (fun both => first '!' (by decide) both.1),
          if_neg (fun both => first '-' (by decide) both.1)]
        rfl
  have isNew : (Tree.leaf token).isWord "new" = decide (token.text = "new") := by
    by_cases same : token.text = "new" <;> simp [Tree.isWord, Tree.word?, same]
  unfold evaluateSequence
  dsimp only
  rw [splitAssignment, alone "=" '=' (by decide) (by decide)]
  simp only [splitAssignment, Option.map_none, Bool.false_eq_true, if_false, splitLoosest_singleton,
    alone "!" '!' (by decide) (by decide), alone "-" '-' (by decide) (by decide), isNew,
    decide_eq_true_eq, evaluatePrimary, evaluated, evaluateMembers, Tree.position]

theorem evaluateSequence_word (engine : Engine) (s : State) {token : Token} (segment : IsSegment token.text)
    (pos : Position) : Acts mode s (engine.evaluateSequence [.leaf token] pos) (Says s token.text) := by
  rw [evaluateSequence_segment engine segment]
  split
  · exact .throw
  refine .bind (m := fun id t => Says s token.text (some id) t) ?_ (fun _ _ _ said => .pure said)
  cases literal : literal? token.text token.position with
  | some step =>
    refine (literal?_acts literal).mono ?_
    rintro id t _ ⟨_, other⟩ _ ⟨⟩
    refine .inl ⟨other, fun place bare => ?_⟩
    rw [literal?_eq_none bare token.position] at literal
    cases literal
  | none =>
    refine (named_acts s token.text token.position).mono ?_
    rintro id t _ ⟨rfl, resolved⟩ _ ⟨⟩
    exact .inr ⟨⟨_, literal⟩, rfl, resolved⟩

end Engine

end ScoreScript
