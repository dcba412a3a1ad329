import ScoreScript.Proofs.Compile.Lawful
import ScoreScript.Proofs.Compile.Operations

/-!
# Expressions

An engine that keeps the rules for sequences within its budget gives one that keeps them for
sequences that are larger by one. Every split of a sequence takes an operator away, and every
parenthesis takes itself away, so the parts are within the budget of the engine below.
-/

namespace ScoreScript

open List

variable {items left right trees : List Tree} {level value : Nat} {pos : Position}
  {word : String} {token : Token} {op tree : Tree}

namespace Operator

theorem symbol_of_ofSymbol? {op : Operator} (found : ofSymbol? word = some op) : op.symbol = word := by
  simpa using find?_some found

end Operator

variable {divider : Divider}

namespace Tree

private theorem mem_innerTokens (member : tree ∈ trees) (inside : token ∈ tree.tokens) :
    token ∈ innerTokens divider pos trees := by
  induction trees with
  | nil => cases member
  | cons first rest ih =>
    rcases mem_cons.mp member with rfl | later
    · cases divider with
      | space => exact mem_append_left _ inside
      | statement sep => exact mem_append_left _ inside
      | comma =>
        cases rest with
        | nil => exact inside
        | cons => exact mem_append_left _ inside
    · have found := ih later
      cases divider with
      | space => exact mem_append_right _ found
      | statement sep => exact mem_append_right _ (mem_cons_of_mem _ found)
      | comma =>
        cases rest with
        | nil => cases later
        | cons => exact mem_append_right _ (mem_cons_of_mem _ found)

private theorem mem_tokens_group {children : List Tree} {bracket : Bracket} (member : tree ∈ children)
    (inside : token ∈ tree.tokens) : token ∈ (group children bracket divider pos).tokens := by
  have found : token ∈ innerTokens divider pos children := mem_innerTokens member inside
  rw [tokens]
  split
  · exact mem_cons_of_mem _ (mem_append_left _ found)
  · exact found

private theorem size_le_sizes (member : tree ∈ trees) : tree.size ≤ sizes trees := by
  induction trees with
  | nil => cases member
  | cons first rest ih =>
    rw [sizes]
    rcases mem_cons.mp member with rfl | later
    · exact Nat.le_add_right _ _
    · exact Nat.le_trans (ih later) (Nat.le_add_left _ _)

theorem isWord_eq {text : String} (same : tree.isWord text = true) :
    ∃ token, tree = .leaf token ∧ token.text = text := by
  cases tree with
  | leaf token => exact ⟨token, rfl, by simpa [isWord, word?] using same⟩
  | group => simp [isWord, word?] at same

end Tree

namespace Terms.AllowsAll

variable {terms : Terms} {config : Config} {trees : List Tree}

theorem subset (all : terms.AllowsAll config trees) {some : List Tree}
    (inside : ∀ tree ∈ some, tree ∈ trees) : terms.AllowsAll config some :=
  fun tree member => all tree (inside tree member)

theorem children {children : List Tree} {bracket : Bracket} {pos : Position}
    (all : terms.AllowsAll config [.group children bracket divider pos]) : terms.AllowsAll config children :=
  fun _ member token inside =>
    all _ (mem_singleton.mpr rfl) token (Tree.mem_tokens_group member inside)

theorem leaf (all : terms.AllowsAll config trees) (member : .leaf token ∈ trees) : terms.Allows config token.text :=
  all _ member token (by simp [Tree.tokens])

end Terms.AllowsAll

namespace Engine

open Compile

variable {terms : Terms} {s : State} {engine : Engine} {budget : Nat}

abbrev GivesClear (terms : Terms) (result : Option VarId) (t : State) : Prop :=
  ∀ id, result = some id → t.Clear terms id

namespace Lawful

section

variable (lawful : engine.Lawful s.config terms budget)
include lawful

theorem grows {t : State} (grows : State.Grows terms s t) : engine.Lawful t.config terms budget :=
  grows.config.symm ▸ lawful

/-! ## Parts of expressions -/

theorem evaluateItems_behaves (ready : s.Ready terms) (evaluable : Tree.Evaluable terms s.config budget items) :
    Behaves terms s (engine.evaluateItems items pos) (fun id t => t.Clear terms id) := by
  unfold evaluateItems
  refine .seq (lawful.evaluate s items _ ready rfl evaluable) ready ?_
  intro result t _ _ given
  cases result with
  | none => exact .throw nofun
  | some value => exact .pure (given value rfl)

theorem evaluateTree_behaves (ready : s.Ready terms) (words : terms.AllowsAll s.config [tree])
    (size : tree.size < budget ∨
      tree.bracket? = some .paren ∧ tree.size ≤ budget) :
    Behaves terms s (engine.evaluateTree tree) (fun id t => t.Clear terms id) := by
  unfold evaluateTree
  split
  · next token =>
      refine lawful.evaluateItems_behaves ready ⟨words, ?_⟩
      rcases size with small | ⟨impossible, _⟩
      · simpa [Tree.sizes] using small
      · cases impossible
  · next children pos =>
      refine lawful.evaluateItems_behaves ready ⟨words.children, ?_⟩
      rcases size with small | ⟨impossible, _⟩
      · simpa [Tree.size] using small
      · cases impossible
  · next children pos =>
      refine lawful.evaluateItems_behaves ready ⟨words.children, ?_⟩
      have : (Tree.group children .paren .space pos).size = 1 + Tree.sizes children := by simp [Tree.size]
      omega
  · exact .throw nofun
  · exact .throw nofun

private theorem evaluateAll_behaves (ready : s.Ready terms) (evaluable : Tree.Evaluable terms s.config budget trees) :
    Behaves terms s (engine.evaluateAll trees) (fun ids t => ∀ id ∈ ids, t.Clear terms id) := by
  induction trees generalizing s with
  | nil => exact .pure (fun _ member => nomatch member)
  | cons tree rest ih =>
    have first : tree.size < budget :=
      Nat.lt_of_le_of_lt (Tree.size_le_sizes (mem_cons_self ..)) evaluable.size
    have words : terms.AllowsAll s.config [tree] :=
      evaluable.words.subset (fun other member => by
        rw [mem_singleton.mp member]
        exact mem_cons_self ..)
    rw [evaluateAll]
    refine .seq (lawful.evaluateTree_behaves ready words (.inl first)) ready ?_
    intro value t ready' grows clear
    have later : Tree.Evaluable terms t.config budget rest := by
      rw [grows.config]
      refine ⟨evaluable.words.subset (fun _ => mem_cons_of_mem _), ?_⟩
      exact Nat.lt_of_le_of_lt (Nat.le_add_left _ _) evaluable.size
    refine .seq (ih (lawful.grows grows) ready' later) ready' ?_
    intro values u _ later given
    refine .pure ?_
    intro id member
    rcases mem_cons.mp member with rfl | inside
    · exact clear.grows ready'.toStable later
    · exact given id inside

private theorem evaluateArguments_behaves (ready : s.Ready terms) (words : terms.AllowsAll s.config [tree])
    (size : tree.size ≤ budget) :
    Behaves terms s (engine.evaluateArguments tree) (fun ids t => ∀ id ∈ ids, t.Clear terms id) := by
  have inside : ∀ {children divider pos}, tree = .group children .paren divider pos →
      Tree.Evaluable terms s.config budget children := by
    rintro children divider pos rfl
    refine ⟨words.children, ?_⟩
    simp only [Tree.size, true_or, if_true] at size
    omega
  unfold evaluateArguments
  split
  · exact lawful.evaluateAll_behaves ready (inside rfl)
  · exact .pure (fun _ member => nomatch member)
  · refine .seq (lawful.evaluateItems_behaves ready (inside rfl)) ready ?_
    intro value t _ _ clear
    refine .pure (fun id member => ?_)
    rw [mem_singleton.mp member]
    exact clear
  · exact .throw nofun
  · exact .throw nofun

end

end Lawful

/-! ## Operators and members on the right of a value -/

theorem operatorOf_cases (tree : Tree) : (∃ fault, operatorOf tree = .error fault ∧ fault.kind ≠ .internal) ∨
      ∃ token op, tree = .leaf token ∧ op.symbol = token.text ∧ operatorOf tree = .ok (op, token.position) := by
  cases tree with
  | group => exact .inl ⟨⟨.expectedOperator _, _⟩, rfl, nofun⟩
  | leaf token =>
    cases found : Operator.ofSymbol? token.text with
    | none => exact .inl ⟨⟨.unknownOperator _, _⟩, by rw [operatorOf, found], nofun⟩
    | some op =>
      exact .inr ⟨token, op, rfl, Operator.symbol_of_ofSymbol? found, by rw [operatorOf, found]⟩

theorem asLeaf_cases (tree : Tree) : (∃ fault, tree.asLeaf = .error fault ∧ fault.kind ≠ .internal) ∨
      ∃ token, tree = .leaf token ∧ tree.asLeaf = .ok token := by
  cases tree with
  | group => exact .inl ⟨⟨.notAWord _, _⟩, rfl, nofun⟩
  | leaf token => exact .inr ⟨token, rfl, rfl⟩

private theorem plain_of_boolean {token : Token} {op : Operator} (written : op.symbol = token.text)
    (allows : terms.Allows s.config token.text) (boolean : op.kind = .boolean) : terms.plain = false := by
  refine Bool.eq_false_iff.mpr (fun plain => ?_)
  obtain ⟨mark, both, either⟩ := allows.plain plain
  rw [← written] at mark both either
  cases op <;> first
    | exact absurd rfl both
    | exact absurd rfl either
    | exact absurd (by decide) mark
    | cases boolean

namespace Lawful

private theorem assignMember_behaves (lawful : engine.Lawful s.config terms budget) (ready : s.Ready terms)
    {property : Property} {target : Nat} (clear : s.Clear terms target) {value : List Tree}
    (assigns : op.isWord "=" = true) (words : terms.AllowsAll s.config (op :: value))
    (size : Tree.sizes (op :: value) ≤ budget) {name : String} : Behaves terms s
      (do
        if !property.isAssignable then throw ⟨.readOnlyProperty name, pos⟩
        if value.isEmpty then throw ⟨.expectedOperand .assign, op.position⟩
        let value ← engine.evaluateItems value pos
        assignProperty property name target value pos
        return none)
      (GivesClear terms) := by
  obtain ⟨token, rfl, text⟩ := Tree.isWord_eq assigns
  have evaluable : Tree.Evaluable terms s.config budget value := by
    refine ⟨words.subset (fun _ => mem_cons_of_mem _), ?_⟩
    rw [Tree.sizes, Tree.size] at size
    omega
  dsimp only
  split
  · exact .throw nofun
  split
  · exact .throw nofun
  refine .seq (lawful.evaluateItems_behaves ready evaluable) ready ?_
  intro given t ready' grows isClear
  refine .seq (assignProperty_behaves ready' (clear.grows ready.toStable grows) isClear) ready' ?_
  exact fun _ _ _ _ _ => .pure nofun

private theorem applyTrailer_behaves (lawful : engine.Lawful s.config terms budget) (ready : s.Ready terms)
    (trailer : Trailer) {target : Nat} (clear : s.Clear terms target)
    (words : terms.AllowsAll s.config trees) (size : Tree.sizes trees ≤ budget) :
    Behaves terms s (engine.applyTrailer trailer target pos trees) (GivesClear terms) := by
  -- The arguments of a method are taken off together with its name, so the induction is on the
  -- number of trees.
  induction count : trees.length using Nat.strongRecOn generalizing s trailer target trees pos
  rename_i count ih
  subst count
  cases trees with
  | nil =>
    cases trailer with
    | operation =>
      refine .pure ?_
      rintro _ ⟨⟩
      exact clear
    | member => exact .throw (by rintro ⟨⟩)
  | cons first rest =>
    have inside : terms.AllowsAll s.config rest := words.subset (fun _ => mem_cons_of_mem _)
    have smaller : Tree.sizes rest ≤ budget :=
      Nat.le_trans (Nat.le_add_left _ _) size
    have goesOn : ∀ {t : State} {trailer : Trailer} {value : Nat} {pos : Position}
        {trees : List Tree}, trees <:+ rest → State.Grows terms s t → t.Clear terms value →
        Behaves terms t (engine.applyTrailer trailer value pos trees) (GivesClear terms) := by
      intro t trailer value pos trees suffix grows given
      obtain ⟨before, rfl⟩ := suffix
      rw [Tree.sizes_append] at smaller
      refine ih trees.length ?_ (lawful.grows grows) (ready.grows grows) trailer given ?_ ?_ rfl
      · simp only [length_cons, length_append]
        omega
      · exact grows.config.symm ▸ inside.subset (fun _ => mem_append_right _)
      · exact Nat.le_trans (Nat.le_add_left _ _) smaller
    cases trailer with
    | operation =>
      rw [applyTrailer]
      rcases operatorOf_cases first with
        ⟨fault, failed, blameless⟩ | ⟨token, op, rfl, written, found⟩
      · exact .error_bind (by rw [runFrom_lift, failed]) blameless
      · refine .ok_bind (a := (op, token.position)) (by rw [runFrom_lift, found]) ?_
        have allows := words.leaf (mem_cons_self ..)
        have operates : op.kind ≠ .structural → Behaves terms s
            (if rest.isEmpty then throw ⟨.expectedOperand op, token.position⟩
            else do
              let right ← engine.evaluateItems rest token.position
              return some (← engine.operate target op right token.position))
            (GivesClear terms) := by
          intro valued
          split
          · exact .throw (by rintro ⟨⟩)
          · have evaluable : Tree.Evaluable terms s.config budget rest := by
              refine ⟨inside, ?_⟩
              rw [Tree.sizes, Tree.size] at size
              omega
            refine .seq (lawful.evaluateItems_behaves ready evaluable) ready ?_
            intro right t ready' grows given
            refine .seq ((lawful.grows grows).operate_behaves ready'
              (clear.grows ready.toStable grows) given valued (plain_of_boolean written allows))
              ready' ?_
            intro result u _ _ isClear
            refine .pure ?_
            rintro _ ⟨⟩
            exact isClear
        cases op with
        | access => exact goesOn suffix_rfl (.refl terms s) clear
        | new => exact .throw (by rintro ⟨⟩)
        | negation => exact .throw (by rintro ⟨⟩)
        | _ => exact operates (by decide)
    | member =>
      rw [applyTrailer]
      rcases asLeaf_cases first with ⟨fault, failed, blameless⟩ | ⟨token, rfl, found⟩
      · exact .error_bind (by rw [runFrom_lift, failed]) blameless
      refine .ok_bind (a := token) (by rw [runFrom_lift, found]) ?_
      obtain ⟨owner, isOwner, _⟩ := id clear
      refine .ok_bind (runFrom_var isOwner) ?_
      cases isMember : owner.member? token.text with
      | none => exact .throw (by rintro ⟨⟩)
      | some member =>
        cases member with
        | field field =>
          obtain ⟨text, isText, type, _⟩ :=
            isField_of_member ready.sound isOwner isMember
          exact goesOn suffix_rfl (.refl terms s)
            (ready.sound.typed_of_not_score isText type (by decide)).clear
        | property property =>
          cases rest with
          | nil =>
            refine .seq (readProperty_behaves ready.toStable clear) ready ?_
            intro value t _ _ typed
            refine .pure ?_
            rintro _ ⟨⟩
            exact typed.clear
          | cons op value =>
            dsimp only
            split
            · next assigns =>
                exact lawful.assignMember_behaves ready clear assigns inside smaller
            · refine .seq (readProperty_behaves ready.toStable clear) ready ?_
              exact fun value t _ grows typed => goesOn suffix_rfl grows typed.clear
        | method method =>
          cases rest with
          | nil => exact .throw (by rintro ⟨⟩)
          | cons arguments others =>
            have given : terms.AllowsAll s.config [arguments] :=
              inside.subset (by simp)
            refine .seq (lawful.evaluateArguments_behaves ready given
              (Nat.le_trans (Nat.le_add_right _ _) smaller)) ready ?_
            intro args t ready' grows isClear
            refine .seq (callMethod_behaves ready' (clear.grows ready.toStable grows) isClear) ready' ?_
            intro result u _ later result'
            cases result with
            | some value =>
              exact goesOn (suffix_cons _ _)
                (grows.trans later ready.usable ready.sound) (result' value rfl)
            | none =>
              dsimp only
              split
              · exact .pure (by rintro _ ⟨⟩)
              · exact .throw (by rintro ⟨⟩)

end Lawful

/-! ## Words -/

private theorem named_isVar (ready : s.Ready terms) :
    Behaves terms s (named word pos) (fun id t => ∃ type, t.IsVar type id) := by
  unfold named
  dsimp only
  split
  · exact .throw nofun
  · refine .get_bind ?_
    cases resolved : s.resolve word with
    | none => exact .throw nofun
    | some id =>
      obtain ⟨var, found, _⟩ := ready.sound.resolve_found resolved
      exact .pure ⟨var.type, var, found, rfl⟩

namespace Lawful

private theorem named_behaves (lawful : engine.Lawful s.config terms budget) (ready : s.Ready terms)
    (allows : terms.Allows s.config word) (pos : Position) :
    Behaves terms s (named word pos) (fun id t => t.Clear terms id) := by
  unfold named
  dsimp only
  split
  · exact .throw nofun
  · refine .get_bind ?_
    cases resolved : s.resolve word with
    | none => exact .throw nofun
    | some id =>
      refine .pure ?_
      obtain ⟨var, found, rfl, place⟩ := ready.sound.resolve_found resolved
      rcases allows.named with unguarded | chosen | member
      · refine ⟨var, found, fun reg _ => ⟨?_, place, ?_, ?_⟩⟩
        · exact fun guarded => unguarded (.inr ⟨reg, guarded⟩)
        · exact fun guards => absurd guards unguarded
        · exact fun typed => absurd (.inl typed) unguarded
      · exact ready.toStable.named_clear found chosen place
      · obtain ⟨_, _, var', _, reg, _, _, _, resolved', found', held, spared, isBool⟩ :=
          ready.names _ member
        rw [resolved] at resolved'
        cases resolved'
        rw [found] at found'
        cases found'
        refine ⟨var, found, fun other isOther => ?_⟩
        rw [held] at isOther
        cases isOther
        refine ⟨spared, place, fun _ plain => ?_, fun _ isInt => ?_⟩
        · rw [lawful.unnamed plain] at member
          cases member
        · rw [isBool] at isInt
          cases isInt

private theorem negation_behaves (lawful : engine.Lawful s.config terms budget) (ready : s.Ready terms)
    (plain : terms.plain = false) {type : ValueType} (isVar : s.IsVar type value) :
    Behaves terms s (engine.operate value .negation value pos) (fun id t => t.Clear terms id) := by
  obtain ⟨var, found, isType⟩ := id isVar
  unfold operate
  rw [if_neg (by decide)]
  refine .ok_bind (runFrom_var found) ?_
  rw [isType]
  cases type with
  | int => exact undefinedOperation_behaves isVar
  | bool =>
    exact (lawful.negate_behaves ready plain isVar).mono (fun _ _ _ isBool => isBool.clear)
  | string => exact undefinedOperation_behaves isVar
  | objective => exact undefinedOperation_behaves isVar

end Lawful

private theorem opposite_behaves (ready : s.Ready terms) {type : ValueType} (isVar : s.IsVar type value) :
    Behaves terms s (engine.opposite value pos) (fun id t => t.Clear terms id) := by
  unfold opposite
  refine .seq (constantInt_behaves ready.toStable) ready ?_
  intro nought t ready' grows isInt
  obtain ⟨var, found, type, _⟩ := id isInt
  unfold operate
  rw [if_neg (by decide)]
  refine .ok_bind (runFrom_var found) ?_
  rw [type]
  refine .seq (castInt_isVar ready'.toStable (isVar.grows grows)) ready' ?_
  intro converted u ready'' later isConverted
  exact (arithmetic_behaves ready'' (isInt.isVar.grows later) isConverted rfl).mono
    (fun _ _ _ isResult => isResult.clear)

theorem literal?_behaves (ready : s.Ready terms) {step : Compile VarId} (literal : literal? word pos = some step) :
    Behaves terms s step (fun id t => t.Clear terms id) := by
  rcases literal?_cases literal with ⟨holds, rfl⟩ | ⟨text, rfl⟩ | ⟨score, rfl⟩ | ⟨fault, rfl, blameless⟩
  · exact (constantBool_behaves ready.toStable).mono (fun _ _ _ typed => typed.clear)
  · exact (constantText_behaves ready.toStable).mono (fun _ _ _ typed => typed.clear)
  · exact (constantInt_behaves ready.toStable).mono (fun _ _ _ typed => typed.clear)
  · exact .throw blameless

namespace Lawful

section

variable (lawful : engine.Lawful s.config terms budget) (ready : s.Ready terms)
include lawful ready

private theorem prefixed_behaves {c : Char} {rest : List Char} (plain : terms.plain = true → '!' ∉ c :: rest)
    {post : VarId → State → Prop} (clear : ∀ id t, t.Clear terms id → post id t)
    (inner : Behaves terms s (engine.evaluateWord pos rest) (fun id t => ∃ type, t.IsVar type id))
    (bare : Behaves terms s (named (String.ofList (c :: rest)) pos) post) :
    Behaves terms s (engine.evaluateWord pos (c :: rest)) post := by
  rw [evaluateWord]
  split
  · next step literal => exact (literal?_behaves ready literal).mono (fun id t _ => clear id t)
  split
  · next negated =>
      have notPlain : terms.plain = false :=
        Bool.eq_false_iff.mpr (fun isPlain => plain isPlain (negated.1 ▸ mem_cons_self ..))
      refine .seq inner ready ?_
      rintro value t ready' grows ⟨type, isVar⟩
      exact ((lawful.grows grows).negation_behaves ready' notPlain isVar).mono (fun id t _ => clear id t)
  split
  · refine .seq inner ready ?_
    rintro value t ready' grows ⟨type, isVar⟩
    exact (opposite_behaves ready' isVar).mono (fun id t _ => clear id t)
  · exact bare

private theorem evaluateWord_isVar {chars : List Char} (plain : terms.plain = true → '!' ∉ chars) :
    Behaves terms s (engine.evaluateWord pos chars) (fun id t => ∃ type, t.IsVar type id) := by
  induction chars with
  | nil => exact named_isVar ready
  | cons c rest ih =>
    refine lawful.prefixed_behaves ready plain ?_ ?_ (named_isVar ready)
    · rintro id t ⟨var, found, _⟩
      exact ⟨var.type, var, found, rfl⟩
    · exact ih (fun isPlain mark => plain isPlain (mem_cons_of_mem _ mark))

private theorem evaluateWord_behaves (allows : terms.Allows s.config word) :
    Behaves terms s (engine.evaluateWord pos word.toList) (fun id t => t.Clear terms id) := by
  have named := lawful.named_behaves ready allows pos
  have plain := fun isPlain => (allows.plain isPlain).1
  rw [← String.ofList_toList (s := word)] at named
  generalize word.toList = chars at named plain
  cases chars with
  | nil => exact named
  | cons c rest =>
    refine lawful.prefixed_behaves ready plain (fun _ _ => id) ?_ named
    exact lawful.evaluateWord_isVar ready (fun isPlain mark => plain isPlain (mem_cons_of_mem _ mark))

end

end Lawful

/-! ## Splits -/

theorem splitAssignment_eq {before after : List Tree} {eq : Tree}
    (split : splitAssignment items = some (before, eq, after)) :
    items = before ++ eq :: after ∧ eq.isWord "=" = true := by
  induction items generalizing before with
  | nil => cases split
  | cons tree trees ih =>
    rw [splitAssignment] at split
    by_cases assigns : tree.isWord "=" = true
    · rw [if_pos assigns] at split
      cases split
      exact ⟨rfl, assigns⟩
    · rw [if_neg assigns] at split
      obtain ⟨⟨before', _, _⟩, inner, same⟩ := Option.map_eq_some_iff.mp split
      cases same
      obtain ⟨rfl, isEq⟩ := ih inner
      exact ⟨rfl, isEq⟩

private theorem splitAfter_eq {previous : Tree} {before after : List Tree}
    (split : splitAfter level previous items = some (before, op, after)) :
    items = before ++ op :: after ∧ isBinary level op = true := by
  induction items generalizing previous before with
  | nil => cases split
  | cons tree trees ih =>
    rw [splitAfter] at split
    cases inner : splitAfter level tree trees with
    | some parts =>
      rw [inner] at split
      cases split
      obtain ⟨rfl, binary⟩ := ih inner
      exact ⟨rfl, binary⟩
    | none =>
      rw [inner] at split
      by_cases here : (isBinary level tree && !isOperator previous) = true
      · rw [if_pos here] at split
        cases split
        exact ⟨rfl, (Bool.and_eq_true_iff.mp here).1⟩
      · rw [if_neg here] at split
        cases split

private theorem splitBinary_eq (split : splitBinary level items = some (left, op, right)) :
    items = left ++ op :: right ∧ isBinary level op = true := by
  cases items with
  | nil => cases split
  | cons first trees =>
    obtain ⟨⟨before, _, _⟩, inner, same⟩ := Option.map_eq_some_iff.mp split
    cases same
    obtain ⟨rfl, binary⟩ := splitAfter_eq inner
    exact ⟨rfl, binary⟩

theorem splitLoosest_eq {count : Nat} (split : splitLoosest items count level = some (left, op, right)) :
    items = left ++ op :: right ∧ ∃ level, isBinary level op = true := by
  induction count generalizing level with
  | zero => cases split
  | succ count ih =>
    rw [splitLoosest] at split
    cases here : splitBinary level items with
    | none =>
      rw [here] at split
      exact ih split
    | some parts =>
      rw [here] at split
      cases split
      obtain ⟨same, binary⟩ := splitBinary_eq here
      exact ⟨same, level, binary⟩

theorem splitMember_eq {target base : List Tree} {member : Tree} (split : splitMember target = some (base, member)) :
    ∃ dot, target = base ++ [dot, member] ∧ dot.isWord "." = true := by
  unfold splitMember at split
  split at split
  · next last dot first rest reversed =>
      by_cases isDot : dot.isWord "." = true
      · rw [if_pos isDot] at split
        cases split
        refine ⟨dot, ?_, isDot⟩
        rw [← reverse_reverse target, reversed]
        simp
      · rw [if_neg isDot] at split
        cases split
  · cases split

theorem isBinary_eq (binary : isBinary level tree = true) :
    ∃ (token : Token) (op : Operator), tree = .leaf token ∧ op.symbol = token.text := by
  cases tree with
  | group => simp [isBinary, Tree.word?] at binary
  | leaf token =>
    cases found : Operator.ofSymbol? token.text with
    | none => simp [isBinary, Tree.word?, found] at binary
    | some op => exact ⟨token, op, rfl, Operator.symbol_of_ofSymbol? found⟩

/-! ## Sequences -/

namespace Lawful

section

variable (lawful : engine.Lawful s.config terms budget) (ready : s.Ready terms)
include lawful ready

private theorem evaluatePrimary_behaves (words : terms.AllowsAll s.config [tree]) (size : tree.size ≤ budget) :
    Behaves terms s (engine.evaluatePrimary tree) (fun id t => t.Clear terms id) := by
  unfold evaluatePrimary
  split
  · exact lawful.evaluateWord_behaves ready (words.leaf (mem_singleton.mpr rfl))
  · exact lawful.evaluateTree_behaves ready words (.inr ⟨rfl, size⟩)
  · exact .throw nofun

private theorem evaluateMembers_behaves (clear : s.Clear terms value) {rest : List Tree}
    (words : terms.AllowsAll s.config rest) (size : Tree.sizes rest ≤ budget) :
    Behaves terms s (engine.evaluateMembers value rest pos) (GivesClear terms) := by
  cases rest with
  | nil =>
    refine .pure ?_
    rintro _ ⟨⟩
    exact clear
  | cons dot path =>
    rw [evaluateMembers]
    split
    · exact lawful.applyTrailer_behaves ready .member clear (words.subset (fun _ => mem_cons_of_mem _))
        (Nat.le_trans (Nat.le_add_left _ _) size)
    · exact .throw (by rintro ⟨⟩)

private theorem evaluateNew_behaves (words : terms.AllowsAll s.config items) (size : Tree.sizes items ≤ budget) :
    Behaves terms s (engine.evaluateNew items pos) (GivesClear terms) := by
  cases items with
  | nil => exact .throw (by rintro ⟨⟩)
  | cons typeTree rest =>
    have smaller : Tree.sizes rest ≤ budget :=
      Nat.le_trans (Nat.le_add_left _ _) size
    rw [evaluateNew]
    rcases asLeaf_cases typeTree with ⟨fault, failed, blameless⟩ | ⟨token, rfl, found⟩
    · exact .error_bind (by rw [runFrom_lift, failed]) blameless
    refine .ok_bind (a := token) (by rw [runFrom_lift, found]) ?_
    rcases typeNamed_cases token.text token.position with ⟨fault, failed, blameless⟩ | ⟨type, found⟩
    · exact .error_bind (by rw [runFrom_lift, failed]) blameless
    refine .ok_bind (a := type) (by rw [runFrom_lift, found]) ?_
    dsimp only
    split
    · exact .throw (by rintro ⟨⟩)
    cases rest with
    | nil => exact .throw (by rintro ⟨⟩)
    | cons arguments rest =>
      have given : terms.AllowsAll s.config [arguments] := words.subset (by simp)
      refine .seq (lawful.evaluateArguments_behaves ready given (Nat.le_trans (Nat.le_add_right _ _) smaller)) ready ?_
      intro args t ready' grows isClear
      refine .seq (construct_behaves ready'.toStable isClear) ready' ?_
      intro value u ready'' later typed
      have grown := grows.trans later ready.usable ready.sound
      refine (lawful.grows grown).evaluateMembers_behaves ready'' typed.clear ?_ ?_
      · rw [grown.config]
        exact words.subset (fun _ inside => mem_cons_of_mem _ (mem_cons_of_mem _ inside))
      · exact Nat.le_trans (Nat.le_add_left _ _) smaller

private theorem evaluateAssignment_behaves {target rest : List Tree} {eq : Tree} (assigns : eq.isWord "=" = true)
    (words : terms.AllowsAll s.config (target ++ eq :: rest)) (size : Tree.sizes (target ++ eq :: rest) ≤ budget) :
    Behaves terms s (engine.evaluateAssignment target eq rest pos) (GivesClear terms) := by
  obtain ⟨token, rfl, text⟩ := Tree.isWord_eq assigns
  rw [Tree.sizes_append, Tree.sizes, Tree.size] at size
  unfold evaluateAssignment
  dsimp only
  split
  · exact .throw nofun
  · cases member : splitMember target with
    | some parts =>
      obtain ⟨base, last⟩ := parts
      obtain ⟨dot, rfl, _⟩ := splitMember_eq member
      rw [Tree.sizes_append, Tree.sizes, Tree.sizes, Tree.sizes] at size
      have evaluable : Tree.Evaluable terms s.config budget base := by
        refine ⟨words.subset (fun _ inside => ?_), by omega⟩
        exact mem_append_left _ (mem_append_left _ inside)
      refine .seq (lawful.evaluateItems_behaves ready evaluable) ready ?_
      intro owner t ready' grows clear
      refine (lawful.grows grows).applyTrailer_behaves ready' .member clear ?_ ?_
      · rw [grows.config]
        refine words.subset ?_
        intro tree inside
        rcases mem_cons.mp inside with rfl | later
        · exact mem_append_left _ (by simp)
        · exact mem_append_right _ later
      · rw [Tree.sizes, Tree.sizes, Tree.size]
        omega
    | none =>
      have evaluable : Tree.Evaluable terms s.config budget target :=
        ⟨words.subset (fun _ => mem_append_left _), by omega⟩
      refine .seq (lawful.evaluateItems_behaves ready evaluable) ready ?_
      intro owner t ready' grows clear
      refine (lawful.grows grows).applyTrailer_behaves ready' .operation clear ?_ ?_
      · rw [grows.config]
        exact words.subset (fun _ => mem_append_right _)
      · rw [Tree.sizes, Tree.size]
        omega

private theorem evaluateBinary_behaves (binary : isBinary level op = true)
    (words : terms.AllowsAll s.config (left ++ op :: right))
    (size : Tree.sizes (left ++ op :: right) ≤ budget) :
    Behaves terms s
      (do
        let value ← engine.evaluateItems left pos
        engine.operateWord value op right)
      (GivesClear terms) := by
  obtain ⟨token, symbol, rfl, written⟩ := isBinary_eq binary
  rw [Tree.sizes_append, Tree.sizes, Tree.size] at size
  have evaluable : Tree.Evaluable terms s.config budget left :=
    ⟨words.subset (fun _ => mem_append_left _), by omega⟩
  refine .seq (lawful.evaluateItems_behaves ready evaluable) ready ?_
  intro value t ready' grows clear
  refine (lawful.grows grows).applyTrailer_behaves ready' .operation clear ?_ ?_
  · rw [grows.config]
    exact words.subset (fun _ => mem_append_right _)
  · rw [Tree.sizes, Tree.size]
    omega

/-- An engine for a budget evaluates sequences that are larger by one. -/
theorem evaluateSequence_behaves (evaluable : Tree.Evaluable terms s.config (budget + 1) items) :
    Behaves terms s (engine.evaluateSequence items pos) (GivesClear terms) := by
  obtain ⟨words, size⟩ := evaluable
  cases items with
  | nil => exact .throw nofun
  | cons first rest =>
    unfold evaluateSequence
    dsimp only
    split
    · next target eq value isAssignment =>
        obtain ⟨same, assigns⟩ := splitAssignment_eq isAssignment
        rw [same] at words size
        exact lawful.evaluateAssignment_behaves ready assigns words (Nat.le_of_lt_succ size)
    · split
      · next left op right isSplit =>
          obtain ⟨same, level, binary⟩ := splitLoosest_eq isSplit
          rw [same] at words size
          exact lawful.evaluateBinary_behaves ready binary words (Nat.le_of_lt_succ size)
      · have inside : terms.AllowsAll s.config rest :=
          words.subset (fun _ => mem_cons_of_mem _)
        have allows : ∀ {token}, first = .leaf token → terms.Allows s.config token.text := by
          rintro token rfl
          exact words.leaf (mem_cons_self ..)
        -- What follows a prefix is smaller by one.
        have smaller : ∀ op : Operator, first.isWord op.symbol = true → Tree.Evaluable terms s.config budget rest := by
          intro op isWord
          obtain ⟨token, rfl, text⟩ := Tree.isWord_eq isWord
          rw [Tree.sizes, Tree.size] at size
          exact ⟨inside, by omega⟩
        rw [Tree.sizes] at size
        split
        · next negated =>
            obtain ⟨token, isLeaf, text⟩ := Tree.isWord_eq negated
            have plain : terms.plain = false :=
              @plain_of_boolean terms s token .negation text.symm (allows isLeaf) rfl
            refine .seq (lawful.evaluateItems_behaves ready (smaller .negation negated)) ready ?_
            rintro value t ready' grows ⟨var, found, _⟩
            refine .seq ((lawful.grows grows).negation_behaves ready' plain ⟨var, found, rfl⟩) ready' ?_
            intro result u _ _ clear
            refine .pure ?_
            rintro _ ⟨⟩
            exact clear
        split
        · next opposed =>
            refine .seq (lawful.evaluateItems_behaves ready (smaller .subtract opposed)) ready ?_
            rintro value t ready' grows ⟨var, found, _⟩
            refine .seq (opposite_behaves ready' ⟨var, found, rfl⟩) ready' ?_
            intro result u _ _ clear
            refine .pure ?_
            rintro _ ⟨⟩
            exact clear
        split
        · exact lawful.evaluateNew_behaves ready inside (by omega)
        · have primary : terms.AllowsAll s.config [first] := words.subset (by simp)
          refine .seq (lawful.evaluatePrimary_behaves ready primary (by omega)) ready ?_
          intro value t ready' grows clear
          refine (lawful.grows grows).evaluateMembers_behaves ready' clear ?_ ?_
          · exact grows.config.symm ▸ inside
          · omega

end

end Lawful

end Engine

end ScoreScript
