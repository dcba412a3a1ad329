import ScoreScript.Compile.Statement
import ScoreScript.Proofs.Reading.Statements

/-!
# How deep statements nest

A statement is within a budget when its words weigh less. The bodies of a statement weigh less than
the statement, since its keyword or its brace is taken away, and so do the trees that its
expressions are read from.
-/

namespace ScoreScript

open List

open Token

namespace Tree

variable {sep : Char}

theorem sizes_items (tree : Tree) : sizes tree.items = tree.size := by
  unfold items
  split
  · simp [size]
  · simp [sizes]

theorem tokens_item {tree item : Tree} (alone : tree.items = [item]) : ∃ rest, tree.tokens = item.tokens ++ rest := by
  unfold items at alone
  split at alone
  · next children divider pos =>
      subst alone
      rw [tokens, if_neg (by decide)]
      cases divider with
      | statement c => exact ⟨_, rfl⟩
      | space => exact ⟨_, rfl⟩
      | comma => exact ⟨[], by rw [innerTokens, append_nil]⟩
  · cases alone
    exact ⟨[], (append_nil _).symm⟩

theorem bodyTokens_group (children : List Tree) (divider : Divider) (pos : Position) :
    Engine.bodyTokens (group children .brace divider pos) = innerTokens divider pos children := by
  rw [Engine.bodyTokens, innerTokensOnto_eq, append_nil]

variable {body : Tree}

private theorem tokens_body (isBody : body.IsBody) : ∃ pos, body.tokens = .ofChar Bracket.brace.opening pos ::
      (Engine.bodyTokens body ++ [.ofChar Bracket.brace.closing pos]) := by
  obtain ⟨children, divider, pos, rfl⟩ := isBody
  exact ⟨pos, by rw [bodyTokens_group, tokens_group rfl]⟩

private theorem weigh_bodyTokens (isBody : body.IsBody) (before : Bool) :
    weigh sep false (Engine.bodyTokens body) ≤ weigh sep before body.tokens := by
  obtain ⟨pos, words⟩ := tokens_body isBody
  rw [words]
  exact weigh_le_append sep before [_] _ _

theorem mem_bodyTokens (isBody : body.IsBody) {token : Token}
    (mem : token ∈ Engine.bodyTokens body) : token ∈ body.tokens := by
  obtain ⟨pos, words⟩ := tokens_body isBody
  rw [words]
  exact mem_cons_of_mem _ (mem_append_left _ mem)

theorem isBlock_eq {first : Tree} {rest : List Tree}
    (block : Engine.isBlock (first :: rest) = true) : first.IsBody ∧ rest = [] := by
  unfold Engine.isBlock at block
  split at block
  · next children divider pos same =>
      cases same
      exact ⟨⟨children, divider, pos, rfl⟩, rfl⟩
  · cases block

/-! ## The parts of an `if` -/

/-- An `if` with a condition, a body and perhaps another body. -/
inductive IfOf : Tree → Tree → Tree → Option Tree → Prop where
  | single {keyword : Token} {cond body : Tree} {pos : Position}
      (isIf : keyword.text = "if") :
      IfOf (group [leaf keyword, cond, body] .line .space pos) cond body none
  | double {keyword word : Token} {cond body other : Tree} {pos : Position}
      (isIf : keyword.text = "if") :
      IfOf (group [leaf keyword, cond, body, leaf word, other] .line .space pos) cond
        body (some other)

theorem word?_of_isKeyword {first : Tree}
    (keyword : (first.word?.map Reader.isKeyword).getD false = true) : first.word? = some "if" := by
  cases word : first.word? with
  | none => simp [word] at keyword
  | some text => simpa [word, Reader.isKeyword] using keyword

theorem IsStatement.ifOf {tree first : Tree} {rest : List Tree} (isStatement : tree.IsStatement)
    (parts : tree.items = first :: rest) (isIf : first.word? = some "if") :
    ∃ cond body other, tree.IfOf cond body other := by
  obtain ⟨keyword, cond, body, others, pos, rfl, _, others⟩ :=
    isStatement first rest parts isIf
  cases parts
  have isKeyword : keyword.text = "if" := Option.some.inj isIf
  rcases others with rfl | ⟨word, other, rfl, _⟩
  · exact ⟨cond, body, none, .single isKeyword⟩
  · exact ⟨cond, body, some other, .double isKeyword⟩

theorem IfOf.isBody {tree cond : Tree} {other : Option Tree} (ifOf : tree.IfOf cond body other)
    (isStatement : tree.IsStatement) : ∀ part ∈ body :: other.toList, part.IsBody := by
  cases ifOf with
  | single isIf =>
    obtain ⟨_, _, _, others, _, same, isBody, _⟩ := isStatement _ _ rfl (congrArg some isIf)
    cases same
    simpa using isBody
  | double isIf =>
    obtain ⟨_, _, _, others, _, same, isBody, rest⟩ := isStatement _ _ rfl (congrArg some isIf)
    cases same
    rcases rest with impossible | ⟨_, _, others, isOther⟩
    · cases impossible
    · cases others
      simpa using ⟨isBody, isOther⟩

theorem cost_if {keyword : Token} (isIf : keyword.text = "if") (before : Bool) : 1 ≤ keyword.cost sep before := by
  have solid : (leaf keyword).Solid sep := Reader.solid_keyword (by simp [isIf])
  exact Nat.le_trans (solid keyword (mem_singleton_self _)) (keyword.cost_false_le sep before)

private theorem weigh_part {keyword : Token} (isIf : keyword.text = "if") {others : List Tree} {part : Tree}
    (mem : part ∈ others) (pos : Position) : weigh sep false part.tokens + 1 ≤
      weigh sep false (group (leaf keyword :: others) .line .space pos).tokens := by
  obtain ⟨before, after, rfl⟩ := append_of_mem mem
  have words : (group (leaf keyword :: (before ++ part :: after)) .line .space pos).tokens =
      keyword :: (before.flatMap tokens ++ (part.tokens ++ after.flatMap tokens)) := by
    rw [tokens, if_neg (by decide), innerTokens_space]
    simp [tokens]
  have heavier := weigh_le_append sep keyword.leadsBody (before.flatMap tokens) part.tokens (after.flatMap tokens)
  have := @cost_if sep keyword isIf false
  rw [words, weigh]
  omega

/-! ## Budgets -/

structure Within (sep : Char) (budget : Nat) (tree : Tree) : Prop where
  isStatement : tree.IsStatement
  solid : tree.Solid sep
  /-- An empty statement is passed over, so no separator is left at the front. -/
  starts : ∀ token, tree.tokens.head? = some token → token.isChar sep = false
  weight : weigh sep false tree.tokens + 2 ≤ budget

namespace Within

variable {budget : Nat} {tree : Tree}

theorem sizes_items (within : tree.Within sep (budget + 1)) : sizes tree.items < budget := by
  have := size_le_weigh within.solid false
  have := within.weight
  rw [Tree.sizes_items]
  omega

theorem block (within : tree.Within sep (budget + 1)) {body : Tree} (alone : tree.items = [body])
    (isBody : body.IsBody) : weigh sep false (Engine.bodyTokens body) + 2 ≤ budget := by
  obtain ⟨rest, words⟩ := tokens_item alone
  obtain ⟨pos, inBody⟩ := tokens_body isBody
  have other := within.starts (.ofChar Bracket.brace.opening pos) (by rw [words, inBody]; rfl)
  have brace : (ofChar Bracket.brace.opening pos).cost sep false = 1 := by
    have apart : Bracket.brace.opening ≠ Bracket.brace.closing := by decide
    simp [cost, other, apart]
  have weight := within.weight
  have inner := weigh_le_append sep (ofChar Bracket.brace.opening pos).leadsBody [] (Engine.bodyTokens body)
    ([.ofChar Bracket.brace.closing pos] ++ rest)
  rw [words, inBody, cons_append, weigh, brace, append_assoc] at weight
  rw [nil_append] at inner
  omega

theorem ifOf (within : tree.Within sep (budget + 1)) {cond body : Tree} {other : Option Tree}
    (ifOf : tree.IfOf cond body other) : cond.size < budget ∧ ∀ part ∈ body :: other.toList,
      weigh sep false (Engine.bodyTokens part) + 2 ≤ budget := by
  obtain ⟨keyword, others, pos, isIf, rfl, inCondition, inParts⟩ : ∃ (keyword : Token)
      (others : List Tree) (pos : Position), keyword.text = "if" ∧
        tree = .group (.leaf keyword :: others) .line .space pos ∧
          cond ∈ others ∧ ∀ part ∈ body :: other.toList, part ∈ others := by
    cases ifOf with
    | single isIf => exact ⟨_, _, _, isIf, rfl, by simp⟩
    | double isIf => exact ⟨_, _, _, isIf, rfl, by simp⟩
  have weight := within.weight
  have lighter {part : Tree} (mem : part ∈ others) := @weigh_part sep _ isIf _ _ mem pos
  refine ⟨?_, ?_⟩
  · have solid := solid_group.mp within.solid cond (mem_cons_of_mem _ inCondition)
    have := size_le_weigh solid false
    have := lighter inCondition
    omega
  · intro part mem
    have := @weigh_bodyTokens sep part (ifOf.isBody within.isStatement part mem) false
    have := lighter (inParts part mem)
    omega

end Within

end Tree

theorem Reader.Found.within {sep : Char} {budget : Nat} {used : List Token} {tree : Tree}
    (found : Found sep used tree) (weight : Token.weigh sep false used + 2 ≤ budget) :
    tree.Within sep budget :=
  ⟨found.isStatement, found.solid, found.starts, Nat.le_trans (Nat.add_le_add_right found.weigh 2) weight⟩

theorem Layout.readStatements_within {layout : Layout} {tokens : List Token} {trees : List Tree}
    (read : layout.readStatements tokens = .ok trees) {budget : Nat}
    (light : weigh layout.separator false tokens + 2 ≤ budget) : ∀ tree ∈ trees, tree.Within layout.separator budget :=
  fun tree mem => (Layout.readStatements_found read tree mem).within light

end ScoreScript
