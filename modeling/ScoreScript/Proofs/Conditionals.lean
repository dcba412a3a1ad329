import ScoreScript.Proofs.NestedBlocks

/-!
# Which words are an `if`

An `if` is read where the words are a condition in parentheses, a body and, right after it, maybe an
`else` with another body, and it ends there. So an `else` belongs to the last `if` before it that can
have one.
-/

namespace ScoreScript

variable {tree : Tree}

/-- The tree is a line of `if`, a group in parentheses and one in braces, and it may go on with `else`
and another group in braces. -/
def Tree.IsConditional (tree : Tree) : Prop :=
  ∃ (keyword : Token) (cond body : Tree) (others : List Tree) (pos : Position),
    tree = group (leaf keyword :: cond :: body :: others) .line .space pos ∧
      keyword.text = "if" ∧ cond.bracket? = some .paren ∧ body.bracket? = some .brace ∧
      (others = [] ∨ ∃ word other, others = [leaf word, other] ∧ word.text = "else" ∧ other.bracket? = some .brace)

namespace Written

variable {layout : Layout} {used rest : List Token}

theorem bracket_body (written : Written layout .body used rest tree) : tree.bracket? = some .brace := by
  cases written with
  | braced _ isBody => exact isBody
  | bare =>
    rw [Tree.ofChildren_written rfl]
    rfl

private theorem isConditional {keyword : Token} {words : List Token} (isIf : keyword.text = "if")
    (written : Written layout .statement (keyword :: words) rest tree) : tree.IsConditional := by
  generalize isUsed : keyword :: words = used at written
  cases written with
  | line notIf _ _ _ ends =>
    cases ends <;> cases isUsed <;> exact absurd isIf notIf
  | single isIf _ isCondition body _ =>
    exact ⟨_, _, _, [], _, rfl, isIf, isCondition, body.bracket_body, .inl rfl⟩
  | double isIf _ isCondition body isElse other =>
    exact ⟨_, _, _, [_, _], _, rfl, isIf, isCondition, body.bracket_body, .inr ⟨_, _, rfl, isElse, other.bracket_body⟩⟩

end Written

namespace Reader

variable {reader after : Reader}

private theorem keyword_of_readIf {depth : Nat} (ran : (readIf depth).run.run reader = (.ok tree, after)) :
    reader.peekKeyword = true := by
  cases depth with
  | zero => cases ran
  | succ depth =>
    cases isRest : reader.rest with
    | nil =>
      obtain ⟨layout, _, finish⟩ := reader
      cases isRest
      cases ran
    | cons keyword words =>
      rw [readIf, Fault.run_bind_ok (run_advance isRest)] at ran
      dsimp only at ran
      split at ran
      · cases ran
      · next isIf => simpa [peekKeyword, isKeyword, isRest] using isIf

/-- An `if` is read exactly where the words start with one, the reader is then at the words after it,
and the tree has the parts of an `if`. -/
theorem readIfStatement_exact (reader : Reader)
    (plain : Bracket.isBracket reader.layout.separator = false) (tree : Tree) (after : Reader) :
    (readIfStatement.run.run reader = (.ok tree, after) ↔
      ∃ keyword words rest, reader.rest = keyword :: words ++ rest ∧ after = { reader with rest } ∧
        keyword.text = "if" ∧ Written reader.layout .statement (keyword :: words) rest tree) ∧
    (readIfStatement.run.run reader = (.ok tree, after) → tree.IsConditional) := by
  have exactly : readIfStatement.run.run reader = (.ok tree, after) ↔
      ∃ keyword words rest, reader.rest = keyword :: words ++ rest ∧ after = { reader with rest } ∧
        keyword.text = "if" ∧ Written reader.layout .statement (keyword :: words) rest tree := by
    rw [readIfStatement, Fault.run_bind_ok (Fault.run_get reader)]
    constructor
    · intro ran
      have isIf := keyword_of_readIf ran
      obtain ⟨used, rest, isRest, rfl, written⟩ :=
        (readIf_reads _ (Nat.lt_succ_self _) isIf).2 tree after ran
      obtain ⟨first, words, rfl, _⟩ := written.starts
      refine ⟨first, words, rest, isRest, rfl, ?_, written⟩
      simpa [peekKeyword, isKeyword, isRest] using isIf
    · rintro ⟨keyword, words, rest, isRest, rfl, isIf, written⟩
      have found := finds_of_written plain written rfl isRest
        (show (keyword :: words).length < reader.rest.length + 1 by
          rw [isRest, List.length_append]; omega)
      have isKeyword : reader.peekKeyword = true := by
        simp [peekKeyword, Reader.isKeyword, isRest, isIf]
      rwa [Finds, isKeyword] at found
  refine ⟨exactly, fun ran => ?_⟩
  obtain ⟨_, _, _, _, _, isIf, written⟩ := exactly.mp ran
  exact written.isConditional isIf

/-- An `else` after two conditions belongs to the second, whose body is not in braces. -/
theorem readIfStatement_exact_dangling :
    let reader := Reader.start {} (Layout.ofTexts
      ["if", "(", "a", ")", "if", "(", "b", ")", "x", ";", "else", "\x7b", "y", "\x7d", "z"])
    ∃ tree after, after.rest.map Token.text = ["z"] ∧ tree.items.length = 3 ∧ tree.IsConditional ∧
      ∃ keyword words rest, reader.rest = keyword :: words ++ rest ∧ after = { reader with rest } ∧
        keyword.text = "if" ∧ Written reader.layout .statement (keyword :: words) rest tree := by
  intro reader
  have computed : (match readIfStatement.run.run reader with
      | (.ok tree, after) => after.rest.map Token.text == ["z"] && tree.items.length == 3
      | (.error _, _) => false) = true := by decide +kernel
  split at computed
  · next tree after ran =>
    rw [Bool.and_eq_true, beq_iff_eq, beq_iff_eq] at computed
    have exactly := readIfStatement_exact reader (by decide) tree after
    exact ⟨tree, after, computed.1, computed.2, exactly.2 ran, exactly.1.mp ran⟩
  · cases computed

end Reader

end ScoreScript
