import ScoreScript.Proofs.Reading.Words

/-!
# The texts of words

A word is a run of plain characters that does not start a comment, a literal with its quotes, or a
punctuation mark. Every word that is read is one of these, and each of them is read as one word
again where something follows that ends it.
-/

namespace ScoreScript

open List

namespace Token

inductive Lexeme (sep : Char) (text : String) : Prop where
  | word : text.toList ≠ [] → (∀ c ∈ text.toList, IsPlain sep c) →
      ¬ ['/', '/'] <+: text.toList → Lexeme sep text
  | literal {chars : List Char} : text.toList = '"' :: chars → closesLiteral false chars = true →
      Lexeme sep text
  | punctuation {c : Char} : text = String.ofList [c] → Text.isBlank c = false → c ≠ '"' →
      isPunctuation sep c = true → Lexeme sep text

/-! ## Words that are read -/

theorem Cut.lexeme {src : Nat} {sep : Char} {text before after : List Char} {tokens : List Token}
    (cut : Cut src sep text tokens before after) : ∀ token ∈ tokens, Lexeme sep token.text := by
  have run {chars : List Char} (isRun : IsRun sep chars) :
      Lexeme sep (String.ofList chars) := by
    apply Lexeme.word <;> rw [String.toList_ofList]
    exacts [isRun.nonempty, isRun.plain, isRun.notComment]
  have mark {c : Char} (isMark : IsMark sep c) : Lexeme sep (String.ofList [c]) :=
    .punctuation rfl isMark.notBlank isMark.notQuote isMark.isPunctuation
  induction cut with
  | start => exact forall_mem_nil _
  | next _ isPiece ih =>
    refine forall_mem_append.mpr ⟨ih, ?_⟩
    cases isPiece with
    | blank | comment => exact forall_mem_nil _
    | literal closes => exact forall_mem_singleton.mpr (.literal (String.toList_ofList ..) closes)
    | mark isMark _ => exact forall_mem_singleton.mpr (mark isMark)
    | run isRun _ => exact forall_mem_singleton.mpr (run isRun)
    | marked isRun isMark =>
      exact forall_mem_cons.mpr ⟨run isRun, forall_mem_singleton.mpr (mark isMark)⟩

/-! ## Lexemes are read as they are -/

section Spell

variable {sep : Char} {chars : List Char} {texts : List String}

theorem Spells.literal {text : String} {literal : List Char} (isText : text.toList = '"' :: literal)
    (closes : closesLiteral false literal = true) (rest : Spells sep chars texts) :
    Spells sep (text.toList ++ chars) (text :: texts) := by
  intro pos
  obtain ⟨tokens, later, same⟩ := rest ((pos.advance '"').along literal)
  refine ⟨ofReversed (literal.reverse ++ ['"']) pos :: tokens, ?_, ?_⟩
  · rw [isText, cons_append, scan, if_neg (by decide),
      if_neg (fun both => absurd both.1 (by decide)), if_pos rfl, scan_literal _ _ closes, later]
    rfl
  · rw [map_cons, same, ofReversed]
    simp [← isText]

namespace Lexeme

variable {text : String}

theorem starts (lexeme : Lexeme sep text) (notQuote : sep ≠ '"')
    (other : text ≠ String.ofList [sep]) : ∃ c rest, text.toList = c :: rest ∧ c ≠ sep := by
  cases lexeme with
  | word nonempty plain _ =>
    obtain ⟨c, rest, isText⟩ := exists_cons_of_ne_nil nonempty
    refine ⟨c, rest, isText, ?_⟩
    rintro rfl
    have notPunctuation := (plain c (isText ▸ mem_cons_self ..)).notPunctuation
    simp [isPunctuation] at notPunctuation
  | literal isText _ => exact ⟨_, _, isText, notQuote.symm⟩
  | @punctuation c isText _ _ _ =>
    refine ⟨c, [], by rw [isText, String.toList_ofList], ?_⟩
    rintro rfl
    exact other isText

theorem spells (lexeme : Lexeme sep text) (other : text ≠ String.ofList [sep])
    (ends : EndsWord sep chars) (rest : Spells sep chars texts) :
    Spells sep (text.toList ++ chars) (text :: texts) := by
  cases lexeme with
  | word nonempty plain notComment => exact .word nonempty plain notComment ends rest
  | literal isText closes => exact .literal isText closes rest
  | @punctuation c isText notBlank notQuote isMark =>
    subst isText
    rw [String.toList_ofList]
    refine .punctuation (endsWord_punctuation notBlank ?_ notQuote isMark chars) notBlank rest
    rintro rfl
    have notSeparator : '/' ≠ sep := fun same => other (by rw [same])
    simp only [isPunctuation, beq_false_of_ne notSeparator] at isMark
    exact absurd isMark (by decide)

end Lexeme

end Spell

end Token

end ScoreScript
