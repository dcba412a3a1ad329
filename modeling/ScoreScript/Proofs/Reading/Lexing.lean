import Mathlib.Data.List.Induction
import ScoreScript.Proofs.Compile.Outcome

/-!
# Cutting a text into words

A text is cut into pieces, one after the other: a blank, a comment, a literal, a punctuation mark or a
run of other characters. Words stand where their first character does. The words of a text are those
of its pieces, and only a literal that is never closed keeps a text from being cut to its end.
-/

namespace ScoreScript

open List

namespace Position

def along (pos : Position) (chars : List Char) : Position :=
  chars.foldl advance pos

/-- Where the character behind some others stands. Lines and columns count from one, and a column counts
the characters since the last line break. -/
def behind (src : Nat) (before : List Char) : Position where
  source := src
  line := before.count '\n' + 1
  column := (before.reverse.takeWhile (· ≠ '\n')).length + 1

theorem along_start (src : Nat) (before : List Char) : (start src).along before = behind src before := by
  induction before using reverseRecOn with
  | nil => rfl
  | append_singleton before c ih =>
    rw [along, foldl_append]
    change ((start src).along before).advance c = _
    rw [ih, advance, behind, behind]
    split
    · next broken => simp [broken]
    · next plain => simp [plain]

theorem behind_append (src : Nat) (before chars : List Char) :
    behind src (before ++ chars) = (behind src before).along chars := by
  rw [← along_start, ← along_start, along, foldl_append]
  rfl

end Position

namespace Token

open Position (behind behind_append)

/-! ## Pieces of a text -/

/-- The character goes on with a word that was started. -/
structure IsPlain (sep c : Char) : Prop where
  notBlank : Text.isBlank c = false
  notQuote : c ≠ '"'
  notPunctuation : isPunctuation sep c = false

structure IsMark (sep c : Char) : Prop where
  notBlank : Text.isBlank c = false
  notQuote : c ≠ '"'
  isPunctuation : isPunctuation sep c = true

/-- A run of plain characters that does not start a comment. -/
structure IsRun (sep : Char) (chars : List Char) : Prop where
  nonempty : chars ≠ []
  plain : ∀ c ∈ chars, IsPlain sep c
  notComment : ¬ ['/', '/'] <+: chars

/-- Whether the characters run up to the quote that closes a literal and no further, where the
first of them may be escaped. -/
def closesLiteral : Bool → List Char → Bool
  | _, [] => false
  | true, _ :: rest => closesLiteral false rest
  | false, c :: rest =>
    if c = '\\' then closesLiteral true rest
    else if c = '"' then rest.isEmpty
    else if c = '\n' then false
    else closesLiteral false rest

/-- No quote closes the literal before its line or the text ends. -/
def Unclosed (escaped : Bool) (chars : List Char) : Prop :=
  ∀ literal, literal <+: chars → closesLiteral escaped literal = false

/-- The words of the next piece, where some characters were read before it and others follow. A comment
runs to the end of its line. A run ends at a blank, a quote or a mark; the mark is read with it, so it
does not start a comment there. -/
inductive Piece (src : Nat) (sep : Char) (before : List Char) :
    List Char → List Char → List Token → Prop where
  | blank {c : Char} {after : List Char} : Text.isBlank c = true →
      Piece src sep before [c] after []
  | comment {body after : List Char} : '\n' ∉ body → (∀ c ∈ after.head?, c = '\n') →
      Piece src sep before ('/' :: '/' :: body) after []
  | literal {chars after : List Char} : closesLiteral false chars = true →
      Piece src sep before ('"' :: chars) after
        [⟨String.ofList ('"' :: chars), behind src before⟩]
  | mark {c : Char} {after : List Char} : IsMark sep c →
      ¬ (c = '/' ∧ after.head? = some '/') →
      Piece src sep before [c] after [ofChar c (behind src before)]
  | run {chars after : List Char} : IsRun sep chars →
      (∀ c ∈ after.head?, Text.isBlank c = true ∨ c = '"') →
      Piece src sep before chars after [⟨String.ofList chars, behind src before⟩]
  | marked {chars after : List Char} {c : Char} : IsRun sep chars → IsMark sep c →
      Piece src sep before (chars ++ [c]) after
        [⟨String.ofList chars, behind src before⟩, ofChar c (behind src (before ++ chars))]

/-- The words of the pieces up to some place in the text. -/
inductive Cut (src : Nat) (sep : Char) (text : List Char) :
    List Token → List Char → List Char → Prop where
  | start : Cut src sep text [] [] text
  | next {tokens found : List Token} {before piece after : List Char} :
      Cut src sep text tokens before (piece ++ after) →
      Piece src sep before piece after found →
      Cut src sep text (tokens ++ found) (before ++ piece) after

/-! ## Pieces are read -/

variable {src : Nat} {sep : Char} {text before piece after : List Char}
  {tokens found : List Token} {start pos : Position}

private theorem scan_comment {body : List Char} (inLine : '\n' ∉ body) (pos : Position)
    (ends : ∀ c ∈ after.head?, c = '\n') : scan sep .comment pos (body ++ after) =
      scan sep .between (pos.along body) after := by
  induction body generalizing pos with
  | cons c body ih =>
    rw [mem_cons, not_or] at inLine
    rw [cons_append, scan, if_neg (Ne.symm inLine.1)]
    exact ih inLine.2 (pos.advance c)
  | nil =>
    cases after with
    | nil => rw [nil_append, scan_between_nil, scan]
    | cons c after =>
      cases ends c rfl
      rw [nil_append, scan, if_pos rfl, scan, if_pos (by decide)]
      rfl

variable {chars : List Char}

theorem scan_literal {chars : List Char} {escaped : Bool} (read : List Char) (pos : Position)
    (closes : closesLiteral escaped chars = true) :
    scan sep (.literal start read escaped) pos (chars ++ after) =
      (ofReversed (chars.reverse ++ read) start :: ·) <$> scan sep .between (pos.along chars) after := by
  induction chars generalizing escaped read pos with
  | nil => cases closes
  | cons c chars ih =>
    have goesOn (next : Bool) (closed : closesLiteral next chars = true) :
        scan sep (.literal start (c :: read) next) (pos.advance c) (chars ++ after) =
          (ofReversed ((c :: chars).reverse ++ read) start :: ·) <$>
            scan sep .between ((pos.advance c).along chars) after := by
      rw [ih (c :: read) (pos.advance c) closed, reverse_cons, append_assoc]
      rfl
    rw [cons_append, scan]
    cases escaped with
    | true => exact goesOn false closes
    | false =>
      rw [closesLiteral] at closes
      rw [if_neg Bool.false_ne_true]
      split at closes
      · next isEscape => exact (if_pos isEscape).trans (goesOn true closes)
      · next notEscape =>
        rw [if_neg notEscape]
        split at closes
        · next isQuote =>
          rw [if_pos isQuote, isEmpty_iff.mp closes]
          rfl
        · next notQuote =>
          rw [if_neg notQuote]
          split at closes
          · cases closes
          · next notEnd => exact (if_neg notEnd).trans (goesOn false closes)

private theorem scan_unclosed {escaped : Bool} (read : List Char) (pos : Position) (unclosed : Unclosed escaped chars) :
    scan sep (.literal start read escaped) pos chars = .error ⟨.unterminatedLiteral, start⟩ := by
  induction chars generalizing escaped read pos with
  | nil => rw [scan]
  | cons c chars ih =>
    have goesOn (next : Bool) (same : ∀ more, closesLiteral escaped (c :: more) = closesLiteral next more) :
        scan sep (.literal start (c :: read) next) (pos.advance c) chars =
          .error ⟨.unterminatedLiteral, start⟩ := by
      refine ih (c :: read) (pos.advance c) (fun literal shorter => ?_)
      rw [← same, unclosed _ (cons_prefix_cons.mpr ⟨rfl, shorter⟩)]
    rw [scan]
    cases escaped with
    | true => exact goesOn false (fun _ => rfl)
    | false =>
      rw [if_neg Bool.false_ne_true]
      split
      · next isEscape => exact goesOn true (fun _ => if_pos isEscape)
      split
      · next notEscape isQuote =>
        have opened := unclosed [c] ⟨chars, rfl⟩
        rw [closesLiteral, if_neg notEscape, if_pos isQuote] at opened
        cases opened
      split
      · rfl
      · next notEscape notQuote notEnd =>
        refine goesOn false (fun _ => ?_)
        rw [closesLiteral, if_neg notEscape, if_neg notQuote, if_neg notEnd]

theorem scan_word (read : List Char) (pos : Position) (plain : ∀ c ∈ chars, IsPlain sep c) :
    scan sep (.word start read) pos (chars ++ after) =
      scan sep (.word start (chars.reverse ++ read)) (pos.along chars) after := by
  induction chars generalizing read pos with
  | nil => rfl
  | cons c chars ih =>
    rw [forall_mem_cons] at plain
    rw [cons_append, scan, if_neg (by simp [plain.1.notBlank]), if_neg plain.1.notQuote,
      if_neg (by simp [plain.1.notPunctuation]), ih (c :: read) (pos.advance c) plain.2,
      reverse_cons, append_assoc]
    rfl

theorem IsRun.scan (run : IsRun sep chars) (ends : ∀ c ∈ after.head?, ¬ IsPlain sep c)
    (pos : Position) : Token.scan sep .between pos (chars ++ after) =
      Token.scan sep (.word pos chars.reverse) (pos.along chars) after := by
  cases chars with
  | nil => exact absurd rfl run.nonempty
  | cons c chars =>
    obtain ⟨isPlain, plain⟩ := forall_mem_cons.mp run.plain
    have notComment : ¬ (c = '/' ∧ (chars ++ after).head? = some '/') := by
      rintro ⟨rfl, second⟩
      cases chars with
      | cons d chars =>
        cases second
        exact run.notComment ⟨chars, rfl⟩
      | nil => exact ends '/' second isPlain
    rw [cons_append, Token.scan, if_neg (by simp [isPlain.notBlank]), if_neg notComment,
      if_neg isPlain.notQuote, if_neg (by simp [isPlain.notPunctuation]), scan_word _ _ plain,
      reverse_cons]
    rfl

theorem IsMark.scan_between {c : Char} (mark : IsMark sep c) (notComment : ¬ (c = '/' ∧ after.head? = some '/'))
    (pos : Position) : scan sep .between pos (c :: after) = (ofChar c pos :: ·)
      <$> scan sep .between (pos.advance c) after := by
  rw [scan, if_neg (by simp [mark.notBlank]), if_neg notComment, if_neg mark.notQuote,
    if_pos mark.isPunctuation]
  rfl

theorem IsMark.scan_word {c : Char} (mark : IsMark sep c) (read : List Char) :
    scan sep (.word start read) pos (c :: after) =
      (fun words => ofReversed read start :: ofChar c pos :: words) <$>
        scan sep .between (pos.advance c) after := by
  rw [scan, if_neg (by simp [mark.notBlank]), if_neg mark.notQuote, if_pos mark.isPunctuation]
  rfl

theorem scan_word_end (read : List Char) (ends : ∀ c ∈ after.head?, Text.isBlank c = true ∨ c = '"') :
    scan sep (.word start read) pos after =
      (ofReversed read start :: ·) <$> scan sep .between pos after := by
  cases after with
  | nil => rw [scan_between_nil, scan]; rfl
  | cons c after =>
    rw [scan]
    rcases ends c rfl with isBlank | rfl
    · rw [if_pos isBlank, scan, if_pos isBlank]
      rfl
    · rw [if_neg (by decide), if_pos rfl, scan, if_neg (by decide),
        if_neg (fun both => absurd both.1 (by decide)), if_pos rfl]
      rfl

theorem Piece.scan (found : Piece src sep before piece after tokens) :
    Token.scan sep .between (behind src before) (piece ++ after) =
      (tokens ++ ·) <$> Token.scan sep .between (behind src (before ++ piece)) after := by
  rw [behind_append]
  cases found with
  | blank isBlank =>
    rw [singleton_append, Token.scan, if_pos isBlank]
    exact (id_map _).symm
  | @comment body after inLine ends =>
    have noBreak : '\n' ∉ '/' :: body := by simp [inLine]
    rw [cons_append, Token.scan, if_neg (by decide), if_pos ⟨rfl, rfl⟩,
      scan_comment noBreak _ ends]
    exact (id_map _).symm
  | @literal chars after closes =>
    rw [cons_append, Token.scan, if_neg (by decide),
      if_neg (fun both => absurd both.1 (by decide)), if_pos rfl, scan_literal _ _ closes, ofReversed,
      reverse_append, reverse_reverse]
    rfl
  | mark isMark notComment => exact isMark.scan_between notComment _
  | run isRun ends =>
    have notPlain : ∀ c ∈ after.head?, ¬ IsPlain sep c := by
      intro c first plain
      rcases ends c first with isBlank | isQuote
      · exact Bool.eq_false_iff.mp plain.notBlank isBlank
      · exact plain.notQuote isQuote
    rw [isRun.scan notPlain, scan_word_end _ ends, ofReversed, reverse_reverse]
    rfl
  | @marked chars after c isRun isMark =>
    have notPlain : ∀ d ∈ (c :: after).head?, ¬ IsPlain sep d := by
      rintro _ ⟨⟩ plain
      exact Bool.eq_false_iff.mp plain.notPunctuation isMark.isPunctuation
    rw [append_assoc, singleton_append, isRun.scan notPlain, isMark.scan_word, ofReversed,
      reverse_reverse, behind_append, Position.along, Position.along, foldl_append]
    rfl

theorem Cut.scan (cut : Cut src sep text tokens before after) :
    Token.scan sep .between (.start src) text =
      (tokens ++ ·) <$> Token.scan sep .between (behind src before) after := by
  induction cut with
  | start => exact (id_map _).symm
  | next cut found ih =>
    rw [ih, found.scan, ← LawfulFunctor.comp_map]
    congr 1
    funext words
    exact (append_assoc ..).symm

theorem Cut.append (cut : Cut src sep text tokens before after) : before ++ after = text := by
  induction cut with
  | start => rfl
  | next cut found ih => rw [append_assoc, ih]

/-! ## Every text is cut to its end or up to a literal -/

theorem exists_split (p : Char → Prop) (chars : List Char) :
    ∃ front back, chars = front ++ back ∧ (∀ c ∈ front, p c) ∧ ∀ c ∈ back.head?, ¬ p c := by
  induction chars with
  | nil => exact ⟨[], [], rfl, forall_mem_nil _, by rintro _ ⟨⟩⟩
  | cons c chars ih =>
    by_cases holds : p c
    · obtain ⟨front, back, rfl, all, ends⟩ := ih
      exact ⟨c :: front, back, rfl, forall_mem_cons.mpr ⟨holds, all⟩, ends⟩
    · refine ⟨[], c :: chars, rfl, forall_mem_nil _, ?_⟩
      rintro _ ⟨⟩
      exact holds

theorem exists_piece (src : Nat) (sep : Char) (before : List Char) {chars : List Char} (more : chars ≠ []) :
    (∃ piece after found, chars = piece ++ after ∧ piece ≠ [] ∧ Piece src sep before piece after found) ∨
    ∃ literal, chars = '"' :: literal ∧ Unclosed false literal := by
  obtain ⟨c, rest, rfl⟩ := exists_cons_of_ne_nil more
  by_cases isBlank : Text.isBlank c = true
  · exact .inl ⟨[c], rest, _, rfl, cons_ne_nil _ _, .blank isBlank⟩
  by_cases isComment : c = '/' ∧ rest.head? = some '/'
  · obtain ⟨rfl, second⟩ := isComment
    obtain ⟨others, rfl⟩ := head?_eq_some_iff.mp second
    obtain ⟨body, after, rfl, inLine, ends⟩ := exists_split (· ≠ '\n') others
    exact .inl ⟨'/' :: '/' :: body, after, _, rfl, cons_ne_nil _ _,
      .comment (fun broken => inLine _ broken rfl) (fun c first => not_not.mp (ends c first))⟩
  by_cases isQuote : c = '"'
  · subst isQuote
    by_cases unclosed : Unclosed false rest
    · exact .inr ⟨rest, rfl, unclosed⟩
    · rw [Unclosed] at unclosed
      push Not at unclosed
      obtain ⟨literal, ⟨after, rfl⟩, closes⟩ := unclosed
      exact .inl ⟨'"' :: literal, after, _, rfl, cons_ne_nil _ _, .literal (Bool.ne_false_iff.mp closes)⟩
  rw [Bool.not_eq_true] at isBlank
  by_cases isMark : isPunctuation sep c = true
  · exact .inl ⟨[c], rest, _, rfl, cons_ne_nil _ _, .mark ⟨isBlank, isQuote, isMark⟩ isComment⟩
  obtain ⟨front, back, rfl, plain, ends⟩ := exists_split (IsPlain sep) rest
  have run : IsRun sep (c :: front) := by
    refine ⟨cons_ne_nil _ _,
      forall_mem_cons.mpr ⟨⟨isBlank, isQuote, Bool.eq_false_iff.mpr isMark⟩, plain⟩, ?_⟩
    rintro ⟨others, same⟩
    cases same
    exact isComment ⟨rfl, rfl⟩
  left
  cases back with
  | nil => exact ⟨c :: front, [], _, rfl, cons_ne_nil _ _, .run run (by rintro _ ⟨⟩)⟩
  | cons d back =>
    by_cases ended : Text.isBlank d = true ∨ d = '"'
    · refine ⟨c :: front, d :: back, _, rfl, cons_ne_nil _ _, .run run ?_⟩
      rintro _ ⟨⟩
      exact ended
    · rw [not_or, Bool.not_eq_true] at ended
      refine ⟨c :: front ++ [d], back, _, by simp, cons_ne_nil _ _, .marked run ?_⟩
      exact ⟨ended.1, ended.2, Bool.ne_false_iff.mp fun other =>
        ends d rfl ⟨ended.1, ended.2, other⟩⟩

theorem Cut.finish (cut : Cut src sep text tokens before after) :
    (∃ all, Cut src sep text all text []) ∨
    ∃ all front literal, Cut src sep text all front ('"' :: literal) ∧ Unclosed false literal := by
  induction size : after.length using Nat.strongRecOn generalizing tokens before after with
  | _ n ih =>
    by_cases ended : after = []
    · subst ended
      obtain rfl : before = text := by rw [← cut.append, append_nil]
      exact .inl ⟨tokens, cut⟩
    rcases exists_piece src sep before ended with
      ⟨piece, rest, found, rfl, nonempty, isPiece⟩ | ⟨literal, rfl, unclosed⟩
    · refine ih rest.length ?_ (cut.next isPiece) rfl
      rw [← size, length_append]
      exact Nat.lt_add_of_pos_left (length_pos_iff.mpr nonempty)
    · exact .inr ⟨tokens, before, literal, cut, unclosed⟩

variable {text : String}

theorem Cut.tokenize (cut : Cut src sep text.toList tokens text.toList []) :
    Token.tokenize src sep text = .ok tokens := by
  rw [Token.tokenize, cut.scan, scan_between_nil]
  exact congrArg Except.ok (append_nil _)

theorem Cut.tokenize_unclosed {literal : List Char}
    (cut : Cut src sep text.toList tokens before ('"' :: literal)) (unclosed : Unclosed false literal) :
    Token.tokenize src sep text = .error ⟨.unterminatedLiteral, behind src before⟩ := by
  rw [Token.tokenize, cut.scan, Token.scan, if_neg (by decide),
    if_neg (fun both => absurd both.1 (by decide)), if_pos rfl, scan_unclosed _ _ unclosed]
  rfl

theorem cut_of_tokenize (tokenized : tokenize src sep text = .ok tokens) :
    Cut src sep text.toList tokens text.toList [] := by
  rcases Cut.finish (@Cut.start src sep text.toList) with
    ⟨all, cut⟩ | ⟨all, front, literal, cut, unclosed⟩
  · cases cut.tokenize.symm.trans tokenized
    exact cut
  · cases (cut.tokenize_unclosed unclosed).symm.trans tokenized

theorem unclosed_of_tokenize {fault : Fault} (refused : tokenize src sep text = .error fault) :
    ∃ tokens before literal, Cut src sep text.toList tokens before ('"' :: literal) ∧
      Unclosed false literal ∧ fault = ⟨.unterminatedLiteral, behind src before⟩ := by
  rcases Cut.finish (@Cut.start src sep text.toList) with
    ⟨all, cut⟩ | ⟨all, front, literal, cut, unclosed⟩
  · cases cut.tokenize.symm.trans refused
  · cases (cut.tokenize_unclosed unclosed).symm.trans refused
    exact ⟨all, front, literal, cut, unclosed, rfl⟩

/-- A text has the words that it is cut into, each where its first character stands, and nothing between
them but blanks and comments. It is refused exactly where a literal opens that is never closed. -/
theorem tokenize_exact (src : Nat) (sep : Char) (text : String) :
    (∀ tokens, tokenize src sep text = .ok tokens ↔ Cut src sep text.toList tokens text.toList []) ∧
    ∀ fault, tokenize src sep text = .error fault ↔
      ∃ tokens before literal, Cut src sep text.toList tokens before ('"' :: literal) ∧
        Unclosed false literal ∧ fault = ⟨.unterminatedLiteral, behind src before⟩ := by
  refine ⟨fun tokens => ⟨cut_of_tokenize, Cut.tokenize⟩, fun fault => ⟨unclosed_of_tokenize, ?_⟩⟩
  rintro ⟨tokens, before, literal, cut, unclosed, rfl⟩
  exact cut.tokenize_unclosed unclosed

end Token

end ScoreScript
