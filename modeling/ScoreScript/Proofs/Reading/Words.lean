import ScoreScript.Proofs.Names
import ScoreScript.Proofs.Reading.Lexing

/-!
# What reading words gives

Every word takes at least one character, and only an unfinished literal is a fault. A text that is
spelled out of words, blanks and punctuation is read as these words, whatever the separator is.
-/

namespace ScoreScript

open List

variable {sep : Char}

namespace Token

/-! ## The number of words -/

theorem Cut.length_le {src : Nat} {sep : Char} {text before after : List Char}
    {tokens : List Token} (cut : Cut src sep text tokens before after) : tokens.length ≤ before.length := by
  induction cut with
  | start => exact Nat.le_refl _
  | @next tokens found before piece after _ isPiece ih =>
    have few : found.length ≤ piece.length := by
      cases isPiece with
      | blank | comment => exact Nat.zero_le _
      | literal | mark => simp
      | run isRun _ => exact length_pos_iff.mpr isRun.nonempty
      | marked isRun _ =>
        rw [length_append]
        exact Nat.succ_le_succ (length_pos_iff.mpr isRun.nonempty)
    rw [length_append, length_append]
    exact Nat.add_le_add ih few

theorem tokenize_atMost (src : Nat) (sep : Char) (text : String) : Blameless (tokenize src sep text) ∧
      ∀ tokens, tokenize src sep text = .ok tokens → tokens.length ≤ text.length := by
  constructor
  · intro fault refused
    obtain ⟨_, _, _, _, _, rfl⟩ := unclosed_of_tokenize refused
    rintro ⟨⟩
  · intro tokens tokenized
    rw [← String.length_toList]
    exact (cut_of_tokenize tokenized).length_le

theorem tokenizeAt_atMost (src : Nat) (sep : Char) (text : String) (pos : Position) :
    Blameless (tokenizeAt src sep text pos) ∧
      ∀ tokens, tokenizeAt src sep text pos = .ok tokens → tokens.length ≤ text.length := by
  obtain ⟨blameless, few⟩ := tokenize_atMost src sep text
  refine ⟨blameless.bind (fun _ _ => .ok _), ?_⟩
  intro tokens isOk
  obtain ⟨words, read, ⟨⟩⟩ := Fault.of_bind isOk
  rw [length_map]
  exact few words read

/-! ## Spelling words out -/

def EndsWord (sep : Char) (chars : List Char) : Prop :=
  ∀ c rest, chars = c :: rest → Text.isBlank c = true ∨
    (Text.isBlank c = false ∧ ¬ (c = '/' ∧ rest.head? = some '/') ∧ c ≠ '"' ∧ isPunctuation sep c = true)

/-- The characters are read as words with these texts, wherever they stand. -/
def Spells (sep : Char) (chars : List Char) (texts : List String) : Prop :=
  ∀ pos, ∃ tokens, scan sep .between pos chars = .ok tokens ∧ tokens.map text = texts

namespace Spells

variable {sep c : Char} {chars : List Char} {texts : List String}

theorem nil : Spells sep [] [] :=
  fun _ => ⟨[], by rw [scan], rfl⟩

theorem blank (isBlank : Text.isBlank c = true) (rest : Spells sep chars texts) :
    Spells sep (c :: chars) texts := by
  intro pos
  obtain ⟨tokens, scanned, same⟩ := rest (pos.advance c)
  exact ⟨tokens, by rw [scan, if_pos isBlank, scanned], same⟩

theorem punctuation (ends : EndsWord sep (c :: chars)) (notBlank : Text.isBlank c = false)
    (rest : Spells sep chars texts) : Spells sep (c :: chars) (String.ofList [c] :: texts) := by
  intro pos
  obtain ⟨_, notComment, notQuote, isPunctuation⟩ :=
    (ends c chars rfl).resolve_left (by simp [notBlank])
  obtain ⟨tokens, scanned, same⟩ := rest (pos.advance c)
  refine ⟨ofChar c pos :: tokens, ?_, by rw [map_cons, same]; rfl⟩
  rw [IsMark.scan_between ⟨notBlank, notQuote, isPunctuation⟩ notComment, scanned]
  rfl

private theorem scan_end (start pos : Position) (read : List Char) (ends : EndsWord sep chars) :
    scan sep (.word start read) pos chars =
      (ofReversed read start :: ·) <$> scan sep .between pos chars := by
  cases chars with
  | nil => exact scan_word_end read (by rintro _ ⟨⟩)
  | cons c rest =>
    rcases ends c rest rfl with isBlank | ⟨notBlank, notComment, notQuote, isPunctuation⟩
    · refine scan_word_end read ?_
      rintro _ ⟨⟩
      exact .inl isBlank
    · have mark : IsMark sep c := ⟨notBlank, notQuote, isPunctuation⟩
      rw [mark.scan_word, mark.scan_between notComment, ← LawfulFunctor.comp_map]
      rfl

theorem word {word : String} (nonempty : word.toList ≠ []) (plain : ∀ c ∈ word.toList, IsPlain sep c)
    (notComment : ¬ ['/', '/'] <+: word.toList) (ends : EndsWord sep chars)
    (rest : Spells sep chars texts) : Spells sep (word.toList ++ chars) (word :: texts) := by
  intro pos
  have notPlain : ∀ c ∈ chars.head?, ¬ IsPlain sep c := by
    intro c first isPlain
    obtain ⟨others, rfl⟩ := head?_eq_some_iff.mp first
    rcases ends c others rfl with isBlank | ⟨_, _, _, isMark⟩
    · exact Bool.eq_false_iff.mp isPlain.notBlank isBlank
    · exact Bool.eq_false_iff.mp isPlain.notPunctuation isMark
  obtain ⟨tokens, scanned, same⟩ := rest (pos.along word.toList)
  refine ⟨⟨word, pos⟩ :: tokens, ?_, by rw [map_cons, same]⟩
  rw [IsRun.scan ⟨nonempty, plain, notComment⟩ notPlain, scan_end _ _ _ ends, scanned, ofReversed,
    reverse_reverse, String.ofList_toList]
  rfl

end Spells

end Token

/-! ## Characters of words -/

variable {c : Char}

theorem isDigit_iff : c.isDigit = true ↔ 48 ≤ c.toNat ∧ c.toNat ≤ 57 :=
  Bool.and_eq_true_iff.trans (and_congr decide_eq_true_iff decide_eq_true_iff)

theorem isUpper_iff : c.isUpper = true ↔ 65 ≤ c.toNat ∧ c.toNat ≤ 90 :=
  decide_eq_true_iff

theorem isLower_iff : c.isLower = true ↔ 97 ≤ c.toNat ∧ c.toNat ≤ 122 :=
  Bool.and_eq_true_iff.trans (and_congr decide_eq_true_iff decide_eq_true_iff)

private theorem toNat_of_isAlphanum (alphanum : c.isAlphanum = true) :
    (48 ≤ c.toNat ∧ c.toNat ≤ 57) ∨ (65 ≤ c.toNat ∧ c.toNat ≤ 90) ∨ (97 ≤ c.toNat ∧ c.toNat ≤ 122) := by
  have isAlphanum : c.isAlphanum = (c.isUpper || c.isLower || c.isDigit) := rfl
  simp only [isAlphanum, Bool.or_eq_true, isUpper_iff, isLower_iff, isDigit_iff] at alphanum
  omega

private theorem isBlank_of_isWordChar (word : isWordChar c = true) : Text.isBlank c = false := by
  rcases Bool.or_eq_true_iff.mp word with alphanum | underscore
  · have := toNat_of_isAlphanum alphanum
    simp only [Text.isBlank, Bool.or_eq_false_iff, Bool.and_eq_false_iff, decide_eq_false_iff_not, beq_eq_false_iff_ne]
    omega
  · rw [eq_of_beq underscore]
    decide

namespace Config

structure Separates (c : Char) : Prop where
  symbols : ∀ op : Operator, c ∉ op.symbol.toList
  letter : Text.isAlphanumeric c = false
  blank : Text.isBlank c = false
  bracket : Bracket.isBracket c = false
  comma : c ≠ ','
  quote : c ≠ '"'
  underscore : c ≠ '_'

theorem separates (valid : isSeparator c = true) : Separates c := by
  simp only [isSeparator, Bool.not_eq_true', Bool.or_eq_false_iff, any_eq_false, beq_eq_false_iff_ne] at valid
  obtain ⟨⟨⟨⟨⟨⟨symbols, letter⟩, blank⟩, bracket⟩, comma⟩, quote⟩, underscore⟩ := valid
  refine ⟨?_, letter, blank, bracket, comma, quote, underscore⟩
  intro op mem
  exact symbols op op.mem_all (contains_iff_mem.mpr mem)

theorem Separates.not_wordChar (separates : Separates c) : isWordChar c = false := by
  rw [isWordChar, Bool.or_eq_false_iff, beq_eq_false_iff_ne]
  refine ⟨Bool.eq_false_iff.mpr ?_, separates.underscore⟩
  intro alphanum
  have range := toNat_of_isAlphanum alphanum
  have letter := separates.letter
  rw [Text.isAlphanumeric, if_pos (by omega), alphanum] at letter
  cases letter

end Config

namespace Token

variable {sep : Char}

theorem isPlain_of_isWordChar (valid : Config.isSeparator sep = true)
    (word : isWordChar c = true) : IsPlain sep c := by
  have other {d : Char} (notWord : isWordChar d = false) : c ≠ d := by
    rintro rfl
    rw [word] at notWord
    cases notWord
  have notSeparator := other (Config.separates valid).not_wordChar
  refine ⟨isBlank_of_isWordChar word, other (by decide), ?_⟩
  have notBracket : Bracket.isBracket c = false := by
    have opening : Bracket.ofOpening? c = none := by
      simp [Bracket.ofOpening?, Bracket.opening, (other (d := '(') (by decide)).symm,
        (other (d := '\x7b') (by decide)).symm, (other (d := '[') (by decide)).symm]
    have closing : Bracket.ofClosing? c = none := by
      simp [Bracket.ofClosing?, Bracket.closing, (other (d := ')') (by decide)).symm,
        (other (d := '\x7d') (by decide)).symm, (other (d := ']') (by decide)).symm]
    simp [Bracket.isBracket, opening, closing]
  simp [isPunctuation, notSeparator, other (d := ',') (by decide), other (d := '.') (by decide),
    notBracket]

theorem isPlain_equals (valid : Config.isSeparator sep = true) : IsPlain sep '=' := by
  refine ⟨by decide, by decide, ?_⟩
  have distinct : ('=' == sep) = false := by
    rw [beq_eq_false_iff_ne]
    rintro rfl
    exact (Config.separates valid).symbols .assign (by decide)
  simp only [isPunctuation, distinct]
  decide

theorem endsWord_space (chars : List Char) : EndsWord sep (' ' :: chars) := by
  rintro c rest ⟨⟩
  exact .inl (by decide)

theorem endsWord_punctuation (notBlank : Text.isBlank c = false) (notSlash : c ≠ '/') (notQuote : c ≠ '"')
    (isPunctuation : isPunctuation sep c = true) (chars : List Char) : EndsWord sep (c :: chars) := by
  rintro _ _ ⟨⟩
  exact .inr ⟨notBlank, fun both => notSlash both.1, notQuote, isPunctuation⟩

theorem endsWord_separator (valid : Config.isSeparator sep = true) (chars : List Char) :
    EndsWord sep (sep :: chars) := by
  have separates := Config.separates valid
  refine endsWord_punctuation separates.blank ?_ separates.quote (by simp [isPunctuation]) chars
  rintro rfl
  exact separates.symbols .divide (by decide)

theorem endsWord_bracket (mem : c ∈ ['(', ')', '\x7b', '\x7d']) (chars : List Char) :
    EndsWord sep (c :: chars) := by
  simp only [mem_cons, not_mem_nil, or_false] at mem
  have isBracket : Bracket.isBracket c = true := by
    rcases mem with rfl | rfl | rfl | rfl <;> decide
  refine endsWord_punctuation ?_ ?_ ?_ (by simp [isPunctuation, isBracket]) chars <;>
    rcases mem with rfl | rfl | rfl | rfl <;> decide

namespace Spells

variable {chars : List Char} {texts : List String}

theorem space (rest : Spells sep chars texts) : Spells sep (' ' :: chars) texts :=
  blank (by decide) rest

theorem stop (valid : Config.isSeparator sep = true) (rest : Spells sep chars texts) :
    Spells sep (sep :: chars) (sep.toString :: texts) :=
  punctuation (endsWord_separator valid chars) (Config.separates valid).blank rest

theorem bracket (mem : c ∈ ['(', ')', '\x7b', '\x7d']) (rest : Spells sep chars texts) :
    Spells sep (c :: chars) (c.toString :: texts) := by
  refine punctuation (endsWord_bracket mem chars) ?_ rest
  simp only [mem_cons, not_mem_nil, or_false] at mem
  rcases mem with rfl | rfl | rfl | rfl <;> decide

theorem segment (valid : Config.isSeparator sep = true) {name : String}
    (segment : IsSegment name) (ends : EndsWord sep chars) (rest : Spells sep chars texts) :
    Spells sep (name.toList ++ chars) (name :: texts) := by
  refine word segment.nonempty (fun c mem => isPlain_of_isWordChar valid (segment.word c mem))
    ?_ ends rest
  intro slashes
  exact segment.slashless (slashes.subset (mem_cons_self ..))

theorem equals (valid : Config.isSeparator sep = true) (rest : Spells sep chars texts) :
    Spells sep ('=' :: ' ' :: chars) ("=" :: texts) := by
  have spelled : Spells sep ("=".toList ++ ' ' :: chars) ("=" :: texts) := by
    refine word (by decide) ?_ (by decide) (endsWord_space chars) rest.space
    intro c mem
    rw [mem_singleton.mp mem]
    exact isPlain_equals valid
  exact spelled

end Spells

end Token

end ScoreScript
