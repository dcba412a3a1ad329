import ScoreScript.Compiler
import ScoreScript.Proofs.Compile.Additions
import ScoreScript.Proofs.Compile.Unbroken
import ScoreScript.Proofs.Reading.Lexemes

/-!
# Texts as literals

Every text has a literal. Whatever functions write texts and read them by the rules of JSON, what is
written is cut out of a script as one word, whatever ends statements there, and stands for the text
again. So does the name that a command shows. `Json.encodeText` and `Json.decodeText?` are such functions.
-/

namespace ScoreScript

open List

namespace Json

variable {rest : List Char}

private theorem hexValue?_digitChar : ∀ n < 16, hexValue? (Nat.digitChar n) = some n := by decide

private theorem readPieces_hexDigits {n : Nat} (small : n < 65536) : readPieces (.unit 4 0) (hexDigits n ++ rest) =
      (readPieces .none rest).map (fun (pieces, after) => (.unit n :: pieces, after)) := by
  have digit (k : Nat) : hexValue? (Nat.digitChar (k % 16)) = some (k % 16) :=
    hexValue?_digitChar _ (Nat.mod_lt k (by decide))
  have value : (((0 * 16 + n / 4096 % 16) * 16 + n / 256 % 16) * 16 + n / 16 % 16) * 16 + n % 16 = n := by omega
  simp only [hexDigits, map_cons, map_nil, cons_append, nil_append, readPieces, digit]
  simp only [value, Nat.reduceLeDiff, Nat.reduceSub, if_true, if_false]

/-- A written character is read as one piece, which stands for it. -/
theorem exists_piece (c : Char) : ∃ piece,
    (∀ rest, readPieces .none (encodeChar c ++ rest) =
      (readPieces .none rest).map (fun (pieces, after) => (piece :: pieces, after))) ∧
    ∀ pieces, joinPieces (piece :: pieces) = (joinPieces pieces).map (c :: ·) := by
  rcases encodeChar_cases c with
    ⟨e, written, ⟨notUnit, _⟩, meant⟩ | ⟨written, small⟩ | ⟨written, notQuote, notEscape, _, large⟩
  · refine ⟨.char c, fun rest => ?_, fun _ => rfl⟩
    simp [written, readPieces, notUnit, meant]
  · refine ⟨.unit c.toNat, fun rest => ?_, fun pieces => ?_⟩
    · simp only [written, cons_append, readPieces]
      exact readPieces_hexDigits (Nat.lt_trans small (by decide))
    · rw [joinPieces.eq_def]
      dsimp only
      rw [if_pos (.inl (Nat.lt_trans small (by decide))), Char.ofNat_toNat]
  · refine ⟨.char c, fun rest => ?_, fun _ => rfl⟩
    simp [written, readPieces, notQuote, notEscape, Nat.not_lt.mpr large]

theorem readPieces_encoded (text rest : List Char) :
    ∃ pieces, readPieces .none (text.flatMap encodeChar ++ '"' :: rest) = some (pieces, rest) ∧
      joinPieces pieces = some text := by
  induction text with
  | nil => exact ⟨[], rfl, rfl⟩
  | cons c text ih =>
    obtain ⟨pieces, read, joined⟩ := ih
    obtain ⟨piece, reads, stands⟩ := exists_piece c
    refine ⟨piece :: pieces, ?_, by rw [stands, joined]; rfl⟩
    rw [flatMap_cons, append_assoc, reads, read]
    rfl

/-- How a character may be written: as it is, or as a backslash and a mark, with digits behind it for some
marks. -/
inductive Spelling (c : Char) : List Char → Prop where
  | plain (notQuote : c ≠ '"') (notEscape : c ≠ '\\') (large : 0x20 ≤ c.toNat) : Spelling c [c]
  | escaped {mark : Char} {digits : List Char} (plain : ∀ d ∈ digits, d.isAlphanum = true) :
      Spelling c ('\\' :: mark :: digits)

/-- The rules of JSON for functions that write and read texts: a text stands between quotes, character by
character, and is read as what it was. -/
structure IsCodec (encode : String → String) (decode? : String → Option String) : Prop where
  quoted : ∀ text, ∃ spell : Char → List Char, (∀ c, Spelling c (spell c)) ∧
    (encode text).toList = '"' :: (text.toList.flatMap spell ++ ['"'])
  decoded : ∀ text, decode? (encode text) = some text

theorem Spelling.closesLiteral {c : Char} {spelled : List Char} (spelling : Spelling c spelled) (rest : List Char) :
    Token.closesLiteral false (spelled ++ rest) = Token.closesLiteral false rest := by
  cases spelling with
  | plain notQuote notEscape large =>
    have notBreak : c ≠ '\n' := by
      rintro rfl
      exact absurd large (by decide)
    simp [Token.closesLiteral, notQuote, notEscape, notBreak]
  | @escaped mark digits plain =>
    have digits : Token.closesLiteral false (digits ++ rest) = Token.closesLiteral false rest := by
      induction digits with
      | nil => rfl
      | cons d digits ih =>
        obtain ⟨first, others⟩ := forall_mem_cons.mp plain
        have other {c : Char} (special : c.isAlphanum = false) : d ≠ c := by
          rintro rfl
          rw [first] at special
          cases special
        rw [cons_append, Token.closesLiteral, if_neg (other (by decide)), if_neg (other (by decide)),
          if_neg (other (by decide)), ih others]
    simp [Token.closesLiteral, digits]

section

variable {encode : String → String} {decode? : String → Option String} (codec : IsCodec encode decode?)
include codec

theorem IsCodec.closesLiteral (text : String) : ∃ chars, (encode text).toList = '"' :: chars ∧
    Token.closesLiteral false chars = true := by
  obtain ⟨spell, spelled, written⟩ := codec.quoted text
  refine ⟨_, written, ?_⟩
  induction text.toList with
  | nil => rfl
  | cons c text ih => rw [flatMap_cons, append_assoc, (spelled c).closesLiteral, ih]

end

theorem toList_encodeText (text : String) :
    (encodeText text).toList = '"' :: (text.toList.flatMap encodeChar ++ ['"']) :=
  String.toList_ofList

private theorem decodeText?_encodeText (text : String) : decodeText? (encodeText text) = some text := by
  obtain ⟨pieces, read, joined⟩ := readPieces_encoded text.toList []
  rw [decodeText?, toList_encodeText]
  simp [dropWhile, isSpace, read, joined]

theorem isCodec_encodeText : IsCodec encodeText decodeText? where
  quoted := by
    refine fun text => ⟨encodeChar, fun c => ?_, toList_encodeText text⟩
    rcases encodeChar_cases c with ⟨e, written, _⟩ | ⟨written, _⟩ | ⟨written, notQuote, notEscape, _, large⟩
    · exact written ▸ .escaped (by simp)
    · have digit : ∀ n < 16, (Nat.digitChar n).isAlphanum = true := by decide
      refine written ▸ .escaped (fun d mem => ?_)
      simp only [hexDigits, mem_map] at mem
      obtain ⟨n, among, rfl⟩ := mem
      refine digit n ?_
      simp only [mem_cons, not_mem_nil, or_false] at among
      omega
    · exact written ▸ .plain notQuote notEscape large
  decoded := decodeText?_encodeText

end Json

open Compile Engine Json

section

variable {encode : String → String} {decode? : String → Option String} (codec : IsCodec encode decode?)
include codec

theorem Token.tokenize_literal (src : Nat) {sep : Char} (text : String) : ∃ token,
    tokenize src sep (encode text) = .ok [token] ∧ token.text = encode text := by
  obtain ⟨chars, written, closes⟩ := codec.closesLiteral text
  have spells : Spells sep ((encode text).toList ++ []) [encode text] := .literal written closes .nil
  obtain ⟨tokens, scanned, same⟩ := spells (Position.start src)
  obtain ⟨token, rfl, isText⟩ := map_eq_singleton_iff.mp same
  rw [append_nil] at scanned
  exact ⟨token, scanned, isText⟩

namespace Engine

private theorem encode_ne (text : String) {word : String} (starts : word.toList.head? ≠ some '"') :
    (encode text == word) = false := by
  obtain ⟨_, written, _⟩ := codec.closesLiteral text
  refine beq_eq_false_iff_ne.mpr ?_
  rintro rfl
  rw [written] at starts
  exact starts rfl

private theorem evaluateWord_literal (engine : Engine) (text : String) (pos : Position) :
    engine.evaluateWord pos (encode text).toList decode? = constantText text pos := by
  obtain ⟨chars, written, _⟩ := codec.closesLiteral text
  have value : literal? (encode text) pos decode? = some (constantText text pos) := by
    rw [literal?, encode_ne codec text (by decide), encode_ne codec text (by decide), written, codec.decoded]
    rfl
  rw [written, evaluateWord, ← written, String.ofList_toList, value]

/-- A literal that stands alone is evaluated as a word. -/
private theorem evaluateSequence_literal (engine : Engine) (text : String) (place pos : Position) :
    engine.evaluateSequence [.leaf ⟨encode text, place⟩] pos =
      some <$> engine.evaluateWord place (encode text).toList := by
  obtain ⟨tree, isTree⟩ : ∃ tree, tree = Tree.leaf ⟨encode text, place⟩ := ⟨_, rfl⟩
  have other {word : String} (starts : word.toList.head? ≠ some '"') : tree.isWord word = false := by
    have different := encode_ne codec text starts
    rw [beq_eq_false_iff_ne] at different
    exact isTree ▸ beq_eq_false_iff_ne.mpr (fun same => different (Option.some.inj same))
  have unassigned : splitAssignment [tree] = none := by
    rw [splitAssignment, other (by decide)]
    rfl
  have whole : splitLoosest [tree] Operator.levels 0 = none := rfl
  have value : engine.evaluatePrimary tree = engine.evaluateWord place (encode text).toList := by
    rw [isTree, evaluatePrimary]
  rw [← isTree, evaluateSequence, unassigned, whole, other (by decide), other (by decide), other (by decide), value]
  exact bind_pure_comp some _

end Engine

end

/-- The token is the literal of the text, in a script and as a name that is shown. -/
structure Token.Denotes (token : Token) (encode : String → String) (decode? : String → Option String)
    (engine : Engine) (text : String) : Prop where
  written : token.text = encode text
  /-- It stands for a constant, also where it is a whole expression. -/
  value : engine.evaluateWord token.position token.text.toList decode? = constantText text token.position
  alone : ∀ pos, engine.evaluateSequence [.leaf token] pos =
    some <$> engine.evaluateWord token.position token.text.toList
  /-- The constant holds the text, wherever one can be made. -/
  holds : ∀ (s : State) (scope : Scope), s.scopes.scopes[s.current]? = some scope →
    s.scopes.lookup s.current (s.config.generatedName scope.drawn) = none →
    ∃ id t var, (engine.evaluateWord token.position token.text.toList decode?).runFrom s = (.ok id, t) ∧
      t.vars[id]? = some var ∧ var.type = .string ∧ var.usage = .constant ∧ var.value = .text text
  /-- Assigning the text as a display name enters the command for it, whose line ends in the literal. -/
  shown : ∀ (s t u : State) (id criterion name : String) (owner value : VarId) (pos : Position),
    (referent owner pos).runFrom s = (.ok (id, criterion), t) →
    (do textOf (← cast value ValueType.string.name pos) pos).runFrom t = (.ok text, u) →
    (assignProperty .displayName name owner value pos).runFrom s = (emit [.showObjective id text]).runFrom u
  line : ∀ id, Command.showLine encode id text =
    "scoreboard objectives modify " ++ id ++ " displayname " ++ token.text

end ScoreScript
