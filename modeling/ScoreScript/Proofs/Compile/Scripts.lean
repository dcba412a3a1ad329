import ScoreScript.Compile.Operation
import ScoreScript.Proofs.Reading.Words

/-!
# The words of generated scripts

The three scripts that stand for operations on truth values are read as the words they are meant to
hold, whatever names are put into them.
-/

namespace ScoreScript

open List

namespace Compile

open Token

variable {sep : Char} {name other value : String}

theorem isSegment_keywords : IsSegment "if" ∧ IsSegment "else" ∧ IsSegment "true" ∧ IsSegment "false" :=
  ⟨.of_all rfl (by decide), .of_all rfl (by decide), .of_all rfl (by decide),
    .of_all rfl (by decide)⟩

def assignmentWords (name value : String) (sep : Char) : List String :=
  ["\x7b", name, "=", value, sep.toString, "\x7d"]

def negationWords (name : String) (sep : Char) : List String :=
  ["if", "(", name, ")"] ++ assignmentWords name "false" sep ++
    ["else"] ++ assignmentWords name "true" sep

def conditionalWords (cond name value : String) (sep : Char) : List String :=
  ["if", "(", cond, ")"] ++ assignmentWords name value sep

variable {texts : List String}

private theorem spells_assignment (valid : Config.isSeparator sep = true) (named : IsSegment name)
    (valued : IsSegment value) {chars : List Char} {texts : List String} (rest : Spells sep chars texts) :
    Spells sep ('\x7b' :: ' ' :: (name.toList ++ ' ' :: '=' :: ' ' ::
        (value.toList ++ sep :: ' ' :: '\x7d' :: chars))) (assignmentWords name value sep ++ texts) :=
  .bracket (by decide) (.space (.segment valid named (endsWord_space _) (.space (.equals valid
    (.segment valid valued (endsWord_separator valid _) (.stop valid (.space (.bracket (by decide) rest))))))))

private theorem spells_condition (valid : Config.isSeparator sep = true) (cond : IsSegment other)
    {chars : List Char} (rest : Spells sep chars texts) :
    Spells sep ("if".toList ++ ' ' :: '(' :: (other.toList ++ ')' :: ' ' :: chars))
      (["if", "(", other, ")"] ++ texts) :=
  .segment valid isSegment_keywords.1 (endsWord_space _) (.space (.bracket (by decide)
    (.segment valid cond (endsWord_bracket (by decide) _) (.bracket (by decide) rest.space))))

theorem toList_stop (sep : Char) : sep.toString.toList = [sep] :=
  String.toList_singleton sep

/-- The literals of a script are kept apart, since taking them apart is slow. -/
private theorem toList_pieces (first : String) (pieces : List String) :
    (pieces.foldl (· ++ ·) first).toList = first.toList ++ pieces.flatMap String.toList := by
  induction pieces generalizing first with
  | nil => exact (append_nil _).symm
  | cons piece pieces ih =>
    rw [foldl_cons, ih, String.toList_append, flatMap_cons, append_assoc]

theorem spells_pieces (first : String) (pieces : List String)
    (spells : Spells sep (first.toList ++ pieces.flatMap String.toList) texts) :
    Spells sep (pieces.foldl (· ++ ·) first).toList texts := by
  rw [toList_pieces]
  exact spells

section

variable (valid : Config.isSeparator sep = true) (named : IsSegment name)
include valid named

theorem spells_negation : Spells sep (negationScript name sep).toList (negationWords name sep) := by
  obtain ⟨_, isElse, isTrue, isFalse⟩ := isSegment_keywords
  have otherwise := Spells.segment valid isElse (endsWord_space _) (.space (spells_assignment valid named isTrue .nil))
  refine spells_pieces "if (" [name, ") \x7b ", name, " = false", sep.toString, " \x7d else \x7b ", name,
    " = true", sep.toString, " \x7d"] ?_
  simp only [flatMap_cons, flatMap_nil]
  rw [toList_stop sep]
  exact spells_condition valid named (spells_assignment valid named isFalse otherwise.space)

theorem spells_conjunction (valued : IsSegment other) : Spells sep (conjunctionScript name other sep).toList
      (conditionalWords name name other sep) := by
  refine spells_pieces "if (" [name, ") \x7b ", name, " = ", other, sep.toString, " \x7d"] ?_
  simp only [flatMap_cons, flatMap_nil]
  rw [toList_stop sep]
  exact spells_condition valid named (spells_assignment valid named valued .nil)

theorem spells_disjunction (cond : IsSegment other) :
    Spells sep (disjunctionScript name other sep).toList
      (conditionalWords other name "true" sep) := by
  refine spells_pieces "if (" [other, ") \x7b ", name, " = true", sep.toString, " \x7d"] ?_
  simp only [flatMap_cons, flatMap_nil]
  rw [toList_stop sep]
  exact spells_condition valid cond (spells_assignment valid named isSegment_keywords.2.2.1 .nil)

end

theorem tokenizeAt_of_spells {layout : Layout} {script : String} (spells : Spells layout.separator script.toList texts)
    (pos : Position) : layout.tokenizeAt script pos = .ok (texts.map (fun text => ⟨text, pos⟩)) := by
  obtain ⟨tokens, scanned, same⟩ := spells (Position.start layout.source)
  rw [Layout.tokenizeAt, Token.tokenizeAt, Token.tokenize, scanned, ← same, map_map]
  rfl

end Compile

end ScoreScript
