import ScoreScript.Proofs.Reading.Grammar
import ScoreScript.Proofs.Reading.Lexing

/-!
# Reading a text that goes on

More text on a new line leaves the words of a text as they are. Where they end with a separator, the
statements of the longer text start with those of the text. Only an `else` at the front of what
follows would belong to an `if` that was complete before.
-/

namespace ScoreScript

open List

/-! ## Words -/

namespace Token

variable {src : Nat} {separator : Char} {text before after : List Char} {tokens : List Token}

theorem Piece.goesOn {piece : List Char} (found : Piece src separator before piece after tokens)
    (more : List Char) : Piece src separator before piece (after ++ '\n' :: more) tokens := by
  have head {c : Char} (first : (after ++ '\n' :: more).head? = some c) : c = '\n' ∨ after.head? = some c := by
    cases after with
    | nil => exact .inl (Option.some.inj first).symm
    | cons d after => exact .inr first
  cases found with
  | blank isBlank => exact .blank isBlank
  | comment inLine ends => exact .comment inLine (fun c first => (head first).elim id (ends c))
  | literal closes => exact .literal closes
  | mark isMark notComment =>
    refine .mark isMark (fun comment => ?_)
    rcases head comment.2 with broken | first
    · cases broken
    · exact notComment ⟨comment.1, first⟩
  | run isRun ends =>
    refine .run isRun (fun c first => ?_)
    rcases head first with rfl | first
    · exact .inl (by decide)
    · exact ends c first
  | marked isRun isMark => exact .marked isRun isMark

theorem Cut.goesOn (cut : Cut src separator text tokens before after) (more : List Char) :
    Cut src separator (text ++ '\n' :: more) tokens before (after ++ '\n' :: more) := by
  induction cut with
  | start => exact .start
  | next _ found ih =>
    rw [append_assoc] at ih
    exact ih.next (found.goesOn more)

theorem scan_append {text : String} (tokenized : tokenize src separator text = .ok tokens) (more : List Char) :
    scan separator .between (.start src) (text.toList ++ '\n' :: more) = (tokens ++ ·) <$> scan separator .between
        ((Position.behind src text.toList).advance '\n') more := by
  rw [((cut_of_tokenize tokenized).goesOn more).scan, nil_append, scan, if_pos (by decide)]

def Ended (separator : Char) (tokens : List Token) : Prop :=
  ∀ last ∈ tokens.getLast?, last.isChar separator = true

theorem Ended.of_append {separator : Char} {front tokens : List Token}
    (ended : Ended separator (front ++ tokens)) : Ended separator tokens := by
  intro last isLast
  apply ended last
  rw [getLast?_append, isLast]
  rfl

end Token

/-! ## Statements -/

variable {layout : Layout} {tree : Tree} {trees : List Tree} {used rest tokens later : List Token}

theorem Tree.Collects.ends {separator : Char} (plain : Bracket.isBracket separator = false)
    {items : List Item} (collects : Collects separator tokens items) (ended : Token.Ended separator tokens) :
    ∀ last ∈ items.getLast?, last.isSeparator separator = true := by
  intro last isLast
  obtain ⟨front, rfl⟩ := getLast?_eq_some_iff.mp isLast
  obtain ⟨before, after, rfl, _, single⟩ := collects.split
  have isSeparator {token : Token} (isLast : after.getLast? = some token) :
      token.role separator = .separates separator := by
    apply role_separator plain
    exact ended.of_append token isLast
  cases single with
  | word role rest =>
    cases rest.nil_of_nil
    cases role.symm.trans (isSeparator rfl)
  | separator role rest =>
    cases rest.nil_of_nil
    exact ended.of_append _ rfl
  | group opens closes inner closed rest =>
    cases rest.nil_of_nil
    cases closes.symm.trans (isSeparator (by
      rw [← cons_append, getLast?_concat]))

theorem Written.append (plain : Bracket.isBracket layout.separator = false) {part : Tree.Part}
    (written : Written layout part used rest tree) (ended : Token.Ended layout.separator (used ++ rest))
    (notElse : ∀ token ∈ later.head?, token.text ≠ "else") : Written layout part used (rest ++ later) tree := by
  induction written with
  | @line first words used rest piece notIf other collects whole ends =>
    cases ends with
    | stop isSeparator => exact .line notIf other collects whole (.stop isSeparator)
    | finish =>
      -- No member of the line is a separator, so the line does not end with one.
      have nonempty : piece ≠ [] := by
        rintro rfl
        cases collects
      rw [append_nil] at ended
      have isSeparator := collects.ends plain ended (piece.getLast nonempty) (getLast?_eq_some_getLast nonempty)
      rw [whole _ (getLast_mem nonempty)] at isSeparator
      cases isSeparator
  | @single keyword test used rest cond body isIf grouped isCondition _ last ih =>
    have inner : Token.Ended layout.separator (keyword :: test ++ (used ++ rest)) := by simpa using ended
    refine .single isIf grouped isCondition (ih inner.of_append) ?_
    cases rest with
    | nil => exact notElse
    | cons => exact last
  | @double keyword word test used others rest cond body other isIf grouped isCondition _ isElse _
      ih ih' =>
    have inner : Token.Ended layout.separator
        (keyword :: test ++ (used ++ word :: (others ++ rest))) := by simpa using ended
    have outer : Token.Ended layout.separator (keyword :: test ++ used ++ [word] ++ (others ++ rest)) := by
      simpa using ended
    have first := ih inner.of_append
    rw [cons_append, append_assoc] at first
    exact .double isIf grouped isCondition first isElse (ih' outer.of_append)
  | braced grouped isBody => exact .braced grouped isBody
  | bare notBrace _ ih => exact .bare notBrace (ih ended)

open Reader in
/-- The statements of words that end with a separator are read before those of what follows. -/
theorem Reader.WrittenAll.run_append (plain : Bracket.isBracket layout.separator = false)
    (written : WrittenAll layout tokens trees) (ended : Token.Ended layout.separator tokens)
    (notElse : ∀ token ∈ later.head?, token.text ≠ "else") {reader : Reader} {bound : Nat}
    (same : reader.layout = layout) (isRest : reader.rest = tokens ++ later) (enough : tokens.length < bound) :
    ∃ left, (readStatementsUpTo bound).run.run reader = (do
        let others ← readStatementsUpTo left
        return trees ++ others : Read (List Tree)).run.run { reader with rest := later } := by
  induction written generalizing reader bound with
  | finish =>
    obtain ⟨_, _, _⟩ := reader
    cases isRest
    exact ⟨bound, by simp⟩
  | @skip token tokens trees isSeparator _ ih =>
    subst same
    cases bound with
    | zero => cases enough
    | succ bound =>
      rw [run_skip bound isRest isSeparator]
      exact @ih (@Token.Ended.of_append _ [token] _ ended) { reader with rest := tokens ++ later } _ rfl
        rfl (Nat.lt_of_succ_lt enough)
  | @next used rest tree trees first _ ih =>
    subst same
    cases bound with
    | zero => cases enough
    | succ bound =>
      have fewer : rest.length < bound := by
        obtain ⟨_, _, rfl, _⟩ := first.starts
        rw [length_append, length_cons] at enough
        omega
      obtain ⟨left, ran⟩ := @ih ended.of_append { reader with rest := rest ++ later } bound rfl rfl fewer
      refine ⟨left, ?_⟩
      rw [run_next plain (first.append plain ended notElse) (by rw [isRest, append_assoc]),
        Fault.run_bind, ran, ← Fault.run_bind]
      simp

theorem Layout.readStatements_append (plain : Bracket.isBracket layout.separator = false)
    {all : List Tree} (ended : Token.Ended layout.separator tokens)
    (notElse : ∀ first ∈ later.head?, first.text ≠ "else") (read : layout.readStatements tokens = .ok trees)
    (read' : layout.readStatements (tokens ++ later) = .ok all) : ∃ others, all = trees ++ others := by
  have written := (layout.readStatements_reads tokens).2 trees read
  obtain ⟨left, ran⟩ := @Reader.WrittenAll.run_append _ _ _ _ plain written ended notElse
    (Reader.start layout (tokens ++ later)) ((tokens ++ later).length + 1) rfl rfl
    (by rw [length_append]; omega)
  rw [readStatements, Reader.readStatements, Fault.run_bind_ok (Fault.run_get _)] at read'
  obtain ⟨others, _, _, result⟩ := Fault.of_run_bind (ran.symm.trans (Prod.ext read' rfl))
  cases result
  exact ⟨others, rfl⟩

end ScoreScript
