import ScoreScript.Proofs.RoundTrip

/-!
# Grouping and reading agree

A text can be turned into trees in two ways. Grouping matches all brackets in one pass and cuts the
members at the separators; reading looks for the end of each statement and groups its words alone.
Without the word `if` the grammar of statements takes exactly the pieces between separators, so
both ways succeed on the same texts and give the same trees, positions included.
-/

namespace ScoreScript

open List

namespace Tree

variable {separator : Char} {tokens : List Token} {items : List Item} {pieces : List (List Item)}

def NoIf (items : List Item) : Prop :=
  ∀ item ∈ items, item.toTree.isWord "if" = false

theorem NoIf.startWith (noIf : NoIf items) : Item.startWith "if" items = false := by
  cases items with
  | nil => rfl
  | cons item rest => exact noIf item (mem_cons_self ..)

theorem NoIf.tail {item : Item} (noIf : NoIf (item :: items)) : NoIf items :=
  (forall_mem_cons.mp noIf).2

theorem NoIf.of_append {front rest : List Item} (noIf : NoIf (front ++ rest)) : NoIf front ∧ NoIf rest :=
  ⟨fun item mem => noIf item (mem_append_left _ mem),
    fun item mem => noIf item (mem_append_right _ mem)⟩

theorem Stops.noIf {tail rest : List Item} (stops : Stops separator tail rest) (noIf : NoIf tail) : NoIf rest := by
  cases stops with
  | finish => exact noIf
  | stop _ => exact noIf.tail

theorem Collects.noIf (collects : Collects separator tokens items)
    (absent : ∀ token ∈ tokens, token.text ≠ "if") : NoIf items := by
  induction collects with
  | nil => exact forall_mem_nil _
  | word _ _ ih | separator _ _ ih =>
    obtain ⟨first, later⟩ := forall_mem_cons.mp absent
    refine forall_mem_cons.mpr ⟨?_, ih later⟩
    simp [Item.toTree, isWord, word?, first]
  | @group _ _ _ inside rest _ _ _ opens _ _ closed _ _ ih =>
    have later : ∀ token ∈ rest, token.text ≠ "if" := by
      intro token mem
      exact absent token (by simp [mem])
    obtain ⟨_, written⟩ := Token.text_of_opens opens
    obtain ⟨children, divider, rfl⟩ := close_bracket written closed
    exact forall_mem_cons.mpr ⟨rfl, ih later⟩

theorem TakesAll.eq_split (takes : TakesAll separator items pieces) (noIf : NoIf items) :
    pieces = nonempties (Item.split separator items) := by
  induction takes with
  | nil => rfl
  | @skip token rest pieces isSeparator _ ih =>
    rw [split_cons_separator (.separator token) isSeparator]
    exact ih noIf.tail
  | next first _ ih =>
    cases first with
    | line nonempty whole _ stops =>
      obtain ⟨pieces', isSplit, same⟩ := stops.split whole
      rw [isSplit, nonempties_cons nonempty, ← same, ← ih (stops.noIf noIf.of_append.2)]
    | single isIf | double isIf =>
      have starts := noIf.startWith
      rw [Reader.startWith_of_leaf isIf] at starts
      cases starts

theorem takesAll_split (noIf : NoIf items) : TakesAll separator items (nonempties (Item.split separator items)) := by
  -- the induction is on the pieces, since each of them but the last ends in one separator
  induction isSplit : Item.split separator items generalizing items with
  | nil =>
    obtain ⟨piece, pieces, isSplit'⟩ := exists_split separator items
    rw [isSplit'] at isSplit
    cases isSplit
  | cons piece pieces ih =>
    obtain ⟨whole, ends⟩ := split_eq_cons isSplit
    have line {tail rest : List Item} (nonempty : piece ≠ []) (isItems : items = piece ++ tail)
        (stops : Stops separator tail rest)
        (later : TakesAll separator rest (nonempties pieces)) :
        TakesAll separator items (nonempties (piece :: pieces)) := by
      subst isItems
      rw [nonempties_cons nonempty]
      exact .next (.line nonempty whole noIf.of_append.1.startWith stops) later
    rcases ends with ⟨rfl, rfl⟩ | ⟨token, rest, isItems, isSeparator, isRest⟩
    · cases items with
      | nil => exact .nil
      | cons item rest =>
        exact line (cons_ne_nil _ _) (append_nil _).symm .finish .nil
    · have later := ih (isItems ▸ noIf).of_append.2.tail isRest
      cases piece with
      | nil =>
        subst isItems
        exact .skip isSeparator later
      | cons item front => exact line (cons_ne_nil _ _) isItems (.stop isSeparator) later

end Tree

namespace Layout

private theorem group_eq_ok_iff {layout : Layout} (plain : Bracket.isBracket layout.separator = false)
    {tokens : List Token} (absent : ∀ token ∈ tokens, token.text ≠ "if") (trees : List Tree) :
    layout.group tokens = .ok trees ↔ layout.readStatements tokens = .ok trees := by
  constructor
  · intro grouped
    obtain ⟨items, collected, _⟩ := Fault.of_bind grouped
    have collects := Tree.collect_eq_ok_iff.mp collected
    rw [group_eq collects] at grouped
    cases grouped
    exact (readStatements_eq_ok_iff plain).mpr ⟨items, _, collects, Tree.takesAll_split (collects.noIf absent), rfl⟩
  · intro read
    obtain ⟨items, pieces, collects, takes, rfl⟩ := (readStatements_eq_ok_iff plain).mp read
    rw [group_eq collects, takes.eq_split (collects.noIf absent)]

/-- On a text without the word `if`, grouping and reading both fail, or both succeed with the same
trees. -/
theorem parse_eq_ok_iff {layout : Layout} (valid : Config.isSeparator layout.separator = true) {text : String}
    (absent : ∀ tokens, layout.tokenize text = .ok tokens → ∀ token ∈ tokens, token.text ≠ "if")
    (trees : List Tree) : layout.parse text = .ok trees ↔ layout.parseStatements text = .ok trees := by
  have plain : Bracket.isBracket layout.separator = false := by
    simp only [Config.isSeparator, Bool.not_eq_true', Bool.or_eq_false_iff] at valid
    exact valid.1.1.1.2
  rw [parse, parseStatements]
  cases tokenized : layout.tokenize text with
  | error fault => constructor <;> rintro ⟨⟩
  | ok tokens => exact group_eq_ok_iff plain (absent tokens tokenized) trees

/-- Empty statements, separators inside brackets, and an `if` that is only part of a literal and
of a comment. -/
theorem parse_eq_ok_iff_nested :
    let layout : Layout := { separator := '#' }
    let text := "#a \x7b b# ## c(d, [e#]) # \x7d# ## \"if\" f # // if\n g"
    (∀ tokens, layout.tokenize text = .ok tokens → ∀ token ∈ tokens, token.text ≠ "if") ∧
      ∃ trees, layout.parse text = .ok trees ∧ layout.parseStatements text = .ok trees := by
  intro layout text
  have absent : ∀ tokens, layout.tokenize text = .ok tokens → ∀ token ∈ tokens, token.text ≠ "if" := by
    intro tokens tokenized
    have free : (layout.tokenize text).toOption.all (·.all (·.text != "if")) = true := by
      decide +kernel
    rw [tokenized] at free
    simpa [Except.toOption] using free
  have reads : (layout.parse text).toOption.isSome = true := by decide +kernel
  refine ⟨absent, ?_⟩
  cases read : layout.parse text with
  | error fault =>
    rw [read] at reads
    cases reads
  | ok trees => exact ⟨trees, rfl, (parse_eq_ok_iff (by decide) absent trees).mp read⟩

end Layout

end ScoreScript
