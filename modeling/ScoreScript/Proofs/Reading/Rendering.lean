import ScoreScript.Proofs.Reading.Lexemes
import ScoreScript.Proofs.Reading.Pieces

/-!
# Trees as text

The text of a tree is read as the words of the tree. What stands between two words of the text
keeps them apart, and nothing in it looks like a comment.
-/

namespace ScoreScript

open List

open Token

structure Marks (separator : Char) : Prop where
  notBlank : Text.isBlank separator = false
  notQuote : separator ≠ '"'
  plain : Bracket.isBracket separator = false

namespace Tree

open Token (EndsWord Spells Lexeme)

def spelling (tree : Tree) : List Char :=
  tree.render.toList

/-- The text of the tree is read as its words, where something follows that ends a word. -/
structure Spelled (separator : Char) (tree : Tree) : Prop where
  starts : ∃ c rest, tree.spelling = c :: rest ∧ c ≠ separator
  spells : ∀ {chars : List Char} {texts : List String}, EndsWord separator chars → Spells separator chars texts →
    Spells separator (tree.spelling ++ chars) (tree.words ++ texts)

section

variable {separator : Char}

private theorem spelled_leaf (notQuote : separator ≠ '"') {token : Token} (lexeme : Lexeme separator token.text)
    (other : token.isChar separator = false) : Spelled separator (leaf token) := by
  have notSeparator : token.text ≠ String.ofList [separator] := by
    intro same
    rw [isChar_of_text same] at other
    cases other
  refine ⟨?_, ?_⟩
  · rw [spelling, render]
    exact lexeme.starts notQuote notSeparator
  · intro chars texts ends rest
    rw [spelling, render, words]
    exact lexeme.spells notSeparator ends rest

/-! ## Brackets -/

private theorem isPunctuation_bracket {c : Char} (isBracket : Bracket.isBracket c = true) :
    isPunctuation separator c = true := by
  simp [isPunctuation, isBracket]

theorem endsWord_closing (bracket : Bracket) (chars : List Char) : EndsWord separator (bracket.closing :: chars) := by
  cases bracket with
  | line => exact endsWord_space chars
  | paren | brace | square =>
    exact endsWord_punctuation (by decide) (by decide) (by decide)
      (isPunctuation_bracket (by decide)) chars

private theorem closing_ne (marks : Marks separator) (bracket : Bracket) : bracket.closing ≠ separator := by
  rintro rfl
  cases bracket with
  | line => exact absurd marks.notBlank (by decide)
  | paren | brace | square => exact absurd marks.plain (by decide)

private theorem opening_ne (marks : Marks separator) (bracket : Bracket) : bracket.opening ≠ separator := by
  rintro rfl
  cases bracket with
  | line => exact absurd marks.notBlank (by decide)
  | paren | brace | square => exact absurd marks.plain (by decide)

def bracketWords (bracket : Bracket) (c : Char) : List String :=
  if bracket.isWritten then [String.ofList [c]] else []

theorem words_eq (children : List Tree) (bracket : Bracket) (divider : Divider) (pos : Position) :
    (group children bracket divider pos).words = bracketWords bracket bracket.opening ++
      (joinWords divider (children.map words) ++ bracketWords bracket bracket.closing) := by
  rw [words, wordsList_eq, bracketWords, bracketWords]
  cases bracket <;> simp [Bracket.isWritten]

theorem spells_opening (bracket : Bracket) {chars : List Char} {texts : List String}
    (rest : Spells separator chars texts) : Spells separator (bracket.opening :: chars)
      (bracketWords bracket bracket.opening ++ texts) := by
  cases bracket with
  | line => exact rest.space
  | paren | brace | square =>
    exact .punctuation (endsWord_punctuation (by decide) (by decide) (by decide)
      (isPunctuation_bracket (by decide)) chars) (by decide) rest

private theorem spells_closing (bracket : Bracket) {chars : List Char} {texts : List String}
    (rest : Spells separator chars texts) : Spells separator (bracket.closing :: chars)
      (bracketWords bracket bracket.closing ++ texts) := by
  cases bracket with
  | line => exact rest.space
  | paren | brace | square =>
    exact .punctuation (endsWord_closing _ chars) (by decide) rest

/-! ## Members -/

variable {c : Char} {children : List Tree} {chars : List Char} {texts : List String}

private theorem endsWord_divider (marks : Marks separator) (divides : c = separator ∨ c = ',')
    (goesOn : ∃ d rest, chars = d :: rest ∧ d ≠ separator) :
    EndsWord separator (c :: chars) ∧ Text.isBlank c = false := by
  rcases divides with rfl | rfl
  · refine ⟨?_, marks.notBlank⟩
    rintro _ _ ⟨⟩
    refine .inr ⟨marks.notBlank, ?_, marks.notQuote, by simp [isPunctuation]⟩
    obtain ⟨d, rest, rfl, other⟩ := goesOn
    rintro ⟨rfl, second⟩
    cases second
    exact other rfl
  · exact ⟨endsWord_punctuation (by decide) (by decide) (by decide)
      (by simp [isPunctuation]) chars, by decide⟩

private theorem intercalate_map {α β : Type} (stop : List α) (f : β → List α) (x y : β) (others : List β) :
    stop.intercalate ((x :: y :: others).map f) = f x ++ (stop ++ stop.intercalate ((y :: others).map f)) := by
  simp [intercalate_cons_cons]

theorem starts_divided (c : Char) {child : Tree} (spelled : Spelled separator child)
    (children : List Tree) (chars : List Char) :
    ∃ d rest, [c].intercalate ((child :: children).map spelling) ++ chars = d :: rest ∧ d ≠ separator := by
  obtain ⟨d, front, starts, other⟩ := spelled.starts
  cases children with
  | nil => exact ⟨d, front ++ chars, by simp [starts], other⟩
  | cons second others =>
    refine ⟨d, front ++ ([c] ++ [c].intercalate ((second :: others).map spelling)) ++ chars, ?_, other⟩
    rw [intercalate_map, starts]
    rfl

theorem spells_divided (marks : Marks separator) (divides : c = separator ∨ c = ',')
    (all : ∀ child ∈ children, Spelled separator child) (ends : EndsWord separator chars)
    (rest : Spells separator chars texts) : Spells separator ([c].intercalate (children.map spelling) ++ chars)
      ([String.ofList [c]].intercalate (children.map words) ++ texts) := by
  induction children with
  | nil => exact rest
  | cons child children ih =>
    obtain ⟨first, later⟩ := forall_mem_cons.mp all
    cases children with
    | nil =>
      simp only [map_cons, map_nil, intercalate_singleton]
      exact first.spells ends rest
    | cons second others =>
      have joined := ih later
      obtain ⟨ends, notBlank⟩ := endsWord_divider marks divides
        (starts_divided c (later second (mem_cons_self ..)) others chars)
      rw [intercalate_map, intercalate_map]
      simp only [append_assoc]
      exact first.spells ends (.punctuation ends notBlank joined)

private theorem spells_spaced (all : ∀ child ∈ children, Spelled separator child)
    (ends : EndsWord separator chars) (rest : Spells separator chars texts) :
    Spells separator ([' '].intercalate (children.map spelling) ++ chars) ((children.map words).flatten ++ texts) := by
  induction children with
  | nil => exact rest
  | cons child children ih =>
    obtain ⟨first, later⟩ := forall_mem_cons.mp all
    have joined := ih later
    cases children with
    | nil =>
      simp only [map_cons, map_nil, intercalate_singleton, flatten_cons,
        flatten_nil, append_nil]
      exact first.spells ends rest
    | cons second others =>
      have flat : ((child :: second :: others).map words).flatten =
          child.words ++ ((second :: others).map words).flatten := rfl
      rw [intercalate_map, flat]
      simp only [append_assoc]
      exact first.spells (endsWord_space _) joined.space

def joinChars : Divider → List (List Char) → List Char
  | .space, members => [' '].intercalate members
  | .comma, members => [','].intercalate members
  | .statement c, [] => [c]
  | .statement c, members => [c].intercalate members ++ [c]

theorem renderList_eq (trees : List Tree) : renderList trees = trees.map render := by
  induction trees with
  | nil => rfl
  | cons tree trees ih => rw [renderList, ih, map_cons]

theorem toList_render_group (children : List Tree) (bracket : Bracket) (divider : Divider) (pos : Position) :
    (group children bracket divider pos).spelling =
      bracket.opening :: (joinChars divider (children.map spelling) ++ [bracket.closing]) := by
  have same : (children.map render).map String.toList = children.map spelling := by
    rw [map_map]
    rfl
  rw [spelling, render, renderList_eq]
  cases divider with
  | space | comma =>
    simp [renderGroup, joinChars, Divider.char, String.toList_intercalate, same]
  | statement c =>
    cases children with
    | nil => simp [renderGroup, joinChars, Divider.char]
    | cons child children =>
      have isJoined : joinChars (.statement c) ((child :: children).map spelling) =
          [c].intercalate ((child :: children).map spelling) ++ [c] := rfl
      rw [isJoined, ← same]
      simp [renderGroup, Divider.char, String.toList_intercalate]

theorem intercalate_append {α : Type} (stop : List α) {members : List (List α)} (nonempty : members ≠ []) :
    stop.intercalate members ++ stop = members.flatMap (fun mem => mem ++ stop) := by
  induction members with
  | nil => exact absurd rfl nonempty
  | cons mem members ih =>
    cases members with
    | nil => simp
    | cons second members =>
      rw [flatMap_cons, ← ih (cons_ne_nil _ _), intercalate_cons_cons, append_assoc]

variable {divider : Divider}

section

variable {divider : Divider} (marks : Marks separator)
  (isSeparator : ∀ c, divider = .statement c → c = separator)
  (all : ∀ child ∈ children, Spelled separator child)
include marks isSeparator all

private theorem spells_joined (ends : EndsWord separator chars) (goesOn : ∃ d rest, chars = d :: rest ∧ d ≠ separator)
    (rest : Spells separator chars texts) : Spells separator
      (joinChars divider (children.map spelling) ++ chars) (joinWords divider (children.map words) ++ texts) := by
  cases divider with
  | space => exact spells_spaced all ends rest
  | comma => exact spells_divided marks (.inr rfl) all ends rest
  | statement c =>
    cases isSeparator c rfl
    obtain ⟨ends', notBlank⟩ := endsWord_divider marks (.inl rfl) goesOn
    have stopped : Spells separator (separator :: chars)
        (String.ofList [separator] :: texts) := .punctuation ends' notBlank rest
    cases children with
    | nil => exact stopped
    | cons child children =>
      have joined := spells_divided marks (.inl rfl) all ends' stopped
      have isJoined : joinChars (.statement separator) ((child :: children).map spelling) =
          [separator].intercalate ((child :: children).map spelling) ++ [separator] := rfl
      have isJoined' : joinWords (.statement separator) ((child :: children).map words) =
          [String.ofList [separator]].intercalate ((child :: children).map words) ++ [String.ofList [separator]] :=
        (intercalate_append _ (cons_ne_nil _ _)).symm
      rw [isJoined, isJoined', append_assoc, append_assoc]
      exact joined

private theorem spelled_group (bracket : Bracket) (pos : Position) :
    Spelled separator (group children bracket divider pos) := by
  refine ⟨⟨_, _, toList_render_group .., opening_ne marks bracket⟩, ?_⟩
  intro chars texts _ rest
  rw [toList_render_group, words_eq]
  simp only [cons_append, append_assoc, nil_append]
  exact spells_opening bracket (spells_joined marks isSeparator all (endsWord_closing bracket chars)
    ⟨_, _, rfl, closing_ne marks bracket⟩ (spells_closing bracket rest))

/-! ## Trees that were grouped -/

theorem spelled_ofChildren (bracket : Bracket) (pos : Position) :
    Spelled separator (ofChildren children bracket divider pos) := by
  rcases ofChildren_cases children bracket divider pos with
    ⟨token, _, _, rfl, isLeaf⟩ | ⟨_, place, isGroup⟩
  · rw [isLeaf]
    exact all _ (mem_singleton_self _)
  · rw [isGroup]
    exact spelled_group marks isSeparator all bracket place

end

theorem spelled_ofPiece (marks : Marks separator) {piece : List Item}
    (all : ∀ item ∈ piece, Spelled separator item.toTree) (pos : Position) :
    Spelled separator (ofPiece pos piece) :=
  spelled_ofChildren marks (by rintro _ ⟨⟩) (by simpa using all) _ _

def AllSpelled (separator : Char) (items : List Item) : Prop :=
  ∀ item ∈ items, item.isSeparator separator = false → Spelled separator item.toTree

variable {items : List Item}

private theorem spelled_ofPieces (marks : Marks separator) (all : AllSpelled separator items) (c : Char)
    (whole : ∀ piece ∈ Item.split c items, ∀ item ∈ piece, item.isSeparator separator = false) (pos : Position) :
    ∀ piece ∈ Item.split c items, Spelled separator (ofPiece pos piece) := by
  intro piece mem
  refine spelled_ofPiece marks (fun item inside => ?_) pos
  exact all item (split_whole c items piece mem item inside).1 (whole piece mem item inside)

private theorem spelled_close (marks : Marks separator) (all : AllSpelled separator items)
    {bracket : Bracket} {pos : Position} {tree : Tree}
    (closed : close separator bracket pos items = .ok tree) : Spelled separator tree := by
  unfold close at closed
  split at closed
  · cases closed
    refine spelled_ofChildren marks (by rintro _ ⟨⟩; rfl) ?_ _ _
    rw [forall_mem_map]
    intro piece mem
    exact spelled_ofPieces marks all separator
      (fun piece mem item inside => (split_whole separator items piece mem item inside).2)
      pos piece (mem_nonempties.mp mem).1
  · next whole =>
      have whole : ∀ item ∈ items, item.isSeparator separator = false := by
        simpa using whole
      split at closed
      · dsimp only at closed
        split at closed
        · cases closed
        · cases closed
          refine spelled_ofChildren marks (by rintro _ ⟨⟩) ?_ _ _
          rw [forall_mem_map]
          exact spelled_ofPieces marks all ',' (fun piece mem item inside =>
            whole item (split_whole ',' items piece mem item inside).1) pos
      · cases closed
        refine spelled_ofChildren marks (by rintro _ ⟨⟩) ?_ _ _
        rw [forall_mem_map]
        exact fun item mem => all item mem (whole item mem)

theorem Collects.spelled (marks : Marks separator) {tokens : List Token} (collects : Collects separator tokens items)
    (lexemes : ∀ token ∈ tokens, Lexeme separator token.text) : AllSpelled separator items := by
  induction collects with
  | nil => exact forall_mem_nil _
  | word role _ ih =>
    obtain ⟨first, later⟩ := forall_mem_cons.mp lexemes
    refine forall_mem_cons.mpr ⟨fun _ => spelled_leaf marks.notQuote first ?_, ih later⟩
    refine Bool.eq_false_iff.mpr (fun isSeparator => ?_)
    rw [role_separator marks.plain isSeparator] at role
    cases role
  | separator _ _ ih =>
    obtain ⟨first, later⟩ := forall_mem_cons.mp lexemes
    exact forall_mem_cons.mpr ⟨fun other => spelled_leaf marks.notQuote first other, ih later⟩
  | group _ _ _ closed _ insideIH restIH =>
    obtain ⟨_, later⟩ := forall_mem_cons.mp lexemes
    obtain ⟨inner, later⟩ := forall_mem_append.mp later
    exact forall_mem_cons.mpr ⟨fun _ => spelled_close marks (insideIH inner) closed,
      restIH (forall_mem_cons.mp later).2⟩

end

end Tree

end ScoreScript
