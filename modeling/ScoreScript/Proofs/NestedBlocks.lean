import ScoreScript.Proofs.Compile.Statements
import ScoreScript.Proofs.Reading.Pieces

/-!
# Statements inside a block

The words of a block are grouped, and taken apart again before its statements are read. Statements
inside a block are read like the same words outside all brackets, but for two losses: a group that
holds separators and nothing else comes back empty, and an empty statement does not come back.
-/

namespace ScoreScript

open List

open Tree Token

variable {bracket : Bracket} {divider : Divider} {children : List Tree} {pos : Position}

namespace Tree

mutual

def isSolid : Tree → Bool
  | leaf _ => true
  | group [] _ (.statement _) _ => false
  | group children _ _ _ => areSolid children

def areSolid : List Tree → Bool
  | [] => true
  | tree :: trees => tree.isSolid && areSolid trees

end

def isSolidInside : Tree → Bool
  | leaf _ => true
  | group children _ _ _ => areSolid children

private theorem areSolid_of_isSolid (solid : (group children bracket divider pos).isSolid = true) :
    areSolid children = true := by
  cases children with
  | nil => rfl
  | cons tree trees => simpa [isSolid] using solid

private theorem joins_of_isSolid (solid : (group children bracket divider pos).isSolid = true) :
    children ≠ [] ∨ ∀ c, divider ≠ .statement c := by
  cases children with
  | nil =>
    refine .inr ?_
    rintro c rfl
    simp [isSolid] at solid
  | cons tree trees => exact .inl (cons_ne_nil _ _)

mutual

theorem map_text_tokens {tree : Tree} (solid : tree.isSolid = true) : tree.tokens.map Token.text = tree.words := by
  match tree with
  | leaf token => rw [tokens, words]; rfl
  | group children bracket divider pos =>
    have inner :=
      map_text_innerTokens (areSolid_of_isSolid solid) (joins_of_isSolid solid) pos
    rw [tokens, words, wordsList_eq]
    split
    · simp [inner, ofChar]
    · exact inner

private theorem map_text_innerTokens {trees : List Tree} (solid : areSolid trees = true) {divider : Divider}
    (joins : trees ≠ [] ∨ ∀ c, divider ≠ .statement c) (pos : Position) :
    (innerTokens divider pos trees).map Token.text = joinWords divider (trees.map words) := by
  match trees with
  | [] =>
    cases divider with
    | space | comma => rfl
    | statement c => exact (joins.elim (absurd rfl) (fun other => absurd rfl (other c)))
  | [tree] =>
    rw [areSolid, Bool.and_eq_true] at solid
    have first := map_text_tokens solid.1
    cases divider <;> simp [innerTokens, joinWords, first, ofChar]
  | tree :: second :: rest =>
    rw [areSolid, Bool.and_eq_true] at solid
    have first := map_text_tokens solid.1
    have later := @map_text_innerTokens _ solid.2 divider (.inl (cons_ne_nil _ _)) pos
    cases divider <;>
      · rw [innerTokens]
        simp only [joinWords, map_append, map_cons, first, later]
        simp [ofChar]

end

private theorem strandsElse_terminate {sep : Char} (stop : Item) {pieces : List (List Item)}
    (nonempty : ∀ piece ∈ pieces, piece ≠ [])
    (whole : ∀ piece ∈ pieces, ∀ item ∈ piece, item.isSeparator sep = false) :
    Item.strandsElse sep (terminate stop pieces) = false := by
  induction pieces with
  | nil => rfl
  | cons piece pieces ih =>
    obtain ⟨_, nonempty⟩ := forall_mem_cons.mp nonempty
    obtain ⟨wholePiece, whole⟩ := forall_mem_cons.mp whole
    rw [terminate, flatMap_cons, append_assoc, strandsElse_append wholePiece,
      singleton_append, strandsElse_stop]
    · exact ih nonempty whole
    · cases pieces with
      | nil => simp
      | cons second pieces =>
        cases second with
        | nil => exact absurd rfl (nonempty [] (mem_cons_self ..))
        | cons item second =>
          rintro _ ⟨⟩
          exact whole _ (mem_cons_self ..) item (mem_cons_self ..)

private theorem exists_inner {sep : Char} (written : bracket.isWritten = true) {items : List Item} {place : Position}
    (closed : close sep bracket pos items = .ok (group children bracket divider place))
    (solid : areSolid children = true) (free : Item.strandsElse sep items = false) :
    ∃ inner, (innerTokens divider place children).map Token.text = inner.flatMap Item.words ∧
      nonempties (Item.split sep inner) = nonempties (Item.split sep items) ∧
      Item.strandsElse sep inner = false ∧
      ∀ item ∈ inner, item ∈ items ∨ item = .separator (.ofChar sep pos) := by
  by_cases divided : items.any (Item.isSeparator sep) = true
  · rw [close, if_pos divided] at closed
    dsimp only at closed
    rw [ofChildren_written written] at closed
    cases closed
    have whole : ∀ piece ∈ nonempties (Item.split sep items), ∀ item ∈ piece,
        item ∈ items ∧ item.isSeparator sep = false := fun piece mem =>
      split_whole sep items piece (mem_nonempties.mp mem).1
    let stop : Item := .separator (.ofChar sep pos)
    have isStop : stop.isSeparator sep = true :=
      isChar_of_text (show (ofChar sep pos).text = _ from rfl)
    refine ⟨terminate stop (nonempties (Item.split sep items)), ?texts,
      nonempties_split_terminate isStop items, ?free, ?stem⟩
    case texts =>
      change (innerTokens _ _ ((nonempties (Item.split sep items)).map _)).map _ = _
      change areSolid ((nonempties (Item.split sep items)).map _) = true at solid
      cases pieces : nonempties (Item.split sep items) with
      | nil => rfl
      | cons first rest =>
        rw [pieces] at solid
        rw [map_text_innerTokens solid (.inl (cons_ne_nil _ _)),
          words_statementMembers (.ofChar sep pos) rfl, statementMembers,
          if_neg (by simp)]
    case free =>
      exact strandsElse_terminate stop (fun piece mem => (mem_nonempties.mp mem).2)
        (fun piece mem item inside => (whole piece mem item inside).2)
    case stem =>
      intro item mem
      refine (mem_terminate mem).imp_left ?_
      rintro ⟨piece, isPiece, inside⟩
      exact (whole piece isPiece item inside).1
  · refine ⟨items, ?_, rfl, free, fun item mem => .inl mem⟩
    rw [close, if_neg divided] at closed
    split at closed
    · dsimp only at closed
      split at closed
      · cases closed
      · rw [ofChildren_written written] at closed
        cases closed
        rw [map_text_innerTokens solid (.inr (by rintro _ ⟨⟩)), join_arguments]
    · rw [ofChildren_written written] at closed
      cases closed
      rw [map_text_innerTokens solid (.inr (by rintro _ ⟨⟩)), joinWords, map_map,
        ← flatMap_def]
      rfl

end Tree

namespace Layout

/-- Both lists were read, into statements of the same shapes, or neither. -/
def SameStatements : Except Fault (List Tree) → Except Fault (List Tree) → Prop
  | .ok trees, .ok others => sameShapes trees others = true
  | .error _, .error _ => True
  | .ok _, .error _ => False
  | .error _, .ok _ => False

instance (first second : Except Fault (List Tree)) : Decidable (SameStatements first second) :=
  match first, second with
  | .ok trees, .ok others => inferInstanceAs (Decidable (sameShapes trees others = true))
  | .error _, .error _ => isTrue trivial
  | .ok _, .error _ => isFalse id
  | .error _, .ok _ => isFalse id

private theorem readStatements_alike {layout : Layout} (plain : Bracket.isBracket layout.separator = false)
    {tokens others : List Token} {items items' : List Tree.Item}
    (collects : Tree.Collects layout.separator tokens items) (collects' : Tree.Collects layout.separator others items')
    (agree : Tree.Agree layout.separator items items') (free : Tree.Item.strandsElse layout.separator items = false)
    (free' : Tree.Item.strandsElse layout.separator items' = false) :
    SameStatements (layout.readStatements tokens) (layout.readStatements others) := by
  have there : ∀ {tokens others : List Token} {items items' : List Tree.Item},
      Tree.Collects layout.separator tokens items →
      Tree.Collects layout.separator others items' →
      Tree.Agree layout.separator items items' →
      Tree.Item.strandsElse layout.separator items = false →
      Tree.Item.strandsElse layout.separator items' = false →
      ∀ trees, layout.readStatements tokens = .ok trees → ∃ trees', layout.readStatements others = .ok trees' ∧
          sameShapes trees trees' = true := by
    intro tokens others items items' collects collects' agree free free' trees read
    obtain ⟨found, pieces, collected, takes, rfl⟩ := (readStatements_eq_ok_iff plain).mp read
    have same : found = items := by
      have isFound := Tree.collect_eq_ok_iff.mpr collected
      rw [Tree.collect_eq_ok_iff.mpr collects] at isFound
      exact (Except.ok.inj isFound).symm
    subst same
    obtain ⟨pieces', takes', samePieces⟩ := takes.alike agree free free'
    exact ⟨_, (readStatements_eq_ok_iff plain).mpr ⟨_, _, collects', takes', rfl⟩, ofStatements_sameShape samePieces⟩
  cases read : layout.readStatements tokens with
  | ok trees =>
    obtain ⟨trees', read', same⟩ := there collects collects' agree free free' trees read
    rw [read']
    exact same
  | error fault =>
    cases read' : layout.readStatements others with
    | ok trees' =>
      obtain ⟨trees, impossible, _⟩ :=
        there collects' collects agree.symm free' free trees' read'
      rw [read] at impossible
      cases impossible
    | error fault' => trivial

private theorem collects_of_body {layout : Layout} {opening closing : Token} {body : List Token} {tree : Tree}
    (isGroup : tree.bracket? = some bracket) (grouped : layout.block (opening :: (body ++ [closing])) = .ok tree) :
    ∃ items, Tree.Collects layout.separator body items ∧
      Tree.close layout.separator bracket opening.position items = .ok tree := by
  obtain ⟨_, inside, _, rest, items, tokens, _, _, collects, closed, later⟩ :=
    (block_eq_ok_iff.mp grouped).1.of_group isGroup
  cases later
  obtain ⟨rfl, ends⟩ := cons.inj tokens
  obtain ⟨rfl, _⟩ := append_inj' ends rfl
  exact ⟨items, collects, closed⟩

/-- Whether an `else` outside all brackets stands behind an empty statement. -/
def strandsElse (layout : Layout) (tokens : List Token) : Bool :=
  match collect layout.separator tokens with
  | .ok items => Tree.Item.strandsElse layout.separator items
  | .error _ => false

/-- The statements of a block are read like the same words outside all brackets, as long as none of
its groups is empty but for separators, and no `else` in it stands behind an empty statement. -/
theorem readStatements_bodyTokens {layout : Layout} (plain : Bracket.isBracket layout.separator = false)
    {opening closing : Token} {body : List Token} {tree : Tree} (opens : opening.isChar Bracket.brace.opening = true)
    (grouped : layout.block (opening :: (body ++ [closing])) = .ok tree) (solid : tree.isSolidInside = true)
    (free : layout.strandsElse body = false) :
    SameStatements (layout.readStatements (Engine.bodyTokens tree)) (layout.readStatements body) := by
  have isBrace : tree.bracket? = some .brace := by
    obtain ⟨_, _, ⟨⟩, leads⟩ := (block_eq_ok_iff.mp grouped).1.leads plain
    exact eq_of_beq ((leads.opens .brace rfl).trans opens)
  obtain ⟨items, collects, closed⟩ := collects_of_body isBrace grouped
  obtain ⟨children, divider, rfl⟩ := close_bracket rfl closed
  rw [strandsElse, Tree.collect_eq_ok_iff.mpr collects] at free
  obtain ⟨inner, texts, samePieces, innerFree, stem⟩ := Tree.exists_inner rfl closed solid free
  have regroups : ∀ item ∈ inner, Tree.Regroups layout.separator item := by
    intro item mem
    rcases stem item mem with old | rfl
    · exact collects.regroups plain item old
    · exact regroups_separator (role_separator plain (isChar_of_text rfl))
  obtain ⟨others, collects', same⟩ := regroups_all regroups texts
  rw [bodyTokens_group]
  refine readStatements_alike plain collects' collects ?_ ?_ free
  · have agree := (@agree_of_same layout.separator _ _ same).symm
    rw [Tree.Agree, samePieces] at agree
    exact agree
  · rw [← strandsElse_same same, innerFree]

def ofTexts (texts : List String) : List Token :=
  texts.map (fun text => ⟨text, default⟩)

def inBraces (body : List Token) : List Token :=
  ⟨"\x7b", default⟩ :: (body ++ [⟨"\x7d", default⟩])

/-- An `if` with a bare body and a body in braces, with empty statements in it and after it. -/
theorem readStatements_bodyTokens_if :
    let body := ofTexts ["if", "(", "c", ")", "x", ";", "else", "\x7b", ";", "y", ";", ";", "\x7d",
      ";", ";", "z", ",", "w"]
    ∃ tree, ({} : Layout).block (inBraces body) = .ok tree ∧
      SameStatements (({} : Layout).readStatements (Engine.bodyTokens tree))
        (({} : Layout).readStatements body) := by
  intro body
  have computed : (match ({} : Layout).block (inBraces body) with
      | .ok tree => tree.isSolidInside
      | .error _ => false) = true := by decide +kernel
  cases grouped : ({} : Layout).block (inBraces body) with
  | error fault =>
    rw [grouped] at computed
    cases computed
  | ok tree =>
    rw [grouped] at computed
    exact ⟨tree, rfl, readStatements_bodyTokens (by decide) (by decide) grouped computed
      (by decide +kernel)⟩

/-- Whether the block around a body has a property, and its statements are read otherwise than the
body. -/
def loses (layout : Layout) (body : List Token) (holds : Tree → Bool) : Bool :=
  match layout.block (inBraces body) with
  | .ok tree => holds tree &&
      !decide (SameStatements (layout.readStatements (Engine.bodyTokens tree)) (layout.readStatements body))
  | .error _ => false

private theorem exists_of_loses {layout : Layout} {body : List Token} {holds : Tree → Bool}
    (loses : layout.loses body holds = true) : ∃ tree, layout.block (inBraces body) = .ok tree ∧ holds tree = true ∧
      ¬ SameStatements (layout.readStatements (Engine.bodyTokens tree)) (layout.readStatements body) := by
  unfold Layout.loses at loses
  split at loses
  · next tree grouped =>
      rw [Bool.and_eq_true, Bool.not_eq_true', decide_eq_false_iff_not] at loses
      exact ⟨tree, grouped, loses⟩
  · cases loses

/-- Neither condition can be left out: a group that holds a separator and nothing else is read
otherwise in a block, and so is an `else` behind an empty statement. -/
theorem bodyTokens_lossy : (∃ body tree, ({} : Layout).block (inBraces body) = .ok tree ∧
      ({} : Layout).strandsElse body = false ∧ ¬ SameStatements (({} : Layout).readStatements (Engine.bodyTokens tree))
        (({} : Layout).readStatements body)) ∧ ∃ body tree, ({} : Layout).block (inBraces body) = .ok tree ∧
      tree.isSolidInside = true ∧ ¬ SameStatements (({} : Layout).readStatements (Engine.bodyTokens tree))
        (({} : Layout).readStatements body) := by
  refine ⟨⟨ofTexts ["f", "(", ";", ")"], ?_⟩, ⟨ofTexts ["if", "(", "c", ")", "x", ";", ";", "else", "y"], ?_⟩⟩
  · obtain ⟨tree, grouped, _, differs⟩ :=
      @exists_of_loses {} (ofTexts ["f", "(", ";", ")"]) (fun _ => true) (by decide +kernel)
    exact ⟨tree, grouped, by decide +kernel, differs⟩
  · exact exists_of_loses (by decide +kernel)

/-! ## Whole blocks -/

/-- The words that a block is taken apart into are grouped into a block of the same shape, as long as
none of its groups is empty but for separators. -/
theorem block_tokens {layout : Layout} (plain : Bracket.isBracket layout.separator = false)
    {tokens : List Token} {tree : Tree} (grouped : layout.block tokens = .ok tree) (solid : tree.isSolid = true) :
    ∃ other, layout.block tree.tokens = .ok other ∧ tree.sameShape other = true := by
  obtain ⟨collects, isGroup⟩ := block_eq_ok_iff.mp grouped
  have regroups := collects.regroups plain _ (mem_singleton_self _)
  obtain ⟨_, collects', same⟩ := regroups tree.tokens (Tree.map_text_tokens solid)
  cases same with
  | @tree _ other same =>
    refine ⟨other, block_eq_ok_iff.mpr ⟨collects', ?_⟩, Tree.sameShape_iff.mpr same⟩
    cases same with
    | leaf => exact isGroup
    | group => rfl

/-- Statements with an empty one and a comma among them, arguments, and a group without members. -/
theorem block_tokens_nested :
    let tokens := ofTexts ["\x7b", "a", ",", "b", ";", ";", "f", "(", "c", ",", "(", ")", ")", "\x7d"]
    ∃ tree, ({} : Layout).block tokens = .ok tree ∧
      ∃ other, ({} : Layout).block tree.tokens = .ok other ∧ tree.sameShape other = true := by
  intro tokens
  have computed : (({} : Layout).block tokens).toOption.any Tree.isSolid = true := by decide +kernel
  cases grouped : ({} : Layout).block tokens with
  | error fault =>
    rw [grouped] at computed
    cases computed
  | ok tree =>
    rw [grouped] at computed
    exact ⟨tree, rfl, block_tokens (by decide) grouped computed⟩

/-- A group of a separator and nothing else comes back without the separator. -/
theorem block_tokens_lossy :
    (do
      let tree ← ({} : Layout).block (ofTexts ["(", ";", ")"])
      let other ← ({} : Layout).block tree.tokens
      return tree.sameShape other) = .ok false := by
  decide +kernel

end Layout

end ScoreScript
