import Mathlib.Algebra.GroupWithZero.Nat
import ScoreScript.Proofs.Compile.Outcome
import ScoreScript.Proofs.Reading.Weight

/-!
# What grouping keeps

Grouping drops and adds nothing but separators: the words that a tree is taken apart into again are
those it was made from, and weigh no more. So the size of a tree, which bounds how deep it nests,
is bounded by the weight of its words.
-/

namespace ScoreScript

open List

open Token

/-! ## Taking trees apart -/

namespace Tree

theorem innerTokens_space (pos : Position) (trees : List Tree) :
    innerTokens .space pos trees = trees.flatMap tokens := by
  induction trees with
  | nil => rw [innerTokens, flatMap_nil]
  | cons tree trees ih => rw [innerTokens, ih, flatMap_cons]

theorem innerTokens_statement (separator : Char) (pos : Position) (trees : List Tree) :
    innerTokens (.statement separator) pos trees =
      trees.flatMap (fun tree => tree.tokens ++ [.ofChar separator tree.position]) := by
  induction trees with
  | nil => rw [innerTokens, flatMap_nil]
  | cons tree trees ih =>
    rw [innerTokens, ih, flatMap_cons]
    simp

theorem tokens_line (children : List Tree) (pos : Position) :
    (line children pos).tokens = children.flatMap tokens := by
  have grouped (children : List Tree) (pos : Position) :
      (group children .line .space pos).tokens = children.flatMap tokens := by
    rw [tokens, if_neg (by decide), innerTokens_space]
  match children with
  | [] => exact grouped [] pos
  | [leaf token] => simp [line, ofChildren, tokens]
  | [group inner bracket divider place] => exact grouped _ place
  | first :: second :: rest => cases first <;> exact grouped _ _

variable {bracket : Bracket}

theorem tokens_group (written : bracket.isWritten = true) (children : List Tree) (divider : Divider)
    (pos : Position) : (group children bracket divider pos).tokens = .ofChar bracket.opening pos ::
        (innerTokens divider pos children ++ [.ofChar bracket.closing pos]) := by
  rw [tokens, if_pos written]

theorem ofChildren_written (written : bracket.isWritten = true) (children : List Tree) (divider : Divider)
    (pos : Position) : ofChildren children bracket divider pos = group children bracket divider pos := by
  cases bracket with
  | line => cases written
  | _ => rfl

namespace Item

def tokens : Item → List Token
  | tree t => t.tokens
  | separator token => [token]

theorem tokens_toTree (item : Item) : item.toTree.tokens = item.tokens := by
  cases item with
  | tree t => rfl
  | separator token => rw [toTree, Tree.tokens, tokens]

end Item

/-- The words that grouped items are taken apart into again. -/
def flat (items : List Item) : List Token :=
  items.flatMap Item.tokens

private theorem flat_nil : flat [] = [] := rfl

theorem flat_cons (item : Item) (items : List Item) : flat (item :: items) = item.tokens ++ flat items := rfl

private theorem flatMap_toTree (items : List Item) : (items.map Item.toTree).flatMap tokens = flat items := by
  induction items with
  | nil => rfl
  | cons item items ih => rw [map_cons, flatMap_cons, ih, Item.tokens_toTree, flat_cons]

theorem tokens_ofPiece (pos : Position) (piece : List Item) : (ofPiece pos piece).tokens = flat piece := by
  rw [ofPiece, tokens_line, flatMap_toTree]

mutual

/-- How deep a tree can nest at most: its words, and a level for each bracket that an expression is
read from. -/
def size : Tree → Nat
  | leaf _ => 1
  | group children bracket _ _ =>
    (if bracket = .paren ∨ bracket = .square then 1 else 0) + sizes children

def sizes : List Tree → Nat
  | [] => 0
  | tree :: trees => tree.size + sizes trees

end

theorem sizes_append (left right : List Tree) : sizes (left ++ right) = sizes left + sizes right := by
  induction left with
  | nil => simp [sizes]
  | cons tree trees ih => simp only [cons_append, sizes, ih, Nat.add_assoc]

/-- No word of the tree is free of charge, so that reading it uses something up. -/
def Solid (separator : Char) (tree : Tree) : Prop :=
  ∀ token ∈ tree.leaves, 0 < token.cost separator false

theorem leavesList_eq (trees : List Tree) : leavesList trees = trees.flatMap leaves := by
  induction trees with
  | nil => rfl
  | cons tree trees ih => rw [leavesList, ih, flatMap_cons]

variable {separator : Char}

theorem solid_group {children : List Tree} {divider : Divider} {pos : Position} :
    (group children bracket divider pos).Solid separator ↔ ∀ child ∈ children, child.Solid separator := by
  simp only [Solid, leaves, leavesList_eq, mem_flatMap]
  exact ⟨fun all child mem token inside => all token ⟨child, mem, inside⟩,
    fun all token ⟨child, mem, inside⟩ => all child mem token inside⟩

theorem solid_ofChildren {children : List Tree} (solid : ∀ child ∈ children, child.Solid separator) (bracket : Bracket)
    (divider : Divider) (pos : Position) : (ofChildren children bracket divider pos).Solid separator := by
  unfold ofChildren
  split
  · exact solid _ (mem_singleton_self _)
  · exact solid_group.mpr solid
  · exact solid_group.mpr solid

private theorem cost_bracket (separator : Char) (deep : bracket = .paren ∨ bracket = .square) (pos : Position)
    (f g : Bool) :
    1 ≤ (ofChar bracket.opening pos).cost separator f + (ofChar bracket.closing pos).cost separator g := by
  -- A separator is one of the two brackets at most.
  have once : bracket.opening ≠ separator ∨ bracket.closing ≠ separator := by
    by_cases opens : bracket.opening = separator
    · rw [← opens]
      exact .inr (by rcases deep with rfl | rfl <;> decide)
    · exact .inl opens
  have costs {c : Char} (other : c ≠ separator) (notBrace : c ≠ Bracket.brace.closing) (f : Bool) :
      1 ≤ (ofChar c pos).cost separator f := by
    refine Nat.le_trans ?_ (cost_false_le separator f _)
    simp [Token.cost, other, notBrace]
  rcases once with other | other
  · have := costs other (by rcases deep with rfl | rfl <;> decide) f
    omega
  · have := costs other (by rcases deep with rfl | rfl <;> decide) g
    omega

mutual

/-- How deep a tree can nest is bounded by the weight of its words. -/
theorem size_le_weigh {tree : Tree} (solid : tree.Solid separator) (before : Bool) :
    tree.size ≤ Token.weigh separator before tree.tokens := by
  match tree with
  | leaf token =>
    simp only [size, tokens, Token.weigh, Nat.add_zero]
    exact Nat.le_trans (solid token (mem_singleton_self _))
      (token.cost_false_le separator before)
  | group children bracket divider pos =>
    have inner := fun before => sizes_le_weigh (solid_group.mp solid) divider pos before
    rw [size, tokens]
    by_cases written : bracket.isWritten = true
    · rw [if_pos written, Token.weigh, weigh_append, Token.weigh]
      have := inner (ofChar bracket.opening pos).leadsBody
      split
      · next deep =>
          have := cost_bracket separator deep pos before (endsLeading
            (ofChar bracket.opening pos).leadsBody
            (innerTokens divider pos children))
          omega
      · omega
    · have : ¬ (bracket = .paren ∨ bracket = .square) := by
        rintro (rfl | rfl) <;> exact written rfl
      rw [if_neg written, if_neg this, Nat.zero_add]
      exact inner before

private theorem sizes_le_weigh {trees : List Tree} (solid : ∀ tree ∈ trees, tree.Solid separator)
    (divider : Divider) (pos : Position) (before : Bool) :
    sizes trees ≤ Token.weigh separator before (innerTokens divider pos trees) := by
  match trees with
  | [] => exact Nat.zero_le _
  | tree :: trees =>
    have first := size_le_weigh (solid tree (mem_cons_self ..)) before
    have rest := fun before => sizes_le_weigh
      (fun other mem => solid other (mem_cons_of_mem _ mem)) divider pos before
    rw [sizes]
    cases divider with
    | space =>
      rw [innerTokens, weigh_append]
      have := rest (endsLeading before tree.tokens)
      omega
    | statement stop =>
      rw [innerTokens, weigh_append, Token.weigh]
      have := rest (ofChar stop tree.position).leadsBody
      omega
    | comma =>
      cases trees with
      | nil =>
        simp only [innerTokens, sizes, Nat.add_zero]
        exact first
      | cons next others =>
        rw [innerTokens, weigh_append, Token.weigh]
        have := rest (ofChar ',' pos).leadsBody
        omega

end

theorem exists_split (c : Char) (items : List Item) : ∃ piece pieces, Item.split c items = piece :: pieces := by
  cases items with
  | nil => exact ⟨[], [], rfl⟩
  | cons item items =>
    unfold Item.split
    split
    · exact ⟨_, _, rfl⟩
    · split <;> exact ⟨_, _, rfl⟩

theorem split_whole (c : Char) (items : List Item) :
    ∀ piece ∈ Item.split c items, ∀ item ∈ piece, item ∈ items ∧ item.isSeparator c = false := by
  induction items with
  | nil => simp [Item.split]
  | cons item items ih =>
    obtain ⟨first, pieces, isSplit⟩ := exists_split c items
    rw [isSplit] at ih
    rw [Item.split, isSplit]
    have later : ∀ piece ∈ first :: pieces, ∀ other ∈ piece,
        other ∈ item :: items ∧ other.isSeparator c = false := fun piece mem other inside =>
      (ih piece mem other inside).imp_left (mem_cons_of_mem _)
    split
    · intro piece mem other inside
      rcases mem_cons.mp mem with rfl | mem
      · cases inside
      · exact later piece mem other inside
    · next plain =>
        intro piece mem other inside
        rcases mem_cons.mp mem with rfl | mem
        · rcases mem_cons.mp inside with rfl | inside
          · exact ⟨mem_cons_self .., Bool.eq_false_iff.mpr plain⟩
          · exact later first (mem_cons_self ..) other inside
        · exact later piece (mem_cons_of_mem _ mem) other inside

private theorem mem_flat_of_mem_split {c : Char} {items piece : List Item}
    (mem : piece ∈ Item.split c items) {token : Token} (inside : token ∈ flat piece) : token ∈ flat items := by
  obtain ⟨item, inPiece, inItem⟩ := mem_flatMap.mp inside
  exact mem_flatMap.mpr ⟨item, (split_whole c items piece mem item inPiece).1, inItem⟩

/-- Separators weigh nothing. -/
private theorem weigh_split (separator : Char) (before : Bool) (items : List Item) :
    ∃ piece pieces, Item.split separator items = piece :: pieces ∧
      Token.weigh separator before (flat items) = Token.weigh separator before (flat piece) + (pieces.map (fun other =>
          Token.weigh separator (separator == Bracket.paren.closing) (flat other))).sum := by
  induction items generalizing before with
  | nil => exact ⟨[], [], rfl, by simp [flat_nil, Token.weigh]⟩
  | cons item items ih =>
    unfold Item.split
    split
    · next isSeparator =>
        obtain ⟨piece, pieces, isSplit, weight⟩ := ih (separator == Bracket.paren.closing)
        cases item with
        | tree t => cases isSeparator
        | separator token =>
          refine ⟨[], piece :: pieces, by rw [isSplit], ?_⟩
          rw [flat_cons, Item.tokens, singleton_append, Token.weigh,
            leadsBody_of_isChar isSeparator, cost_separator isSeparator, weight]
          simp [flat_nil, Token.weigh]
    · obtain ⟨piece, pieces, isSplit, weight⟩ := ih (endsLeading before item.tokens)
      rw [isSplit]
      refine ⟨item :: piece, pieces, rfl, ?_⟩
      rw [flat_cons, flat_cons, weigh_append, weigh_append, weight]
      omega

theorem weigh_statements (separator : Char) (before : Bool) (pos : Position) (tree : Tree) (trees : List Tree) :
    Token.weigh separator before (innerTokens (.statement separator) pos (tree :: trees)) =
      Token.weigh separator before tree.tokens + Token.weigh separator (separator == Bracket.paren.closing)
          (innerTokens (.statement separator) pos trees) := by
  have isSeparator : (ofChar separator tree.position).isChar separator = true :=
    isChar_of_text rfl
  rw [innerTokens, weigh_append, Token.weigh, leadsBody_of_isChar isSeparator, cost_separator isSeparator, Nat.zero_add]

theorem weigh_pieces (separator : Char) (pos : Position) (pieces : List (List Item)) :
    Token.weigh separator (separator == Bracket.paren.closing) (innerTokens (.statement separator) pos
          ((pieces.filter (fun piece => !piece.isEmpty)).map (ofPiece pos))) = (pieces.map (fun piece =>
        Token.weigh separator (separator == Bracket.paren.closing) (flat piece))).sum := by
  induction pieces with
  | nil => rfl
  | cons piece pieces ih =>
    cases piece with
    | nil => simpa [flat_nil, Token.weigh] using ih
    | cons item items =>
      rw [filter_cons_of_pos rfl, map_cons, weigh_statements, ih, tokens_ofPiece,
        map_cons, sum_cons]

/-- Leaving out empty statements makes the words no heavier. -/
private theorem weigh_statements_le (separator : Char) (pos : Position) (items : List Item) :
    Token.weigh separator false (innerTokens (.statement separator) pos
        (((Item.split separator items).filter (fun piece => !piece.isEmpty)).map (ofPiece pos))) ≤
      Token.weigh separator false (flat items) := by
  obtain ⟨piece, pieces, isSplit, weight⟩ := weigh_split separator false items
  rw [isSplit, weight, ← weigh_pieces separator pos pieces]
  cases piece with
  | nil =>
    rw [filter_cons_of_neg (by simp)]
    exact Nat.le_trans (weigh_false_le _ _ _) (Nat.le_add_left _ _)
  | cons item items =>
    apply Nat.le_of_eq
    rw [filter_cons_of_pos rfl, map_cons, weigh_statements, tokens_ofPiece]

theorem texts_arguments (pos : Position) (items : List Item) :
    (innerTokens .comma pos ((Item.split ',' items).map (ofPiece pos))).map Token.text =
      (flat items).map Token.text := by
  induction items with
  | nil => simp [Item.split, innerTokens, tokens_ofPiece]
  | cons item items ih =>
    obtain ⟨piece, pieces, isSplit⟩ := exists_split ',' items
    rw [isSplit] at ih
    unfold Item.split
    rw [isSplit]
    split
    · next isComma =>
        cases item with
        | tree t => cases isComma
        | separator token =>
          rw [flat_cons, Item.tokens, map_append, ← ih]
          simp [innerTokens, tokens_ofPiece, flat_nil, ofChar, Token.text_of_isChar isComma]
    · rw [flat_cons, map_append, ← ih]
      cases pieces with
      | nil => simp [innerTokens, tokens_ofPiece, flat_cons]
      | cons next others => simp [innerTokens, tokens_ofPiece, flat_cons]

variable {separator : Char} {bracket : Bracket} {pos : Position} {items : List Item} {tree : Tree}

section

variable (written : bracket.isWritten = true)
include written

theorem leadsBody_opening (pos : Position) : (ofChar bracket.opening pos).leadsBody = false := by
  rw [leadsBody_of_isChar (isChar_of_text rfl)]
  revert written
  cases bracket <;> decide

private theorem cost_closing (pos : Position) (before : Bool) : (ofChar bracket.closing pos).cost separator before =
      (ofChar bracket.closing pos).cost separator false := by
  have notBare : (ofChar bracket.closing pos).startsBare = false := by
    simp only [startsBare, isChar_ofChar]
    revert written
    cases bracket <;> decide
  simp only [Token.cost, notBare, Bool.and_false]

/-- A block is written back with a separator behind each statement. -/
private theorem statements_reshape (pos : Position) (items : List Item) :
    Token.Reshapes separator (.ofChar bracket.opening pos :: (flat items ++ [.ofChar bracket.closing pos]))
      (.ofChar bracket.opening pos :: (innerTokens (.statement separator) pos
          (((Item.split separator items).filter (fun piece => !piece.isEmpty)).map
            (ofPiece pos)) ++ [.ofChar bracket.closing pos])) where
  head := rfl
  weigh := by
    intro before
    have inner := weigh_statements_le separator pos items
    simp only [Token.weigh, weigh_append, leadsBody_opening written, cost_closing written pos (endsLeading _ _)]
    omega
  leads := by
    intro before
    simp only [endsLeading, endsLeading_append]
  stems := by
    intro token mem
    rw [innerTokens_statement] at mem
    rcases mem_cons.mp mem with rfl | inside
    · exact .inr ⟨_, mem_cons_self .., rfl⟩
    · rcases mem_append.mp inside with inner | last
      · obtain ⟨tree, isPiece, inTree⟩ := mem_flatMap.mp inner
        obtain ⟨piece, isPart, rfl⟩ := mem_map.mp isPiece
        rcases mem_append.mp inTree with own | stop
        · rw [tokens_ofPiece] at own
          have there := mem_flat_of_mem_split (mem_filter.mp isPart).1 own
          exact .inr ⟨token, mem_cons_of_mem _ (mem_append_left _ there), rfl⟩
        · rw [mem_singleton.mp stop]
          exact .inl (.inl (isChar_of_text rfl))
      · exact .inr ⟨token, mem_cons_of_mem _ (mem_append_right _ last), rfl⟩

/-- Closing a group keeps its words but for separators. -/
theorem close_reshapes (closed : close separator bracket pos items = .ok tree) : Token.Reshapes separator
      (.ofChar bracket.opening pos :: (flat items ++ [.ofChar bracket.closing pos])) tree.tokens := by
  unfold close at closed
  split at closed
  · cases closed
    rw [ofChildren_written written, tokens_group written]
    exact statements_reshape written pos items
  · split at closed
    · dsimp only at closed
      split at closed
      · cases closed
      · cases closed
        rw [ofChildren_written written, tokens_group written]
        refine .of_texts ?_
        simp [texts_arguments]
    · cases closed
      rw [ofChildren_written written, tokens_group written, innerTokens_space, flatMap_toTree]
      exact .refl _

/-- What is closed is a group with the bracket that was open. -/
theorem close_bracket (closed : close separator bracket pos items = .ok tree) :
    ∃ children divider, tree = group children bracket divider pos := by
  unfold close at closed
  split at closed
  · cases closed
    exact ⟨_, _, ofChildren_written written _ _ _⟩
  · split at closed
    · dsimp only at closed
      split at closed
      · cases closed
      · cases closed
        exact ⟨_, _, ofChildren_written written _ _ _⟩
    · cases closed
      exact ⟨_, _, ofChildren_written written _ _ _⟩

end

/-- All items but separators are solid. -/
def AllSolid (separator : Char) (items : List Item) : Prop :=
  ∀ item ∈ items, item.isSeparator separator = false → item.toTree.Solid separator

theorem AllSolid.cons (all : AllSolid separator items) {item : Item}
    (solid : item.isSeparator separator = false → item.toTree.Solid separator) :
    AllSolid separator (item :: items) := by
  intro other mem
  rcases mem_cons.mp mem with rfl | inside
  · exact solid
  · exact all other inside

theorem solid_ofPiece {piece : List Item} (solid : ∀ item ∈ piece, item.toTree.Solid separator) (pos : Position) :
    (ofPiece pos piece).Solid separator := by
  apply solid_ofChildren
  intro child mem
  obtain ⟨item, inside, rfl⟩ := mem_map.mp mem
  exact solid item inside

/-- A group of solid items is solid. -/
theorem close_solid (all : AllSolid separator items)
    (closed : close separator bracket pos items = .ok tree) : tree.Solid separator := by
  unfold close at closed
  split at closed
  · cases closed
    apply solid_ofChildren
    intro child mem
    obtain ⟨piece, isPiece, rfl⟩ := mem_map.mp mem
    apply solid_ofPiece
    intro item inside
    obtain ⟨there, other⟩ :=
      split_whole separator items piece (mem_filter.mp isPiece).1 item inside
    exact all item there other
  · next none =>
      have solid : ∀ item ∈ items, item.toTree.Solid separator := by
        intro item mem
        apply all item mem
        rw [Bool.eq_false_iff]
        intro isSeparator
        exact none (any_eq_true.mpr ⟨item, mem, isSeparator⟩)
      split at closed
      · dsimp only at closed
        split at closed
        · cases closed
        · cases closed
          apply solid_ofChildren
          intro child mem
          obtain ⟨piece, isPiece, rfl⟩ := mem_map.mp mem
          apply solid_ofPiece
          intro item inside
          exact solid item (split_whole ',' items piece isPiece item inside).1
      · cases closed
        apply solid_ofChildren
        intro child mem
        obtain ⟨item, inside, rfl⟩ := mem_map.mp mem
        exact solid item inside

private theorem close_blameless (separator : Char) (bracket : Bracket) (pos : Position)
    (items : List Item) : Blameless (close separator bracket pos items) := by
  unfold close
  split
  · exact .ok _
  · split
    · dsimp only
      split
      · exact .error nofun
      · exact .ok _
    · exact .ok _

end Tree

/-! ## Roles of words -/

namespace Token

variable {separator : Char} {token : Token} {bracket : Bracket}

theorem isChar_of_single {c : Char} (single : token.single? = some c) : token.isChar c = true := by
  simp [isChar, single]

theorem opening_of_ofOpening {c : Char} (found : Bracket.ofOpening? c = some bracket) :
    bracket.opening = c ∧ bracket.isWritten = true := by
  have holds := find?_some found
  refine ⟨by simpa using holds, ?_⟩
  have mem := mem_of_find?_eq_some found
  revert mem
  cases bracket <;> decide

private theorem closing_of_ofClosing {c : Char} (found : Bracket.ofClosing? c = some bracket) :
    bracket.closing = c ∧ bracket.isWritten = true := by
  have holds := find?_some found
  refine ⟨by simpa using holds, ?_⟩
  have mem := mem_of_find?_eq_some found
  revert mem
  cases bracket <;> decide

theorem text_of_opens (role : token.role separator = .opens bracket) :
    token.text = String.ofList [bracket.opening] ∧ bracket.isWritten = true := by
  unfold Token.role at role
  split at role
  · cases role
  · next c single =>
      split at role
      · next found =>
          cases role
          obtain ⟨rfl, written⟩ := opening_of_ofOpening found
          exact ⟨text_of_isChar (isChar_of_single single), written⟩
      · split at role
        · cases role
        · split at role <;> cases role

theorem text_of_closes (role : token.role separator = .closes bracket) :
    token.text = String.ofList [bracket.closing] ∧ bracket.isWritten = true := by
  unfold Token.role at role
  split at role
  · cases role
  · next c single =>
      split at role
      · cases role
      · split at role
        · next found =>
            cases role
            obtain ⟨rfl, written⟩ := closing_of_ofClosing found
            exact ⟨text_of_isChar (isChar_of_single single), written⟩
        · split at role <;> cases role

/-- Only closing brackets and separators are free of charge. -/
theorem cost_pos_of_role (role : ∀ bracket, token.role separator ≠ .closes bracket)
    (other : token.isChar separator = false) : 0 < token.cost separator false := by
  have open? : token.isChar Bracket.brace.closing = false := by
    rw [Bool.eq_false_iff]
    intro closes
    have single : token.single? = some Bracket.brace.closing := by simpa [isChar] using closes
    apply role .brace
    rw [Token.role, single]
    rfl
  simp [cost, other, open?]

theorem isChar_of_word (role : token.role separator = .word) : token.isChar separator = false := by
  rw [Bool.eq_false_iff]
  intro isSeparator
  have single : token.single? = some separator := by simpa [isChar] using isSeparator
  rw [Token.role, single] at role
  dsimp only at role
  split at role
  · cases role
  · split at role
    · cases role
    · rw [if_pos (.inl rfl)] at role
      cases role

end Token

/-! ## Matching brackets -/

namespace Tree

namespace Pending

variable {separator : Char}

private theorem step_blameless (pending : Pending) (token : Token) : Blameless (pending.step separator token) := by
  unfold step
  split
  · exact .ok _
  · split
    · exact .error nofun
    · split
      · exact .error nofun
      · exact .bind (close_blameless _ _ _ _) (fun _ _ => .ok _)
  · exact .ok _
  · exact .ok _

private theorem steps_blameless (words : List Token) (pending : Pending) :
    Blameless (words.foldlM (step separator) pending) := by
  induction words generalizing pending with
  | nil => exact .ok _
  | cons token words ih =>
    rw [foldlM_cons]
    exact .bind (step_blameless pending token) (fun next _ => ih next)

end Pending

theorem collect_blameless (separator : Char) (words : List Token) : Blameless (collect separator words) := by
  unfold collect
  refine .bind (Pending.steps_blameless words {}) ?_
  intro last _
  unfold Pending.finish
  split
  · exact .ok _
  · exact .error nofun

end Tree

end ScoreScript
