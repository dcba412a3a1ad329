import Mathlib.Data.List.Forall2
import ScoreScript.Proofs.Reading.Matched

/-!
# Shapes and words of trees

Two trees have the same shape when they differ in positions only. Grouping looks at the texts of
words only, so words with the same texts are grouped into trees of the same shape; and the words
that a tree is written with are grouped into a tree of its shape again.
-/

namespace ScoreScript

open List

open Token

def Divider.replace (c d : Char) : Divider → Divider
  | space => space
  | comma => comma
  | statement e => statement (if e = c then d else e)

theorem Divider.replace_self (c : Char) (divider : Divider) : divider.replace c c = divider := by
  cases divider with
  | space | comma => rfl
  | statement e =>
    rw [replace]
    split
    · next same => rw [same]
    · rfl

namespace Tree

/-! ## Shapes -/

/-- The trees differ in positions only, and those are related. -/
inductive Same (place : Position → Position → Prop) : Tree → Tree → Prop where
  | leaf {a b : Token} (text : a.text = b.text) (placed : place a.position b.position) :
      Same place (leaf a) (leaf b)
  | group {as bs : List Tree} (inner : List.Forall₂ (Same place) as bs) (bracket : Bracket)
      (divider : Divider) {p q : Position} (placed : place p q) :
      Same place (group as bracket divider p) (group bs bracket divider q)

abbrev Sames (place : Position → Position → Prop) (trees others : List Tree) : Prop :=
  List.Forall₂ (Same place) trees others

abbrev Anywhere (_ _ : Position) : Prop :=
  True

mutual

theorem sameShape_iff {a b : Tree} : a.sameShape b = true ↔ Same Anywhere a b := by
  match a, b with
  | leaf a, leaf b =>
    simp only [sameShape, beq_iff_eq]
    exact ⟨fun text => .leaf text trivial, fun | .leaf text _ => text⟩
  | group as _ _ _, group bs _ _ _ =>
    simp only [sameShape, Bool.and_eq_true, beq_iff_eq, @sameShapes_iff as bs]
    constructor
    · rintro ⟨⟨rfl, rfl⟩, inner⟩
      exact .group inner _ _ trivial
    · intro same
      cases same with
      | group inner => exact ⟨⟨rfl, rfl⟩, inner⟩
  | leaf _, group .. => exact ⟨by rintro ⟨⟩, by rintro ⟨⟩⟩
  | group .., leaf _ => exact ⟨by rintro ⟨⟩, by rintro ⟨⟩⟩

theorem sameShapes_iff {as bs : List Tree} : sameShapes as bs = true ↔ Sames Anywhere as bs := by
  match as, bs with
  | [], [] => simp [sameShapes]
  | a :: as, b :: bs => simp [sameShapes, @sameShape_iff a b, @sameShapes_iff as bs]
  | [], _ :: _ => simp [sameShapes]
  | _ :: _, [] => simp [sameShapes]

end

section Relations

variable {place : Position → Position → Prop}

mutual

theorem Same.refl (stays : ∀ p, place p p) (tree : Tree) : Same place tree tree := by
  match tree with
  | leaf token => exact .leaf rfl (stays _)
  | group children bracket divider pos =>
    exact .group (Sames.refl stays children) bracket divider (stays _)

theorem Sames.refl (stays : ∀ p, place p p) (trees : List Tree) : Sames place trees trees := by
  match trees with
  | [] => exact .nil
  | tree :: trees => exact .cons (Same.refl stays tree) (Sames.refl stays trees)

end

mutual

theorem Same.symm {a b : Tree} (same : Same Anywhere a b) : Same Anywhere b a := by
  match a, b, same with
  | leaf _, leaf _, .leaf text _ => exact .leaf text.symm trivial
  | group _ _ _ _, group _ _ _ _, .group inner _ _ _ => exact .group (Sames.symm inner) _ _ trivial

theorem Sames.symm {as bs : List Tree} (same : Sames Anywhere as bs) : Sames Anywhere bs as := by
  match as, bs, same with
  | [], [], .nil => exact .nil
  | _ :: _, _ :: _, .cons head tail => exact .cons (Same.symm head) (Sames.symm tail)

end

theorem Same.position {a b : Tree} (same : Same place a b) : place a.position b.position := by
  cases same with
  | leaf _ placed => exact placed
  | group _ _ _ placed => exact placed

end Relations

theorem ofChildren_cases (children : List Tree) (bracket : Bracket) (divider : Divider) (pos : Position) :
    (∃ token, bracket = .line ∧ divider = .space ∧ children = [leaf token] ∧
      ofChildren children bracket divider pos = leaf token) ∨
    ((∀ token, bracket = .line → divider = .space → children ≠ [leaf token]) ∧
      ∃ place, ofChildren children bracket divider pos = group children bracket divider place) := by
  unfold ofChildren
  split
  · next token => exact .inl ⟨token, rfl, rfl, rfl, rfl⟩
  · next several =>
      refine .inr ⟨?_, _, rfl⟩
      rintro token - rfl ⟨⟩
      exact several token rfl rfl rfl
  · next notLine _ =>
      refine .inr ⟨?_, _, rfl⟩
      rintro token rfl rfl rfl
      exact notLine (leaf token) [] rfl rfl

section Places

variable {place : Position → Position → Prop} {p q : Position}

theorem ofChildren_same {as bs : List Tree} (same : Sames place as bs) (bracket : Bracket) (divider : Divider)
    (placed : place p q) : Same place (ofChildren as bracket divider p) (ofChildren bs bracket divider q) := by
  have whole := Same.group same bracket divider placed
  cases bracket with
  | paren | brace | square => exact whole
  | line =>
    cases same with
    | nil => cases divider <;> exact whole
    | cons head tail =>
      -- A line stands where its first member does.
      have moved := Same.group (.cons head tail) .line divider head.position
      cases divider with
      | comma | statement => exact moved
      | space =>
        cases head with
        | group => exact moved
        | leaf text placed =>
          cases tail with
          | nil => exact .leaf text placed
          | cons => exact moved

namespace Item

/-- Two members that differ in positions only, and those are related. -/
inductive SameAt (place : Position → Position → Prop) : Item → Item → Prop where
  | tree {a b : Tree} (same : Tree.Same place a b) : SameAt place (tree a) (tree b)
  | separator {a b : Token} (text : a.text = b.text) (placed : place a.position b.position) :
      SameAt place (separator a) (separator b)

abbrev Same (a b : Item) : Prop :=
  SameAt Anywhere a b

variable {a b : Item}

theorem Same.symm (same : Same a b) : Same b a := by
  cases same with
  | tree same => exact .tree (Tree.Same.symm same)
  | separator text _ => exact .separator text.symm trivial

theorem SameAt.toTree (same : SameAt place a b) : Tree.Same place a.toTree b.toTree := by
  cases same with
  | tree same => exact same
  | separator text placed => exact .leaf text placed

theorem SameAt.isSeparator (c : Char) (same : SameAt place a b) : a.isSeparator c = b.isSeparator c := by
  cases same with
  | tree _ => rfl
  | separator text _ => exact isChar_congr text c

end Item

def nonempties (pieces : List (List Item)) : List (List Item) :=
  pieces.filter (fun piece => !piece.isEmpty)

section Members

variable {mem : Item → Item → Prop} {c d : Char} {items others : List Item} {pieces' pieces : List (List Item)}

section

variable (separators : ∀ {a b}, mem a b → a.isSeparator c = b.isSeparator d)
  (related : List.Forall₂ mem items others)
include separators related

private theorem any_isSeparator : items.any (Item.isSeparator c) = others.any (Item.isSeparator d) := by
  induction related with
  | nil => rfl
  | cons head _ ih => rw [any_cons, any_cons, separators head, ih]

theorem split_related : List.Forall₂ (List.Forall₂ mem) (Item.split c items) (Item.split d others) := by
  induction related with
  | nil => exact .cons .nil .nil
  | @cons a b items others head _ ih =>
    obtain ⟨piece, pieces, isSplit⟩ := exists_split c items
    obtain ⟨piece', pieces', isSplit'⟩ := exists_split d others
    rw [isSplit, isSplit'] at ih
    rw [Item.split, Item.split, isSplit, isSplit', separators head]
    split
    · exact .cons .nil ih
    · cases ih with
      | cons first rest => exact .cons (.cons head first) rest

end

theorem nonempties_related (related : List.Forall₂ (List.Forall₂ mem) pieces pieces') :
    List.Forall₂ (List.Forall₂ mem) (nonempties pieces) (nonempties pieces') := by
  induction related with
  | nil => exact .nil
  | cons head _ ih =>
    cases head with
    | nil => exact ih
    | cons first rest => exact .cons (.cons first rest) ih

private theorem any_isEmpty (related : List.Forall₂ (List.Forall₂ mem) pieces pieces') :
    pieces.any isEmpty = pieces'.any isEmpty := by
  induction related with
  | nil => rfl
  | cons head _ ih => cases head <;> simp [ih]

theorem toTrees_related {shape : Tree → Tree → Prop} (trees : ∀ {a b}, mem a b → shape a.toTree b.toTree)
    (related : List.Forall₂ mem items others) :
    List.Forall₂ shape (items.map Item.toTree) (others.map Item.toTree) := by
  rw [forall₂_map_left_iff, forall₂_map_right_iff]
  exact related.imp (fun _ _ => trees)

/-- Members that correspond make trees that do, where `d` divides statements instead of `c`. -/
theorem close_related {shape : Tree → Tree → Prop}
    (separators : ∀ {a b}, mem a b → a.isSeparator c = b.isSeparator d)
    (commas : ∀ {a b}, mem a b → a.isSeparator ',' = b.isSeparator ',')
    (trees : ∀ {a b}, mem a b → shape a.toTree b.toTree)
    (groups : ∀ {as bs : List Tree} (bracket : Bracket) (divider : Divider), List.Forall₂ shape as bs →
      shape (ofChildren as bracket divider p) (ofChildren bs bracket (divider.replace c d) q))
    (related : List.Forall₂ mem items others) (bracket : Bracket) :
    (∃ tree other, close c bracket p items = .ok tree ∧
      close d bracket q others = .ok other ∧ shape tree other) ∨
    close c bracket p items = .error ⟨.emptyListItem, p⟩ ∧ close d bracket q others = .error ⟨.emptyListItem, q⟩ := by
  have lines {pieces pieces'} (related : List.Forall₂ (List.Forall₂ mem) pieces pieces') :
      List.Forall₂ shape (pieces.map (ofPiece p)) (pieces'.map (ofPiece q)) := by
    rw [forall₂_map_left_iff, forall₂_map_right_iff]
    exact related.imp (fun _ _ piece => groups .line .space (toTrees_related trees piece))
  have statements := groups bracket (.statement c) (lines (nonempties_related (split_related separators related)))
  rw [Divider.replace, if_pos rfl] at statements
  unfold close
  rw [any_isSeparator separators related, any_isSeparator commas related]
  split
  · exact .inl ⟨_, _, rfl, rfl, statements⟩
  split
  · have pieces := split_related commas related
    dsimp only
    rw [any_isEmpty pieces]
    split
    · exact .inr ⟨rfl, rfl⟩
    · exact .inl ⟨_, _, rfl, rfl, groups bracket .comma (lines pieces)⟩
  · exact .inl ⟨_, _, rfl, rfl, groups bracket .space (toTrees_related trees related)⟩

end Members

theorem ofPiece_same {items others : List Item} (same : List.Forall₂ (Item.SameAt place) items others)
    (placed : place p q) : Same place (ofPiece p items) (ofPiece q others) :=
  ofChildren_same (toTrees_related Item.SameAt.toTree same) _ _ placed

end Places

/-! ## Words -/

def joinWords : Divider → List (List String) → List String
  | .space, members => members.flatten
  | .comma, members => [","].intercalate members
  | .statement c, [] => [String.ofList [c]]
  | .statement c, members => members.flatMap (fun mem => mem ++ [String.ofList [c]])

mutual

def words : Tree → List String
  | leaf token => [token.text]
  | group children bracket divider _ =>
    if bracket.isWritten then
      String.ofList [bracket.opening] :: (joinWords divider (wordsList children) ++ [String.ofList [bracket.closing]])
    else joinWords divider (wordsList children)

def wordsList : List Tree → List (List String)
  | [] => []
  | tree :: trees => tree.words :: wordsList trees

end

theorem wordsList_eq (trees : List Tree) : wordsList trees = trees.map words := by
  induction trees with
  | nil => rfl
  | cons tree trees ih => rw [wordsList, ih, map_cons]

def Item.words (item : Item) : List String :=
  item.toTree.words

theorem words_separator (token : Token) : (Item.separator token).words = [token.text] := by
  rw [Item.words, Item.toTree, words]

theorem words_ofPiece (pos : Position) (piece : List Item) :
    (ofPiece pos piece).words = piece.flatMap Item.words := by
  have flat : joinWords .space (wordsList (piece.map Item.toTree)) = piece.flatMap Item.words := by
    rw [wordsList_eq, joinWords, map_map, ← flatMap_def]
    rfl
  rw [ofPiece, line]
  rcases ofChildren_cases (piece.map Item.toTree) .line .space pos with
    ⟨token, _, _, isLeaf, same⟩ | ⟨_, place, same⟩
  · rw [same, ← flat, isLeaf]
    simp [words, wordsList, joinWords]
  · rw [same, words, if_neg (by decide), flat]

variable {bracket : Bracket}

private theorem words_group (written : bracket.isWritten = true) (children : List Tree) (divider : Divider)
    (pos : Position) : (ofChildren children bracket divider pos).words = String.ofList [bracket.opening] ::
      (joinWords divider (children.map words) ++ [String.ofList [bracket.closing]]) := by
  rw [ofChildren_written written, words, if_pos written, wordsList_eq]

theorem join_arguments (pos : Position) (items : List Item) :
    joinWords .comma (((Item.split ',' items).map (ofPiece pos)).map words) = items.flatMap Item.words := by
  rw [joinWords, map_map]
  induction items with
  | nil => simp [Item.split, words_ofPiece]
  | cons item items ih =>
    obtain ⟨piece, pieces, isSplit⟩ := exists_split ',' items
    rw [isSplit] at ih
    rw [Item.split, isSplit, flatMap_cons, ← ih]
    split
    · next isComma =>
        cases item with
        | tree _ => cases isComma
        | separator token =>
          rw [words_separator, text_of_isChar isComma]
          simp [words_ofPiece]
    · cases pieces <;> simp [words_ofPiece]

/-! ## Separators set anew -/

variable {stop : Item} {pieces : List (List Item)}

section Split

variable {c : Char} {piece rest : List Item}

theorem split_of_whole (whole : ∀ item ∈ piece, item.isSeparator c = false) : Item.split c piece = [piece] := by
  induction piece with
  | nil => rfl
  | cons item piece ih =>
    rw [Item.split, whole item (mem_cons_self ..),
      ih (fun other mem => whole other (mem_cons_of_mem _ mem))]
    rfl

theorem split_append (whole : ∀ item ∈ piece, item.isSeparator c = false) (isSeparator : stop.isSeparator c = true) :
    Item.split c (piece ++ stop :: rest) = piece :: Item.split c rest := by
  induction piece with
  | nil => rw [nil_append, Item.split, if_pos isSeparator]
  | cons item piece ih =>
    rw [cons_append, Item.split, whole item (mem_cons_self ..),
      ih (fun other mem => whole other (mem_cons_of_mem _ mem))]
    rfl

theorem mem_nonempties : piece ∈ nonempties pieces ↔ piece ∈ pieces ∧ piece ≠ [] := by
  simp [nonempties]

def terminate (stop : Item) (pieces : List (List Item)) : List Item :=
  pieces.flatMap (fun piece => piece ++ [stop])

private theorem split_terminate (isSeparator : stop.isSeparator c = true)
    (whole : ∀ piece ∈ pieces, ∀ item ∈ piece, item.isSeparator c = false) :
    Item.split c (terminate stop pieces) = pieces ++ [[]] := by
  induction pieces with
  | nil => rfl
  | cons piece pieces ih =>
    rw [terminate, flatMap_cons, append_assoc, singleton_append,
      split_append (whole piece (mem_cons_self ..)) isSeparator]
    exact congrArg (piece :: ·) (ih (fun other mem => whole other (mem_cons_of_mem _ mem)))

theorem nonempties_split_terminate (isSeparator : stop.isSeparator c = true) (items : List Item) :
    nonempties (Item.split c (terminate stop (nonempties (Item.split c items)))) = nonempties (Item.split c items) := by
  have whole : ∀ piece ∈ nonempties (Item.split c items), ∀ item ∈ piece,
      item.isSeparator c = false := fun piece mem item inside =>
    (split_whole c items piece (mem_nonempties.mp mem).1 item inside).2
  rw [split_terminate isSeparator whole]
  simp [nonempties, filter_append, filter_filter]

end Split

theorem mem_terminate {item : Item} (mem : item ∈ terminate stop pieces) :
    (∃ piece ∈ pieces, item ∈ piece) ∨ item = stop := by
  obtain ⟨piece, isPiece, inside⟩ := mem_flatMap.mp mem
  rcases mem_append.mp inside with inside | last
  · exact .inl ⟨piece, isPiece, inside⟩
  · exact .inr (mem_singleton.mp last)

private theorem words_terminate (token : Token) (pieces : List (List Item)) :
    (terminate (.separator token) pieces).flatMap Item.words =
      pieces.flatMap (fun piece => piece.flatMap Item.words ++ [token.text]) := by
  simp only [terminate, flatMap_assoc, flatMap_append, flatMap_singleton, words_separator]

def statementMembers (stop : Item) (pieces : List (List Item)) : List Item :=
  if pieces.isEmpty then [stop] else terminate stop pieces

variable {separator : Char}

private theorem close_statementMembers (isStop : stop.isSeparator separator = true) (bracket : Bracket)
    (pos : Position) (items : List Item) :
    close separator bracket pos (statementMembers stop (nonempties (Item.split separator items))) =
      .ok (ofChildren ((nonempties (Item.split separator items)).map (ofPiece pos)) bracket
        (.statement separator) pos) := by
  cases isPieces : nonempties (Item.split separator items) with
  | nil =>
    have alone : [stop].any (Item.isSeparator separator) = true := by simpa using isStop
    have none : nonempties (Item.split separator [stop]) = [] := by
      simp [Item.split, isStop, nonempties]
    rw [statementMembers, if_pos (by decide), close, if_pos alone]
    exact congrArg (fun pieces => Except.ok (ofChildren (map (ofPiece pos) pieces)
      bracket (.statement separator) pos)) none
  | cons piece pieces =>
    have divided : (terminate stop (piece :: pieces)).any (Item.isSeparator separator) = true := by
      simp [terminate, isStop]
    have same := nonempties_split_terminate isStop items
    rw [isPieces] at same
    rw [statementMembers, if_neg (by simp), close, if_pos divided]
    exact congrArg (fun pieces => Except.ok (ofChildren (map (ofPiece pos) pieces)
      bracket (.statement separator) pos)) same

variable {pos : Position}

theorem words_statementMembers (stop : Token) (isStop : stop.text = String.ofList [separator])
    (pieces : List (List Item)) : joinWords (.statement separator) ((pieces.map (ofPiece pos)).map words) =
      (statementMembers (.separator stop) pieces).flatMap Item.words := by
  cases pieces with
  | nil => simp [statementMembers, joinWords, words_separator, isStop]
  | cons piece pieces =>
    rw [statementMembers, if_neg (by simp), words_terminate, isStop]
    simp [joinWords, flatMap_map, words_ofPiece]

theorem exists_written (written : bracket.isWritten = true) {items : List Item} {tree : Tree}
    (closed : close separator bracket pos items = .ok tree) :
    ∃ members, close separator bracket pos members = .ok tree ∧ tree.words = String.ofList [bracket.opening] ::
        (members.flatMap Item.words ++ [String.ofList [bracket.closing]]) ∧
      ∀ item ∈ members, item ∈ items ∨ item = .separator (.ofChar separator pos) := by
  by_cases divided : items.any (Item.isSeparator separator) = true
  · rw [close, if_pos divided] at closed
    cases closed
    refine ⟨statementMembers (.separator (.ofChar separator pos))
      (nonempties (Item.split separator items)), ?_, ?_, ?_⟩
    · refine close_statementMembers ?_ bracket pos items
      exact @isChar_of_text (.ofChar separator pos) separator rfl
    · rw [words_group written, ← words_statementMembers _ rfl]
      rfl
    · intro item mem
      rw [statementMembers] at mem
      split at mem
      · exact .inr (mem_singleton.mp mem)
      · refine (mem_terminate mem).imp_left ?_
        rintro ⟨piece, isPiece, inside⟩
        exact (split_whole separator items piece (mem_nonempties.mp isPiece).1 item inside).1
  · refine ⟨items, closed, ?_, fun item mem => .inl mem⟩
    rw [close, if_neg divided] at closed
    split at closed
    · dsimp only at closed
      split at closed
      · cases closed
      · cases closed
        rw [words_group written, join_arguments]
    · cases closed
      rw [words_group written, joinWords, map_map, ← flatMap_def]
      rfl

/-! ## Grouping written words -/

/-- Words with the texts of the member are grouped into one of its shape. -/
def Regroups (separator : Char) (item : Item) : Prop :=
  ∀ tokens : List Token, tokens.map Token.text = item.words →
    ∃ other, Collects separator tokens [other] ∧ item.Same other

section Regroup

variable {separator : Char} {items : List Item}

theorem regroups_all (all : ∀ item ∈ items, Regroups separator item) {tokens : List Token}
    (texts : tokens.map Token.text = items.flatMap Item.words) :
    ∃ others, Collects separator tokens others ∧ List.Forall₂ Item.Same items others := by
  induction items generalizing tokens with
  | nil =>
    cases map_eq_nil_iff.mp texts
    exact ⟨[], .nil, .nil⟩
  | cons item items ih =>
    rw [flatMap_cons] at texts
    obtain ⟨front, back, rfl, first, rest⟩ := map_eq_append_iff.mp texts
    obtain ⟨other, collects, same⟩ := all item (mem_cons_self ..) front first
    obtain ⟨others, collects', same'⟩ :=
      ih (fun item mem => all item (mem_cons_of_mem _ mem)) rest
    exact ⟨other :: others, collects.append collects', .cons same same'⟩

private theorem regroups_leaf {token : Token} (role : token.role separator = .word) :
    Regroups separator (.tree (leaf token)) := by
  intro tokens texts
  rw [Item.words, Item.toTree, words] at texts
  obtain ⟨other, rfl, same⟩ := map_eq_singleton_iff.mp texts
  exact ⟨.tree (leaf other), .word ((role_congr same).trans role) .nil, .tree (.leaf same.symm trivial)⟩

theorem regroups_separator {token : Token} {c : Char} (role : token.role separator = .separates c) :
    Regroups separator (.separator token) := by
  intro tokens texts
  rw [words_separator] at texts
  obtain ⟨other, rfl, same⟩ := map_eq_singleton_iff.mp texts
  exact ⟨.separator other, .separator ((role_congr same).trans role) .nil, .separator same.symm trivial⟩

theorem regroups_close (plain : Bracket.isBracket separator = false) (written : bracket.isWritten = true) {tree : Tree}
    (all : ∀ item ∈ items, Regroups separator item) (closed : close separator bracket pos items = .ok tree) :
    Regroups separator (.tree tree) := by
  intro tokens texts
  obtain ⟨members, closed, isWritten, stem⟩ := exists_written written closed
  have regroups : ∀ item ∈ members, Regroups separator item := by
    intro item mem
    rcases stem item mem with old | rfl
    · exact all item old
    · exact regroups_separator (role_separator plain (isChar_of_text rfl))
  rw [Item.words, Item.toTree, isWritten, ← cons_append] at texts
  obtain ⟨front, back, rfl, front', back'⟩ := map_eq_append_iff.mp texts
  obtain ⟨opening, inside, rfl, opens, inner⟩ := map_eq_cons_iff.mp front'
  obtain ⟨closing, rfl, closes⟩ := map_eq_singleton_iff.mp back'
  obtain ⟨others, collects, same⟩ := regroups_all regroups inner
  have groups {as bs : List Tree} (bracket : Bracket) (divider : Divider) (inner : Sames Anywhere as bs) :
      Same Anywhere (ofChildren as bracket divider pos)
        (ofChildren bs bracket (divider.replace separator separator) opening.position) := by
    rw [Divider.replace_self]
    exact ofChildren_same inner bracket divider trivial
  obtain ⟨_, other, known, closed', shape⟩ | ⟨failed, _⟩ := close_related (Item.SameAt.isSeparator separator)
    (Item.SameAt.isSeparator ',') Item.SameAt.toTree groups same bracket
  rotate_left
  · rw [closed] at failed
    cases failed
  cases closed.symm.trans known
  refine ⟨.tree other, ?_, .tree shape⟩
  exact .group (role_opening separator written (isChar_of_text opens))
    (role_closing written closes) collects closed' .nil

theorem Collects.regroups (plain : Bracket.isBracket separator = false) {tokens : List Token}
    (collects : Collects separator tokens items) : ∀ item ∈ items, Regroups separator item := by
  induction collects with
  | nil => exact forall_mem_nil _
  | word role _ ih => exact forall_mem_cons.mpr ⟨regroups_leaf role, ih⟩
  | separator role _ ih => exact forall_mem_cons.mpr ⟨regroups_separator role, ih⟩
  | group opens _ _ closed _ insideIH restIH =>
    exact forall_mem_cons.mpr ⟨regroups_close plain (text_of_opens opens).2 insideIH closed, restIH⟩

end Regroup

end Tree

end ScoreScript
