import ScoreScript.Proofs.Reading.Grammar
import ScoreScript.Proofs.Reading.Shape

/-!
# Statements and empty statements

What is read depends on the shapes of the members between separators, and hardly on empty
statements: only an `else` that stands behind one does not belong to the `if` before it any more.
Members that agree in the pieces between separators are therefore read alike, unless such an
`else` is among them.
-/

namespace ScoreScript

open List

namespace Tree

def Item.strandsElse (separator : Char) : List Item → Bool
  | first :: second :: item :: rest =>
    (first.isSeparator separator && second.isSeparator separator && item.toTree.isWord "else") ||
      strandsElse separator (second :: item :: rest)
  | _ => false

def Agree (separator : Char) (items others : List Item) : Prop :=
  List.Forall₂ (List.Forall₂ Item.Same) (nonempties (Item.split separator items))
    (nonempties (Item.split separator others))

/-- The members agree, and are at the same place of a piece. -/
def Abreast (separator : Char) (items others : List Item) : Prop :=
  ∃ piece pieces piece' pieces', Item.split separator items = piece :: pieces ∧
    Item.split separator others = piece' :: pieces' ∧ List.Forall₂ Item.Same piece piece' ∧
    List.Forall₂ (List.Forall₂ Item.Same) (nonempties pieces) (nonempties pieces')

section Split

variable {separator : Char} {items others piece : List Item} {pieces : List (List Item)}

theorem split_eq_cons (isSplit : Item.split separator items = piece :: pieces) :
    (∀ item ∈ piece, item.isSeparator separator = false) ∧ ((items = piece ∧ pieces = []) ∨
        ∃ token rest, items = piece ++ .separator token :: rest ∧
          token.isChar separator = true ∧ Item.split separator rest = pieces) := by
  induction items generalizing piece with
  | nil =>
    cases isSplit
    exact ⟨forall_mem_nil _, .inl ⟨rfl, rfl⟩⟩
  | cons item items ih =>
    obtain ⟨first, others, isSplit'⟩ := exists_split separator items
    rw [Item.split, isSplit'] at isSplit
    split at isSplit
    · next isSeparator =>
        cases isSplit
        cases item with
        | tree _ => cases isSeparator
        | separator token =>
          exact ⟨forall_mem_nil _, .inr ⟨token, items, rfl, isSeparator, isSplit'⟩⟩
    · next plain =>
        cases isSplit
        obtain ⟨whole, ends⟩ := ih isSplit'
        refine ⟨forall_mem_cons.mpr ⟨Bool.eq_false_iff.mpr plain, whole⟩, ?_⟩
        rcases ends with ⟨rfl, none⟩ | ⟨token, rest, rfl, isSeparator, isRest⟩
        · exact .inl ⟨rfl, none⟩
        · exact .inr ⟨token, rest, rfl, isSeparator, isRest⟩

private theorem split_cons_plain (items : List Item) {item : Item} (plain : item.isSeparator separator = false) :
    ∃ piece pieces, Item.split separator items = piece :: pieces ∧
      Item.split separator (item :: items) = (item :: piece) :: pieces := by
  obtain ⟨piece, pieces, isSplit⟩ := exists_split separator items
  refine ⟨piece, pieces, isSplit, ?_⟩
  rw [Item.split, plain, isSplit]
  rfl

theorem split_cons_separator (item : Item) (isSeparator : item.isSeparator separator = true) :
    Item.split separator (item :: items) = [] :: Item.split separator items := by
  rw [Item.split, if_pos isSeparator]

theorem Abreast.agree (abreast : Abreast separator items others) : Agree separator items others := by
  obtain ⟨piece, pieces, piece', pieces', isSplit, isSplit', same, rest⟩ := abreast
  rw [Agree, isSplit, isSplit']
  cases same with
  | nil => exact rest
  | cons head tail => exact .cons (.cons head tail) rest

theorem Agree.abreast {item item' : Item} (agree : Agree separator (item :: items) (item' :: others))
    (plain : item.isSeparator separator = false) (plain' : item'.isSeparator separator = false) :
    Abreast separator (item :: items) (item' :: others) := by
  obtain ⟨piece, pieces, _, isSplit⟩ := split_cons_plain items plain
  obtain ⟨piece', pieces', _, isSplit'⟩ := split_cons_plain others plain'
  rw [Agree, isSplit, isSplit'] at agree
  cases agree with
  | cons head rest => exact ⟨_, _, _, _, isSplit, isSplit', head, rest⟩

theorem Abreast.of_cons {item : Item} (abreast : Abreast separator (item :: items) others)
    (plain : item.isSeparator separator = false) : ∃ item' others', others = item' :: others' ∧ item.Same item' ∧
      Abreast separator items others' := by
  obtain ⟨_, _, piece', pieces', isSplit, isSplit', same, rest⟩ := abreast
  obtain ⟨piece, pieces, isSplit₁, isSplit₂⟩ := split_cons_plain items plain
  rw [isSplit₂] at isSplit
  cases isSplit
  cases same with
  | @cons _ item' _ piece' head tail =>
    obtain ⟨whole, ends⟩ := split_eq_cons isSplit'
    have front : ∃ others', others = item' :: others' := by
      rcases ends with ⟨rfl, _⟩ | ⟨_, _, rfl, _⟩ <;> exact ⟨_, rfl⟩
    obtain ⟨others', rfl⟩ := front
    obtain ⟨piece₃, pieces₃, isSplit₃, isSplit₄⟩ :=
      split_cons_plain others' (whole item' (mem_cons_self ..))
    rw [isSplit₄] at isSplit'
    cases isSplit'
    exact ⟨item', others', rfl, head, _, _, _, _, isSplit₁, isSplit₃, tail, rest⟩

theorem forall₂_symm {pieces' : List (List Item)} (same : List.Forall₂ (List.Forall₂ Item.Same) pieces pieces') :
    List.Forall₂ (List.Forall₂ Item.Same) pieces' pieces :=
  List.Forall₂.flip (same.imp (fun _ _ same => List.Forall₂.flip (same.imp (fun _ _ => .symm))))

theorem Agree.symm (agree : Agree separator items others) : Agree separator others items :=
  forall₂_symm agree

theorem startWith_separator {text : String} (long : text.toList.length ≠ 1) {token : Token}
    (isSeparator : token.isChar separator = true) (rest : List Item) :
    Item.startWith text (.separator token :: rest) = false := by
  rw [Item.startWith, Item.toTree, isWord, word?, Token.text_of_isChar isSeparator]
  refine Bool.eq_false_iff.mpr (fun same => ?_)
  rw [← Option.some.inj (eq_of_beq same)] at long
  exact long (by simp)

private theorem startWith_of_same {a b : Item} (same : a.Same b) (text : String) (items others : List Item) :
    Item.startWith text (a :: items) = Item.startWith text (b :: others) := by
  have shape := same.toTree
  rw [Item.startWith, Item.startWith]
  generalize a.toTree = tree at shape ⊢
  generalize b.toTree = other at shape ⊢
  cases shape with
  | leaf same => simp [isWord, word?, same]
  | group => rfl

private theorem startIn_of_same {a b : Item} (same : a.Same b) (bracket : Bracket) (items others : List Item) :
    Item.startIn bracket (a :: items) = Item.startIn bracket (b :: others) := by
  have shape := same.toTree
  rw [Item.startIn, Item.startIn]
  generalize a.toTree = tree at shape ⊢
  generalize b.toTree = other at shape ⊢
  cases shape <;> rfl

theorem Abreast.startWith {text : String} (long : text.toList.length ≠ 1) (abreast : Abreast separator items others) :
    Item.startWith text items = Item.startWith text others := by
  obtain ⟨piece, pieces, piece', pieces', isSplit, isSplit', same, _⟩ := abreast
  have ends : ∀ {items : List Item} {pieces : List (List Item)},
      Item.split separator items = [] :: pieces → Item.startWith text items = false := by
    intro items pieces isSplit
    rcases (split_eq_cons isSplit).2 with ⟨rfl, _⟩ | ⟨token, rest, rfl, isSeparator, _⟩
    · rfl
    · exact startWith_separator long isSeparator rest
  cases same with
  | nil => rw [ends isSplit, ends isSplit']
  | cons head tail =>
    rcases (split_eq_cons isSplit).2 with ⟨rfl, _⟩ | ⟨_, _, rfl, _⟩ <;>
      rcases (split_eq_cons isSplit').2 with ⟨rfl, _⟩ | ⟨_, _, rfl, _⟩ <;>
        exact startWith_of_same head text _ _

end Split

/-! ## Members that are read alike -/

section Alike

variable {separator : Char}

private theorem strandsElse_of_append (front : List Item) {back : List Item}
    (free : Item.strandsElse separator (front ++ back) = false) : Item.strandsElse separator back = false := by
  induction front with
  | nil => exact free
  | cons item front ih =>
    refine ih ?_
    match rest : front ++ back with
    | [] | [_] => rfl
    | second :: third :: others =>
      rw [cons_append, rest, Item.strandsElse, Bool.or_eq_false_iff] at free
      exact free.2

private theorem strandsElse_cons {item : Item} (plain : item.isSeparator separator = false) (items : List Item) :
    Item.strandsElse separator (item :: items) = Item.strandsElse separator items := by
  match items with
  | [] | [_] => rfl
  | _ :: _ :: _ => rw [Item.strandsElse, plain, Bool.false_and, Bool.false_and, Bool.false_or]

variable {piece : List Item}

theorem strandsElse_append (whole : ∀ item ∈ piece, item.isSeparator separator = false) (items : List Item) :
    Item.strandsElse separator (piece ++ items) = Item.strandsElse separator items := by
  induction piece with
  | nil => rfl
  | cons item piece ih =>
    obtain ⟨plain, later⟩ := forall_mem_cons.mp whole
    rw [cons_append, strandsElse_cons plain, ih later]

variable {items : List Item}

theorem strandsElse_stop (stop : Item) (goesOn : ∀ item ∈ items.head?, item.isSeparator separator = false) :
    Item.strandsElse separator (stop :: items) = Item.strandsElse separator items := by
  match items with
  | [] | [_] => rfl
  | second :: _ :: _ =>
    rw [Item.strandsElse, goesOn second rfl, Bool.and_false, Bool.false_and, Bool.false_or]

variable {others : List Item}

theorem strandsElse_same (same : List.Forall₂ Item.Same items others) :
    Item.strandsElse separator items = Item.strandsElse separator others := by
  induction same with
  | nil => rfl
  | cons first rest ih =>
    cases rest with
    | nil => rfl
    | cons second rest =>
      cases rest with
      | nil => rfl
      | cons third rest =>
        have word := startWith_of_same third "else" [] []
        rw [Item.startWith, Item.startWith] at word
        rw [Item.strandsElse, Item.strandsElse, first.isSeparator separator, second.isSeparator separator, word, ih]

theorem agree_of_same (same : List.Forall₂ Item.Same items others) : Agree separator items others :=
  nonempties_related (split_related (Item.SameAt.isSeparator separator) same)

variable {pieces : List (List Item)}

private theorem strandsElse_of_skip (stop : Item) (isStop : stop.isSeparator separator = true)
    (behind : ∃ item rest, items = item :: rest ∧ item.isSeparator separator = true)
    (first : nonempties (Item.split separator items) = piece :: pieces) (isElse : Item.startWith "else" piece = true) :
    Item.strandsElse separator (stop :: items) = true := by
  obtain ⟨item, rest, rfl, isSeparator⟩ := behind
  induction rest generalizing stop item with
  | nil => simp [Item.split, isSeparator, nonempties] at first
  | cons next rest ih =>
    rw [Item.strandsElse, Bool.or_eq_true]
    rw [split_cons_separator item isSeparator] at first
    cases nextIs : next.isSeparator separator with
    | true => exact .inr (ih item isSeparator next nextIs first)
    | false =>
      obtain ⟨piece', pieces', _, isSplit⟩ := split_cons_plain rest nextIs
      rw [isSplit] at first
      cases first
      refine .inl ?_
      rw [isStop, isSeparator]
      exact isElse

structure Follows (separator : Char) (rest others : List Item) : Prop where
  agree : Agree separator rest others
  sameElse : Item.startWith "else" rest = Item.startWith "else" others
  abreast : Item.startWith "else" rest = true → Abreast separator rest others

variable {rest : List Item}

theorem Abreast.follows (abreast : Abreast separator rest others) : Follows separator rest others :=
  ⟨abreast.agree, abreast.startWith (by decide), fun _ => abreast⟩

theorem Stops.split {tail : List Item} (stops : Stops separator tail rest)
    (whole : ∀ item ∈ piece, item.isSeparator separator = false) :
    ∃ pieces, Item.split separator (piece ++ tail) = piece :: pieces ∧
      nonempties (Item.split separator rest) = nonempties pieces := by
  cases stops with
  | finish =>
    rw [append_nil]
    exact ⟨[], split_of_whole whole, rfl⟩
  | stop isSeparator => exact ⟨_, split_append whole isSeparator, rfl⟩

theorem split_of_startWith {text : String} (long : text.toList.length ≠ 1) (starts : Item.startWith text items = true) :
    ∃ item rest piece pieces, items = item :: rest ∧ item.isSeparator separator = false ∧
      Item.split separator items = (item :: piece) :: pieces := by
  cases items with
  | nil => cases starts
  | cons item rest =>
    have plain : item.isSeparator separator = false := by
      refine Bool.eq_false_iff.mpr (fun isSeparator => ?_)
      cases item with
      | tree _ => cases isSeparator
      | separator token =>
        rw [startWith_separator long isSeparator] at starts
        cases starts
    obtain ⟨piece, pieces, _, isSplit⟩ := split_cons_plain rest plain
    exact ⟨item, rest, piece, pieces, rfl, plain, isSplit⟩

theorem Agree.startElse {tail rest others : List Item} (agree : Agree separator others rest)
    (isElse : Item.startWith "else" others = true) (stops : Stops separator tail rest)
    (free : Item.strandsElse separator tail = false) : Item.startWith "else" rest = true := by
  obtain ⟨item, front, piece, pieces, rfl, _, isSplit⟩ := split_of_startWith (by decide) isElse
  rw [Agree, isSplit] at agree
  cases first : nonempties (Item.split separator rest) with
  | nil =>
    rw [first] at agree
    cases agree
  | cons piece' pieces' =>
    rw [first] at agree
    obtain ⟨head, _⟩ := forall₂_cons.mp agree
    cases head with
    | @cons _ item' _ back same _ =>
      have isElse' : Item.startWith "else" (item' :: back) = true :=
        (startWith_of_same same "else" _ _).symm.trans isElse
      cases stops with
      | finish => cases first
      | stop isSeparator =>
        cases rest with
        | nil => cases first
        | cons next rest =>
          cases nextIs : next.isSeparator separator with
          | true =>
            have stranded := strandsElse_of_skip (.separator _) isSeparator ⟨next, rest, rfl, nextIs⟩ first isElse'
            rw [free] at stranded
            cases stranded
          | false =>
            obtain ⟨_, _, _, isSplit'⟩ := split_cons_plain rest nextIs
            rw [isSplit'] at first
            cases first
            exact isElse'

theorem Stops.follows {tail rest tail' rest' : List Item} (stops : Stops separator tail rest)
    (stops' : Stops separator tail' rest') (agree : Agree separator rest rest')
    (free : Item.strandsElse separator tail = false)
    (free' : Item.strandsElse separator tail' = false) : Follows separator rest rest' := by
  have there := fun isElse => agree.startElse isElse stops' free'
  have back := fun isElse => agree.symm.startElse isElse stops free
  refine ⟨agree, Bool.eq_iff_iff.mpr ⟨there, back⟩, ?_⟩
  intro isElse
  obtain ⟨item, front, _, _, rfl, plain, _⟩ := split_of_startWith (by decide) isElse
  obtain ⟨item', front', _, _, rfl, plain', _⟩ := split_of_startWith (by decide) (there isElse)
  exact agree.abreast plain plain'

private theorem stops_of_split (isSplit : Item.split separator items = piece :: pieces) :
    ∃ tail rest, items = piece ++ tail ∧ Stops separator tail rest ∧
      nonempties (Item.split separator rest) = nonempties pieces := by
  rcases (split_eq_cons isSplit).2 with ⟨rfl, rfl⟩ | ⟨token, rest, rfl, isSeparator, rfl⟩
  · exact ⟨[], [], (append_nil _).symm, .finish, rfl⟩
  · exact ⟨_, rest, rfl, .stop isSeparator, rfl⟩

private theorem leaf_of_same {token : Token} {other : Item} (same : Item.Same (.tree (leaf token)) other) :
    ∃ token', other = .tree (leaf token') ∧ token'.text = token.text := by
  cases same with
  | tree same =>
    cases same with
    | leaf text => exact ⟨_, rfl, text.symm⟩

private theorem tree_of_same {tree : Tree} {other : Item} (same : Item.Same (.tree tree) other) :
    ∃ tree', other = .tree tree' ∧ Tree.Same Anywhere tree tree' ∧ tree'.bracket? = tree.bracket? := by
  cases same with
  | tree same => exact ⟨_, rfl, same, by cases same <;> rfl⟩

theorem ofStatements_sameShape {pieces' : List (List Item)}
    (same : List.Forall₂ (List.Forall₂ Item.Same) pieces pieces') :
    sameShapes (pieces.map ofStatement) (pieces'.map ofStatement) = true := by
  rw [sameShapes_iff, Sames, forall₂_map_left_iff, forall₂_map_right_iff]
  exact same.imp (fun _ _ same => ofPiece_same same trivial)

private theorem ofBody_same {piece' : List Item} (same : List.Forall₂ Item.Same piece piece') :
    Item.Same (.tree (ofBody separator piece)) (.tree (ofBody separator piece')) :=
  .tree (ofChildren_same (.cons (ofPiece_same same trivial) .nil) _ _ trivial)

variable {found : List Item}

theorem Takes.suffix {part : Part} (takes : Takes separator part items found rest) :
    ∃ front, items = front ++ rest := by
  induction takes with
  | @line piece tail rest _ _ _ stops =>
    cases stops with
    | finish => exact ⟨piece, rfl⟩
    | @stop token => exact ⟨piece ++ [.separator token], by simp⟩
  | single _ _ _ _ ih =>
    obtain ⟨front, rfl⟩ := ih
    exact ⟨_ :: _ :: front, rfl⟩
  | @double keyword word cond _ _ _ _ _ _ _ _ _ _ ih ih' =>
    obtain ⟨front, rfl⟩ := ih
    obtain ⟨front', rfl⟩ := ih'
    exact ⟨.tree (leaf keyword) :: .tree cond :: (front ++ .tree (leaf word) :: front'), by simp⟩
  | @braced body => exact ⟨[.tree body], rfl⟩
  | bare _ _ ih => exact ih

theorem Takes.strandsElse {part : Part} (takes : Takes separator part items found rest)
    (free : Item.strandsElse separator items = false) : Item.strandsElse separator rest = false := by
  obtain ⟨front, rfl⟩ := takes.suffix
  exact strandsElse_of_append front free

theorem Abreast.of_if {keyword : Token} {cond : Tree}
    (abreast : Abreast separator (.tree (leaf keyword) :: .tree cond :: items) others) :
    ∃ keyword' condition' others', others = .tree (leaf keyword') :: .tree condition' :: others' ∧
      keyword'.text = keyword.text ∧ condition'.bracket? = cond.bracket? ∧
      List.Forall₂ Item.Same [.tree (leaf keyword), .tree cond]
        [.tree (leaf keyword'), .tree condition'] ∧ Abreast separator items others' := by
  obtain ⟨_, others₁, rfl, same, abreast₁⟩ := abreast.of_cons rfl
  obtain ⟨keyword', rfl, text⟩ := leaf_of_same same
  obtain ⟨_, others₂, rfl, same', abreast₂⟩ := abreast₁.of_cons rfl
  obtain ⟨condition', rfl, _, bracket⟩ := tree_of_same same'
  exact ⟨keyword', condition', others₂, rfl, text, bracket, .cons same (.cons same' .nil), abreast₂⟩

private theorem body_of_same {body : Tree} (same : List.Forall₂ Item.Same [.tree body] found) :
    ∃ body', found = [.tree body'] := by
  cases same with
  | cons head tail =>
    cases tail
    obtain ⟨body', rfl, _⟩ := tree_of_same head
    exact ⟨body', rfl⟩

theorem Takes.alike {part : Part} (takes : Takes separator part items found rest)
    (abreast : Abreast separator items others) (free : Item.strandsElse separator items = false)
    (free' : Item.strandsElse separator others = false) : ∃ found' rest', Takes separator part others found' rest' ∧
      List.Forall₂ Item.Same found found' ∧ Follows separator rest rest' := by
  induction takes generalizing others with
  | @line piece tail rest nonempty whole notIf stops =>
    obtain ⟨_, _, piece', pieces', isSplit, isSplit', same, rest'⟩ := abreast
    obtain ⟨pieces, isSplit'', later⟩ := stops.split whole
    rw [isSplit''] at isSplit
    cases isSplit
    obtain ⟨tail', left, rfl, stops', later'⟩ := stops_of_split isSplit'
    rw [← later, ← later'] at rest'
    have nonempty' : piece' ≠ [] := by
      rintro rfl
      cases same
      exact nonempty rfl
    have notIf' : Item.startWith "if" piece' = false := by
      cases same with
      | nil => exact absurd rfl nonempty
      | cons head _ => exact (startWith_of_same head "if" _ _).symm.trans notIf
    refine ⟨piece', left, .line nonempty' (split_eq_cons isSplit').1 notIf' stops', same, ?_⟩
    exact stops.follows stops' rest' (strandsElse_of_append _ free) (strandsElse_of_append _ free')
  | single isIf isCondition _ notElse ih =>
    obtain ⟨keyword', condition', others', rfl, text, bracket, heads, inside⟩ := abreast.of_if
    obtain ⟨_, rest', takes', bodies, follows⟩ := ih inside (strandsElse_of_append [_, _] free)
      (strandsElse_of_append [_, _] free')
    obtain ⟨body', rfl⟩ := body_of_same bodies
    refine ⟨_, rest', .single (text.trans isIf) (bracket.trans isCondition) takes' ?_,
      rel_append heads bodies, follows⟩
    rw [← follows.sameElse, notElse]
  | double isIf isCondition first isElse _ ih ih' =>
    obtain ⟨keyword', condition', others', rfl, text, bracket, heads, inside⟩ := abreast.of_if
    have inner := strandsElse_of_append [_, _] free
    have inner' := strandsElse_of_append [_, _] free'
    obtain ⟨_, middle', takes', bodies, follows⟩ := ih inside inner inner'
    obtain ⟨body', rfl⟩ := body_of_same bodies
    obtain ⟨_, middle', rfl, same, inside'⟩ :=
      (follows.abreast (Reader.startWith_of_leaf isElse _)).of_cons rfl
    obtain ⟨word', rfl, text'⟩ := leaf_of_same same
    obtain ⟨_, rest', takes'', bodies', follows'⟩ := ih' inside' (strandsElse_of_append [_] (first.strandsElse inner))
      (strandsElse_of_append [_] (takes'.strandsElse inner'))
    obtain ⟨other', rfl⟩ := body_of_same bodies'
    exact ⟨_, rest', .double (text.trans isIf) (bracket.trans isCondition) takes' (text'.trans isElse) takes'',
      rel_append heads (rel_append bodies (.cons same bodies')), follows'⟩
  | braced isBody =>
    obtain ⟨_, others', rfl, same, after⟩ := abreast.of_cons rfl
    obtain ⟨body', rfl, _, bracket⟩ := tree_of_same same
    exact ⟨_, others', .braced (bracket.trans isBody), .cons same .nil, after.follows⟩
  | bare notBrace takes ih =>
    obtain ⟨found', rest', takes', same, follows⟩ := ih abreast free free'
    obtain ⟨item, front, _, rfl, _, plain⟩ := takes.starts
    obtain ⟨item', others', rfl, same', _⟩ := abreast.of_cons plain
    refine ⟨_, rest', .bare ?_ takes', .cons (ofBody_same same) .nil, follows⟩
    exact (startIn_of_same same' .brace _ _).symm.trans notBrace

private theorem takesAll_of_skip (takes : TakesAll separator items pieces) {front : List Item}
    (skipped : ∀ item ∈ front, item.isSeparator separator = true) : TakesAll separator (front ++ items) pieces := by
  induction front with
  | nil => exact takes
  | cons item front ih =>
    obtain ⟨isSeparator, later⟩ := forall_mem_cons.mp skipped
    cases item with
    | tree _ => cases isSeparator
    | separator token => exact .skip isSeparator (ih later)

private theorem exists_skipped (separator : Char) (items : List Item) :
    ∃ front rest, items = front ++ rest ∧ (∀ item ∈ front, item.isSeparator separator = true) ∧
      (∀ item ∈ rest.head?, item.isSeparator separator = false) ∧
      nonempties (Item.split separator rest) = nonempties (Item.split separator items) := by
  induction items with
  | nil => exact ⟨[], [], rfl, forall_mem_nil _, by simp, rfl⟩
  | cons item items ih =>
    cases isSeparator : item.isSeparator separator with
    | false =>
      exact ⟨[], item :: items, rfl, forall_mem_nil _, by simpa using isSeparator, rfl⟩
    | true =>
      obtain ⟨front, rest, rfl, skipped, goesOn, same⟩ := ih
      refine ⟨item :: front, rest, rfl, forall_mem_cons.mpr ⟨isSeparator, skipped⟩, goesOn, ?_⟩
      rw [same, split_cons_separator item isSeparator]
      rfl

theorem TakesAll.alike (takes : TakesAll separator items pieces) (agree : Agree separator items others)
    (free : Item.strandsElse separator items = false) (free' : Item.strandsElse separator others = false) :
    ∃ pieces', TakesAll separator others pieces' ∧ List.Forall₂ (List.Forall₂ Item.Same) pieces pieces' := by
  induction takes generalizing others with
  | nil =>
    obtain ⟨front, rest, rfl, skipped, goesOn, same⟩ := exists_skipped separator others
    cases rest with
    | nil => exact ⟨[], takesAll_of_skip .nil skipped, .nil⟩
    | cons item rest =>
      obtain ⟨_, _, _, isSplit⟩ := split_cons_plain rest (goesOn item rfl)
      rw [Agree, ← same, isSplit] at agree
      cases agree
  | skip isSeparator _ ih =>
    refine ih ?_ (strandsElse_of_append [_] free) free'
    rw [Agree, split_cons_separator (.separator _) isSeparator] at agree
    exact agree
  | next takes _ ih =>
    obtain ⟨front, rest, rfl, skipped, goesOn, same⟩ := exists_skipped separator others
    rw [Agree, ← same] at agree
    obtain ⟨item, items, _, rfl, _, plain⟩ := takes.starts
    cases rest with
    | nil =>
      obtain ⟨_, _, _, isSplit⟩ := split_cons_plain items plain
      rw [isSplit] at agree
      cases agree
    | cons other rest =>
      have inner := strandsElse_of_append front free'
      obtain ⟨found', rest', takes', sameFound, follows⟩ :=
        takes.alike (Agree.abreast agree plain (goesOn other rfl)) free inner
      obtain ⟨pieces', later, samePieces⟩ :=
        ih follows.agree (takes.strandsElse free) (takes'.strandsElse inner)
      exact ⟨found' :: pieces', takesAll_of_skip (.next takes' later) skipped, .cons sameFound samePieces⟩

end Alike

end Tree

end ScoreScript
