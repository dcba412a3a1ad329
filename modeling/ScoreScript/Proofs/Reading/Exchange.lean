import Mathlib.Logic.Equiv.Basic
import ScoreScript.Proofs.Reading.Shape

/-!
# Exchanging separators

Two characters that divide statements can be exchanged in words and in trees. What a word does and how
the members of a group are divided is then the same for the other separator.
-/

namespace ScoreScript

/-- Two characters of which one can stand for the other: neither is a bracket or a comma. -/
def Exchangeable (c d : Char) : Prop :=
  c = d ∨ ∀ e, Bracket.isBracket e = true ∨ e = ',' → e ≠ c ∧ e ≠ d

variable {c d : Char} {token : Token}

theorem Exchangeable.kept (fit : Exchangeable c d) {e : Char} (special : Bracket.isBracket e = true ∨ e = ',') :
    Equiv.swap c d e = e := by
  rcases fit with rfl | others
  · rw [Equiv.swap_self, Equiv.refl_apply]
  · exact Equiv.swap_apply_of_ne_of_ne (others e special).1 (others e special).2

/-! ## Words -/

namespace Token

def replace (c d : Char) (token : Token) : Token :=
  if token.isChar c then .ofChar d token.position else token

/-- The token with `d` in place of `c` and the other way round. -/
def exchange (c d : Char) (token : Token) : Token :=
  match token.single? with
  | some e => .ofChar (Equiv.swap c d e) token.position
  | none => token

theorem position_exchange (c d : Char) (token : Token) : (token.exchange c d).position = token.position := by
  unfold exchange
  split <;> rfl

private theorem single_exchange (c d : Char) (token : Token) :
    (token.exchange c d).single? = token.single?.map (Equiv.swap c d) := by
  unfold exchange
  split
  · next single => rw [single?_ofChar, single, Option.map_some]
  · next single => rw [single, Option.map_none]

theorem isChar_exchange (e : Char) (token : Token) :
    (token.exchange c d).isChar (Equiv.swap c d e) = token.isChar e := by
  rw [isChar, single_exchange, isChar]
  cases token.single? <;> simp

theorem isChar_exchange_separator (c d : Char) (token : Token) : (token.exchange c d).isChar d = token.isChar c := by
  rw [← isChar_exchange c token, Equiv.swap_apply_left]

theorem isChar_exchange_kept (fit : Exchangeable c d) {e : Char} (special : Bracket.isBracket e = true ∨ e = ',')
    (token : Token) : (token.exchange c d).isChar e = token.isChar e := by
  rw [← isChar_exchange e token, fit.kept special]

theorem exchange_of_isChar {e : Char} (isChar : token.isChar e = true) :
    token.exchange c d = .ofChar (Equiv.swap c d e) token.position := by
  rw [Token.isChar, beq_iff_eq] at isChar
  rw [exchange, isChar]

theorem exchange_of_other (other : token.isChar c = false) (other' : token.isChar d = false) :
    token.exchange c d = token := by
  cases single : token.single? with
  | none => rw [exchange, single]
  | some e =>
    have isChar := isChar_of_single single
    rw [exchange_of_isChar isChar, Equiv.swap_apply_of_ne_of_ne]
    · exact congrArg (Token.mk · _) (text_of_isChar isChar).symm
    · rintro rfl
      simp [other] at isChar
    · rintro rfl
      simp [other'] at isChar

theorem exchange_self (c : Char) (token : Token) : token.exchange c c = token := by
  by_cases isChar : token.isChar c = true
  · rw [exchange_of_isChar isChar, Equiv.swap_self]
    exact congrArg (Token.mk · _) (text_of_isChar isChar).symm
  · rw [Bool.not_eq_true] at isChar
    exact exchange_of_other isChar isChar

theorem text_exchange {word : String} (long : word.toList.length ≠ 1) (token : Token) :
    (token.exchange c d).text = word ↔ token.text = word := by
  have short {e : Char} : String.ofList [e] ≠ word := by
    rintro rfl
    simp at long
  unfold exchange
  split
  · next single =>
      rw [text_of_isChar (isChar_of_single single)]
      exact iff_of_false short short
  · rfl

end Token

def Role.exchange (c d : Char) : Role → Role
  | separates e => separates (Equiv.swap c d e)
  | opens bracket => opens bracket
  | closes bracket => closes bracket
  | word => word

theorem Token.role_exchange (fit : Exchangeable c d) (token : Token) :
    (token.exchange c d).role d = (token.role c).exchange c d := by
  have single' := token.single_exchange c d
  cases single : token.single? with
  | none =>
    rw [single] at single'
    simp only [Token.role, single, single', Option.map_none, Role.exchange]
  | some e =>
    rw [single, Option.map_some] at single'
    cases bracket : Bracket.isBracket e with
    | true =>
      rw [fit.kept (.inl bracket)] at single'
      simp only [Token.role, single, single']
      cases opening : Bracket.ofOpening? e with
      | some => rfl
      | none =>
        cases closing : Bracket.ofClosing? e with
        | some => rfl
        | none => simp [Bracket.isBracket, opening, closing] at bracket
    | false =>
      have plain' : Bracket.isBracket (Equiv.swap c d e) = false := by
        refine Bool.eq_false_iff.mpr (fun special => ?_)
        rw [(Equiv.swap c d).injective (fit.kept (.inl special)), bracket] at special
        cases special
      have divides : (Equiv.swap c d e = d ∨ Equiv.swap c d e = ',') ↔ (e = c ∨ e = ',') := by
        rw [Equiv.swap_apply_eq_iff, Equiv.swap_apply_eq_iff, Equiv.swap_apply_right, fit.kept (.inr rfl)]
      rw [role_of_single single bracket, role_of_single single' plain']
      simp only [divides]
      split <;> rfl

/-! ## Trees -/

namespace Tree

mutual

def map (word : Token → Token) (divide : Divider → Divider) : Tree → Tree
  | leaf token => leaf (word token)
  | group children bracket divider pos =>
      group (mapAll word divide children) bracket (divide divider) pos

def mapAll (word : Token → Token) (divide : Divider → Divider) : List Tree → List Tree
  | [] => []
  | tree :: trees => map word divide tree :: mapAll word divide trees

end

private theorem mapAll_eq (word : Token → Token) (divide : Divider → Divider) (trees : List Tree) :
    mapAll word divide trees = trees.map (map word divide) := by
  induction trees with
  | nil => rfl
  | cons tree trees ih => rw [mapAll, ih, List.map_cons]

/-- The tree with `d` after its statements in place of `c`. -/
def replace (c d : Char) (tree : Tree) : Tree :=
  tree.map id (Divider.replace c d)

def exchange (c d : Char) (tree : Tree) : Tree :=
  tree.map (Token.exchange c d) (Divider.replace c d)

theorem position_exchange (tree : Tree) : (tree.exchange c d).position = tree.position := by
  cases tree with
  | leaf token => exact Token.position_exchange c d token
  | group => rfl

theorem isGroup_exchange (tree : Tree) : (tree.exchange c d).isGroup = tree.isGroup := by
  cases tree <;> rfl

mutual

theorem map_id (tree : Tree) : tree.map id id = tree := by
  match tree with
  | leaf token => rfl
  | group children bracket divider pos =>
    exact congrArg (group · bracket divider pos) (mapAll_id children)

private theorem mapAll_id (trees : List Tree) : mapAll id id trees = trees := by
  match trees with
  | [] => rfl
  | tree :: trees => exact congrArg₂ List.cons (map_id tree) (mapAll_id trees)

end

theorem exchange_self (tree : Tree) : tree.exchange c c = tree := by
  have words : Token.exchange c c = id := funext (Token.exchange_self c)
  have dividers : Divider.replace c c = id := funext (Divider.replace_self c)
  rw [exchange, words, dividers, map_id]

theorem ofChildren_exchange (children : List Tree) (bracket : Bracket) (divider : Divider) (pos : Position) :
    ofChildren (children.map (exchange c d)) bracket (divider.replace c d) pos =
      (ofChildren children bracket divider pos).exchange c d := by
  have whole (divider : Divider) (place : Position) : (group children bracket divider place).exchange c d =
      group (children.map (exchange c d)) bracket (divider.replace c d) place := by
    rw [exchange, map, mapAll_eq]
    rfl
  cases bracket with
  | paren | brace | square => exact (whole divider pos).symm
  | line =>
    cases children with
    | nil => cases divider <;> exact (whole _ pos).symm
    | cons first rest =>
      have start := @position_exchange c d first
      cases divider with
      | comma | statement => exact (congrArg _ start).trans (whole _ first.position).symm
      | space =>
        cases first with
        | group => exact (congrArg _ start).trans (whole _ _).symm
        | leaf token =>
          cases rest with
          | nil => rfl
          | cons => exact (congrArg _ start).trans (whole _ _).symm

end Tree

end ScoreScript
