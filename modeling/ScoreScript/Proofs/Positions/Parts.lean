import ScoreScript.Proofs.Compile.Statements

/-!
# Parts of statements, whatever the positions

Sequences of trees that differ in positions only are split at the same places, and their words are
read in the same way.
-/

namespace ScoreScript

open List

variable {place : Position → Position → Prop}

/-! ## Positions that stay -/

abbrev Stays (place : Position → Position → Prop) : Prop :=
  ∀ p q, place p q → p = q

theorem Token.Same.eq (stays : Stays place) {token other : Token} (same : token.Same place other) : token = other := by
  obtain ⟨text, p⟩ := token
  obtain ⟨text', q⟩ := other
  cases same.1
  cases stays p q same.2
  rfl

theorem Token.Sames.eq (stays : Stays place) {tokens others : List Token}
    (same : Token.Sames place tokens others) : tokens = others :=
  forall₂_eq_eq_eq ▸ same.imp (fun _ _ same => same.eq stays)

namespace Tree

mutual

theorem Same.eq (stays : Stays place) {a b : Tree} (same : Same place a b) : a = b := by
  match a, b, same with
  | leaf _, leaf _, .leaf text placed => rw [Token.Same.eq stays ⟨text, placed⟩]
  | group _ _ _ _, group _ _ _ _, .group inner _ _ placed =>
    rw [Sames.eq stays inner, stays _ _ placed]

theorem Sames.eq (stays : Stays place) {trees others : List Tree} (same : Sames place trees others) :
    trees = others := by
  match trees, others, same with
  | [], [], .nil => rfl
  | _ :: _, _ :: _, .cons head tail => rw [Same.eq stays head, Sames.eq stays tail]

end

end Tree

theorem Layout.Same.eq (stays : Stays place) {layout layout' : Layout}
    (same : layout.Same place layout') : layout = layout' := by
  obtain ⟨src, sep⟩ := layout
  obtain ⟨source', separator'⟩ := layout'
  cases same.separator
  cases stays _ _ same.origin
  rfl

/-! ## Words -/

namespace Tree

variable {tree other : Tree}

theorem Same.asLeaf (same : Same place tree other) : Concur place (Token.Same place) tree.asLeaf other.asLeaf := by
  have shown := same.shown
  cases same with
  | leaf text placed => exact .ok ⟨text, placed⟩
  | group _ _ _ placed => exact .error ⟨by rw [shown], .inl placed⟩

theorem Same.asChildren (same : Same place tree other) :
    Concur place (Sames place) tree.asChildren other.asChildren := by
  cases same with
  | leaf text placed => exact .error ⟨by rw [text], .inl placed⟩
  | group inner => exact .ok inner

theorem Same.operatorOf (same : Same place tree other) :
    Concur place (fun a b => a.1 = b.1 ∧ place a.2 b.2 ∧ tree.size = 1) (Engine.operatorOf tree)
      (Engine.operatorOf other) := by
  have rendered := same.render
  cases same with
  | leaf text placed =>
    rw [Engine.operatorOf, Engine.operatorOf, text]
    split
    · exact .ok ⟨rfl, placed, rfl⟩
    · exact .fail _ placed
  | group _ _ _ placed => exact .error ⟨by rw [rendered], .inl placed⟩

theorem Sames.isEmpty {trees others : List Tree} (same : Sames place trees others) :
    trees.isEmpty = others.isEmpty := by
  cases same <;> rfl

theorem Sames.startOf {trees others : List Tree} (same : Sames place trees others) {p q : Position}
    (placed : place p q) : place (Engine.startOf trees p) (Engine.startOf others q) := by
  cases same with
  | nil => exact placed
  | cons head => exact head.position

theorem size_of_isWord {text : String} (isWord : tree.isWord text = true) : tree.size = 1 := by
  obtain ⟨token, rfl, _⟩ := isWord_eq isWord
  rfl

end Tree

namespace Engine

open Compile
open Tree (Same Sames)

/-! ## Splitting -/

def SameParts (place : Position → Position → Prop) (a b : List Tree × Tree × List Tree) : Prop :=
  Sames place a.1 b.1 ∧ Same place a.2.1 b.2.1 ∧ Sames place a.2.2 b.2.2

section Splits

variable {items others : List Tree}

section

variable (same : Sames place items others)
include same

theorem splitAfter_same {previous previous' : Tree} (before : Same place previous previous') (level : Nat) :
    Option.Rel (SameParts place) (splitAfter level previous items) (splitAfter level previous' others) := by
  induction same generalizing previous previous' with
  | nil => exact .none
  | @cons tree other trees others first rest ih =>
    have later := ih first
    rw [splitAfter, splitAfter]
    generalize splitAfter level tree trees = parts at later
    generalize splitAfter level other others = parts' at later
    cases later with
    | some parts => exact .some ⟨.cons first parts.1, parts.2⟩
    | none =>
      have binary : isBinary level tree = isBinary level other := by
        rw [isBinary, first.word?, isBinary]
      have prefixed : isOperator previous = isOperator previous' := by
        rw [isOperator, before.word?, isOperator]
      dsimp only
      rw [binary, prefixed]
      split
      · exact .some ⟨.nil, first, rest⟩
      · exact .none

theorem splitBinary_same (level : Nat) :
    Option.Rel (SameParts place) (splitBinary level items) (splitBinary level others) := by
  cases same with
  | nil => exact .none
  | @cons tree other trees others first rest =>
    have later := splitAfter_same rest first level
    rw [splitBinary, splitBinary]
    generalize splitAfter level tree trees = parts at later
    generalize splitAfter level other others = parts' at later
    cases later with
    | none => exact .none
    | some parts => exact .some ⟨.cons first parts.1, parts.2⟩

theorem splitLoosest_same (count level : Nat) :
    Option.Rel (SameParts place) (splitLoosest items count level) (splitLoosest others count level) := by
  induction count generalizing level with
  | zero => exact .none
  | succ count ih =>
    have now := splitBinary_same same level
    rw [splitLoosest, splitLoosest]
    generalize splitBinary level items = parts at now
    generalize splitBinary level others = parts' at now
    cases now with
    | none => exact ih (level + 1)
    | some parts => exact .some parts

theorem splitAssignment_same : Option.Rel (SameParts place) (splitAssignment items) (splitAssignment others) := by
  induction same with
  | nil => exact .none
  | @cons tree other trees others first rest ih =>
    rw [splitAssignment, splitAssignment, first.isWord]
    split
    · exact .some ⟨.nil, first, rest⟩
    · generalize splitAssignment trees = parts at ih
      generalize splitAssignment others = parts' at ih
      cases ih with
      | none => exact .none
      | some parts => exact .some ⟨.cons first parts.1, parts.2⟩

theorem splitMember_same :
    Option.Rel (fun a b => Sames place a.1 b.1 ∧ Same place a.2 b.2) (splitMember items) (splitMember others) := by
  have back : Sames place items.reverse others.reverse := forall₂_reverse_iff.mpr same
  unfold splitMember
  generalize items.reverse = trees at back
  generalize others.reverse = trees' at back
  obtain _ | ⟨mem, _ | ⟨dot, _ | ⟨base, rest⟩⟩⟩ := back
  · exact .none
  · exact .none
  · exact .none
  dsimp only
  rw [dot.isWord]
  split
  · exact .some ⟨forall₂_reverse_iff.mpr (.cons base rest), mem⟩
  · exact .none

end

end Splits

/-! ## Statements -/

variable {items items' : List Tree}

theorem readModifiers_concur (access : Option Access) (usage : Option Usage) (same : Sames place items items') :
    Concur place (fun a b => a.1 = b.1 ∧ a.2.1 = b.2.1 ∧ Sames place a.2.2 b.2.2 ∧ a.2.2 <:+ items)
      (readModifiers access usage items) (readModifiers access usage items') := by
  induction same generalizing access usage with
  | nil => exact .ok ⟨rfl, rfl, .nil, suffix_refl _⟩
  | @cons first first' rest rest' head tail ih =>
    have later (access : Option Access) (usage : Option Usage) :
        Concur place
          (fun a b => a.1 = b.1 ∧ a.2.1 = b.2.1 ∧ Sames place a.2.2 b.2.2 ∧ a.2.2 <:+ first :: rest)
          (readModifiers access usage rest) (readModifiers access usage rest') :=
      (ih access usage).mono (fun _ _ related => ⟨related.1, related.2.1, related.2.2.1,
        related.2.2.2.trans (suffix_cons first rest)⟩)
    have done : Concur place (fun a b => a.1 = b.1 ∧ a.2.1 = b.2.1 ∧ Sames place a.2.2 b.2.2 ∧ a.2.2 <:+ first :: rest)
        (.ok (access, usage, first :: rest)) (.ok (access, usage, first' :: rest')) :=
      .ok ⟨rfl, rfl, .cons head tail, suffix_refl _⟩
    rw [readModifiers, readModifiers, head.word?]
    cases first'.word? with
    | none => exact done
    | some word =>
      dsimp only
      cases Access.ofWord? word with
      | some found =>
        dsimp only
        split
        · exact .fail _ head.position
        · exact later (some found) usage
      | none =>
        dsimp only
        cases Usage.ofWord? word with
        | some found =>
          dsimp only
          split
          · exact .fail _ head.position
          · exact later access (some found)
        | none => exact done

theorem isBlock_same (same : Sames place items items') : isBlock items = isBlock items' := by
  cases same with
  | nil => rfl
  | cons head tail =>
    cases head with
    | leaf => cases tail <;> rfl
    | group _ bracket => cases tail <;> cases bracket <;> rfl

theorem isDeclaration_same (same : Sames place items items') : isDeclaration items = isDeclaration items' := by
  cases same with
  | nil => rfl
  | cons head tail =>
    simp only [isDeclaration, head.word?]
    cases tail with
    | nil => rfl
    | cons name rest => cases name <;> rfl

end Engine

end ScoreScript
