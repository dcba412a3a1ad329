import Mathlib.Data.Nat.Digits.Lemmas
import ScoreScript.Proofs.Names
import ScoreScript.Proofs.ScopeOperations

/-!
# Numerals

Numbers of any size and their numerals in base 62 determine each other. So the names that a scope draws,
which count up from its counter, are all different.
-/

namespace ScoreScript

open List

namespace Base62

/-- Digits without a zero in front, except for zero itself. -/
structure IsNumeral (digits : List Char) : Prop where
  nonempty : digits ≠ []
  inside : ∀ c ∈ digits, c ∈ alphabet
  leading : digits.head? = some '0' → digits = ['0']

theorem digitValue_lt {c : Char} (inside : c ∈ alphabet) : digitValue c < 62 :=
  alphabet_length ▸ idxOf_lt_length_of_mem inside

private theorem digit_digitValue {c : Char} (inside : c ∈ alphabet) : digit (digitValue c) = c := by
  have bound := idxOf_lt_length_of_mem inside
  rw [digitValue, digit_eq_getElem bound, getElem_idxOf bound]

theorem isNumeral_digits (n : Nat) : IsNumeral (digits n) := by
  rcases Nat.eq_zero_or_pos n with rfl | positive
  · exact ⟨cons_ne_nil _ _, fun _ => mem_alphabet_of_mem_digits, fun _ => rfl⟩
  · have written : Nat.digits 62 n ≠ [] := Nat.digits_ne_nil_iff_ne_zero.mpr positive.ne'
    refine ⟨by simpa [digits_eq positive] using written, fun _ => mem_alphabet_of_mem_digits, fun zero => ?_⟩
    -- The digit in front stands for no zero, and only a zero is written as one.
    rw [digits_eq positive, head?_reverse, getLast?_map, getLast?_eq_some_getLast written,
      Option.map_some, Option.some_inj] at zero
    have small := Nat.digits_lt_base (by decide : 1 < 62) (getLast_mem written)
    exact absurd ((digitValue_digit small).symm.trans (congrArg digitValue zero))
      (Nat.getLast_digit_ne_zero 62 positive.ne')

theorem IsNumeral.digits_value {numeral : List Char} (isNumeral : IsNumeral numeral) :
    digits (value numeral) = numeral := by
  cases numeral with
  | nil => exact absurd rfl isNumeral.nonempty
  | cons first rest =>
    by_cases zero : digitValue first = 0
    · have isZero : first = '0' :=
        (digit_digitValue (isNumeral.inside first (by simp))).symm.trans (congrArg digit zero)
      rw [isNumeral.leading (congrArg some isZero)]
      rfl
    · have read : Nat.digits 62 (value (first :: rest)) = (first :: rest).reverse.map digitValue := by
        rw [value_eq_ofDigits]
        refine Nat.digits_ofDigits 62 (by decide) _ ?_ (by simpa using zero)
        intro d mem
        obtain ⟨c, inside, rfl⟩ := mem_map.mp mem
        exact digitValue_lt (isNumeral.inside c (mem_reverse.mp inside))
      have written : ((first :: rest).reverse.map digitValue).map digit = (first :: rest).reverse := by
        rw [map_map]
        refine (map_congr_left (fun c mem => ?_)).trans (map_id _)
        exact digit_digitValue (isNumeral.inside c (mem_reverse.mp mem))
      have positive : 0 < value (first :: rest) := by
        refine Nat.pos_of_ne_zero (fun none => ?_)
        simp [none] at read
      rw [digits_eq positive, read, written, reverse_reverse]

end Base62

namespace ScopeTree

open Fault

/-- Names that one scope draws one after another. -/
def drawNames (id : ScopeId) (namePrefix : String) : Nat → Edit (List String)
  | 0 => return []
  | count + 1 => do
      let name ← nextAnonymous id namePrefix
      return name :: (← drawNames id namePrefix count)

private theorem run_drawNames {tree : ScopeTree} {id : ScopeId} {scope : Scope} (found : tree.scopes[id]? = some scope)
    (namePrefix : String) (count : Nat) : ((drawNames id namePrefix count).run.run tree).1 =
      .ok ((range' scope.drawn count).map (namePrefix ++ Base62.render ·)) := by
  induction count generalizing tree scope with
  | zero => rfl
  | succ count ih =>
    let drawn := tree.draw id (namePrefix ++ Base62.render scope.drawn)
    have found' : drawn.scopes[id]? = some { scope with drawn := scope.drawn + 1 } :=
      (scopes_modifyScope tree id id _).trans ((if_pos rfl).trans (congrArg (Option.map _) found))
    have later := ih found'
    rw [drawNames, run_bind_ok (run_nextAnonymous found namePrefix), run_bind, range'_succ, map_cons]
    cases ran : (drawNames id namePrefix count).run.run drawn with
    | mk names tree' =>
      rw [ran] at later
      cases later
      rfl

end ScopeTree

namespace Base62

open ScopeTree

theorem render_eq_iff {n : Nat} {text : String} : render n = text ↔ IsNumeral text.toList ∧ value text.toList = n := by
  rw [render, ← String.toList_inj, String.toList_ofList]
  constructor
  · rintro written
    exact written ▸ ⟨isNumeral_digits n, value_digits n⟩
  · rintro ⟨isNumeral, rfl⟩
    exact isNumeral.digits_value

private theorem nodup_rendered (namePrefix : String) {counters : List Nat} (increasing : counters.Pairwise (· < ·)) :
    (counters.map (namePrefix ++ render ·)).Nodup := by
  refine List.Nodup.map (fun a b same => render_injective ?_) (increasing.imp Nat.ne_of_lt)
  exact (String.append_right_inj namePrefix).mp same

/-- The numeral of a number is the only text of digits with no zero in front that denotes it, and names
that are drawn from a counter as it grows are all different. -/
theorem render_canonical :
    (∀ (n : Nat) (text : String), render n = text ↔ IsNumeral text.toList ∧ value text.toList = n) ∧
      Function.Injective render ∧
      (∀ (namePrefix : String) (counters : List Nat), counters.Pairwise (· < ·) →
        (counters.map (namePrefix ++ render ·)).Nodup) ∧
      ∀ (tree : ScopeTree) (id : ScopeId) (scope : Scope) (namePrefix : String) (count : Nat),
        tree.scopes[id]? = some scope →
          ∃ names, ((drawNames id namePrefix count).run.run tree).1 = .ok names ∧ names.Nodup ∧
            names = (range' scope.drawn count).map (namePrefix ++ render ·) := by
  refine ⟨fun _ _ => render_eq_iff, fun _ _ => render_injective, fun namePrefix _ => nodup_rendered namePrefix, ?_⟩
  intro tree id scope namePrefix count found
  refine ⟨_, run_drawNames found namePrefix count, nodup_rendered namePrefix ?_, rfl⟩
  exact pairwise_lt_range'

/-- The largest counter that fits into 64 bits. -/
theorem render_canonical_last : render (2 ^ 64 - 1) = "lYGhA16ahyf" := by
  have inside : "lYGhA16ahyf".toList.all alphabet.contains = true := by rfl
  refine (render_canonical.1 _ _).mpr ⟨⟨by decide, fun c mem => ?_, by decide⟩, by decide⟩
  exact contains_iff_mem.mp (all_eq_true.mp inside c mem)

end Base62

end ScoreScript
