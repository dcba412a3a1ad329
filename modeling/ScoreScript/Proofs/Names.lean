import Mathlib.Data.Nat.Digits.Defs
import ScoreScript.Compile.Declare

/-!
# Names that never coincide

Generated names count in base 62, and the holder of a register is the path of a scope written with
dots. Counting is injective, a generated name is no name that a script may declare, and paths of
dot-free segments below one entry have different holders.
-/

namespace ScoreScript

open List

namespace Base62

private theorem alphabet_nodup : alphabet.Nodup := by decide +kernel

theorem alphabet_length : alphabet.length = 62 := by rfl

private theorem isAlphanum_of_mem_alphabet : ∀ c ∈ alphabet, c.isAlphanum = true :=
  all_eq_true.mp (by rfl)

theorem utf8Size_of_mem_alphabet (c : Char) (mem : c ∈ alphabet) : c.utf8Size = 1 := by
  have single : alphabet.all (fun c => c.utf8Size == 1) = true := by rfl
  exact beq_iff_eq.mp (all_eq_true.mp single c mem)

def digitValue (c : Char) : Nat :=
  alphabet.idxOf c

def value (digits : List Char) : Nat :=
  digits.foldl (fun total c => total * 62 + digitValue c) 0

variable {n : Nat}

theorem digit_eq_getElem (bound : n < alphabet.length) : digit n = alphabet[n] := by
  simp [digit, getD_eq_getElem?_getD, getElem?_eq_getElem bound]

theorem digit_mem (small : n < 62) : digit n ∈ alphabet := by
  have bound : n < alphabet.length := alphabet_length ▸ small
  rw [digit_eq_getElem bound]
  exact getElem_mem bound

theorem digitValue_digit (small : n < 62) : digitValue (digit n) = n := by
  have bound : n < alphabet.length := alphabet_length ▸ small
  rw [digitValue, digit_eq_getElem bound]
  exact alphabet_nodup.idxOf_getElem n bound

theorem value_eq_ofDigits (digits : List Char) : value digits = Nat.ofDigits 62 (digits.reverse.map digitValue) := by
  rw [value, Nat.ofDigits_eq_foldr, foldr_map, foldr_reverse]
  simp only [Nat.cast_id, Nat.mul_comm 62, Nat.add_comm (digitValue _)]

private theorem digitsFrom_eq (bound n : Nat) (suffix : List Char) (positive : 0 < n) (enough : n < bound) :
    digitsFrom bound n suffix = ((Nat.digits 62 n).map digit).reverse ++ suffix := by
  induction bound generalizing n suffix with
  | zero => omega
  | succ bound ih =>
    rw [digitsFrom, Nat.digits_def' (by decide) positive]
    split
    · next small => simp [small]
    · next large => simp [ih (n / 62) _ (Nat.pos_of_ne_zero large) (by omega)]

theorem digits_eq (positive : 0 < n) : digits n = ((Nat.digits 62 n).map digit).reverse := by
  rw [digits, digitsFrom_eq _ n [] positive (Nat.lt_succ_self n), append_nil]

theorem mem_alphabet_of_mem_digits {c : Char} (mem : c ∈ digits n) : c ∈ alphabet := by
  rcases Nat.eq_zero_or_pos n with rfl | positive
  · exact mem_singleton.mp mem ▸ digit_mem (by decide)
  · rw [digits_eq positive, mem_reverse, mem_map] at mem
    obtain ⟨d, inside, rfl⟩ := mem
    exact digit_mem (Nat.digits_lt_base (by decide) inside)

theorem value_digits (n : Nat) : value (digits n) = n := by
  rcases Nat.eq_zero_or_pos n with rfl | positive
  · rfl
  · have read : ((Nat.digits 62 n).map digit).map digitValue = Nat.digits 62 n := by
      rw [map_map]
      refine map_congr_left (fun d inside => ?_) |>.trans (map_id _)
      exact digitValue_digit (Nat.digits_lt_base (by decide) inside)
    rw [value_eq_ofDigits, digits_eq positive, reverse_reverse, read, Nat.ofDigits_digits]

theorem render_injective {a b : Nat} (same : render a = render b) : a = b := by
  have digitsSame : digits a = digits b := by
    have lists := congrArg String.toList same
    simpa [render] using lists
  rw [← value_digits a, ← value_digits b, digitsSame]

theorem isAlphanum_of_mem_digits {c : Char} (mem : c ∈ digits n) : c.isAlphanum = true :=
  isAlphanum_of_mem_alphabet c (mem_alphabet_of_mem_digits mem)

end Base62

/-! ## Segments of a path -/

def isWordChar (c : Char) : Bool :=
  c.isAlphanum || c == '_'

/-- A text that can be one segment of a path and of a holder, and one word of a script. -/
structure IsSegment (name : String) : Prop where
  nonempty : name.toList ≠ []
  word : ∀ c ∈ name.toList, isWordChar c = true

theorem IsSegment.of_all {name : String} (nonempty : name.toList.isEmpty = false)
    (word : name.toList.all isWordChar = true) : IsSegment name :=
  ⟨isEmpty_eq_false_iff.mp nonempty, all_eq_true.mp word⟩

theorem IsSegment.dotless {name : String} (segment : IsSegment name) : '.' ∉ name.toList :=
  fun dot => absurd (segment.word '.' dot) (by decide)

theorem IsSegment.slashless {name : String} (segment : IsSegment name) : '/' ∉ name.toList :=
  fun slash => absurd (segment.word '/' slash) (by decide)

theorem dotted_intercalate (segments : List String) (plain : ∀ segment ∈ segments, '/' ∉ segment.toList) :
    ("/".intercalate segments).toList.map (fun c => if c = '/' then '.' else c) =
      ['.'].intercalate (segments.map String.toList) := by
  have kept : ∀ segment ∈ segments, segment.toList.map (fun c => if c = '/' then '.' else c) = segment.toList := by
    intro segment mem
    refine (map_congr_left ?_).trans (map_id _)
    intro c inside
    have other : c ≠ '/' := fun same => plain segment mem (same ▸ inside)
    simp [other]
  rw [String.toList_intercalate]
  induction segments with
  | nil => rfl
  | cons first rest ih =>
    cases rest with
    | nil => simpa using kept first (by simp)
    | cons second rest =>
      have tail := ih (fun segment mem => plain segment (mem_cons_of_mem _ mem))
        (fun segment mem => kept segment (mem_cons_of_mem _ mem))
      have head := kept first (by simp)
      simp only [map_cons, intercalate_cons_cons, map_append] at tail ⊢
      rw [head, tail]
      rfl

theorem intercalate_concat (joint : Char) (segments : List (List Char)) (last : List Char) (there : segments ≠ []) :
    [joint].intercalate (segments ++ [last]) = [joint].intercalate segments ++ joint :: last := by
  induction segments with
  | nil => exact absurd rfl there
  | cons first rest ih =>
    cases rest with
    | nil => simp
    | cons second rest =>
      have tail := ih (by simp)
      simp only [cons_append] at tail ⊢
      rw [intercalate_cons_cons, tail, intercalate_cons_cons]
      simp

theorem intercalate_dot_injective {entry : List Char} {left right : List (List Char)}
    (leftPlain : ∀ segment ∈ left, '.' ∉ segment) (rightPlain : ∀ segment ∈ right, '.' ∉ segment)
    (leftThere : left ≠ []) (rightThere : right ≠ [])
    (same : ['.'].intercalate (entry :: left) = ['.'].intercalate (entry :: right)) : left = right := by
  rw [intercalate_cons_of_ne_nil leftThere, intercalate_cons_of_ne_nil rightThere] at same
  have tails : ['.'].intercalate left = ['.'].intercalate right := by simpa using same
  rw [← splitOn_intercalate '.' leftPlain leftThere, ← splitOn_intercalate '.' rightPlain rightThere, tails]

/-! ## Generated names -/

namespace Config

def generatedName (config : Config) (n : Nat) : String :=
  config.anonymousPrefix ++ Base62.render n

def isGenerated (config : Config) (name : String) : Bool :=
  config.anonymousPrefix.toList.isPrefixOf name.toList

theorem generatedName_injective (config : Config) {m n : Nat}
    (same : config.generatedName m = config.generatedName n) : m = n := by
  have lists := congrArg String.toList same
  simp only [generatedName, String.toList_append, append_cancel_left_eq] at lists
  exact Base62.render_injective (String.toList_injective lists)

theorem isGenerated_generatedName (config : Config) (n : Nat) : config.isGenerated (config.generatedName n) = true := by
  simp [isGenerated, generatedName]

structure Usable (config : Config) : Prop where
  nameSpace : isPathSegment config.nameSpace = true
  entry : isPathSegment config.entry = true
  entryFree : phaseFunctions.contains config.entry = false
  objective : isRegisterObjective config.registerObjective = true
  separator : isSeparator config.separator = true
  anonymousPrefix : isAnonymousPrefix config.anonymousPrefix = true

private theorem of_check {broken : Bool} {fault : ConfigFault} {next : Except ConfigFault Unit}
    (passed : (do
      if broken then throw fault
      next) = .ok ()) : broken = false ∧ next = .ok () := by
  cases broken with
  | true => cases passed
  | false => exact ⟨rfl, passed⟩

theorem Valid.usable {config : Config} (valid : config.Valid) : config.Usable := by
  unfold Valid validate at valid
  obtain ⟨nameSpace, valid⟩ := of_check valid
  obtain ⟨entry, valid⟩ := of_check valid
  obtain ⟨objective, valid⟩ := of_check valid
  obtain ⟨sep, valid⟩ := of_check valid
  have anonymousPrefix : (!isAnonymousPrefix config.anonymousPrefix) = false := by
    split at valid
    · cases valid
    · next holds => simpa using holds
  obtain ⟨isEntry, entryFree⟩ := Bool.or_eq_false_iff.mp entry
  rw [Bool.not_eq_false'] at nameSpace isEntry objective sep anonymousPrefix
  exact ⟨nameSpace, isEntry, entryFree, objective, sep, anonymousPrefix⟩

theorem isSegment_generatedName (config : Config) (usable : config.Usable) (n : Nat) :
    IsSegment (config.generatedName n) := by
  have rule := usable.anonymousPrefix
  simp only [isAnonymousPrefix, Bool.and_eq_true, Bool.not_eq_true', isEmpty_eq_false_iff,
    all_eq_true] at rule
  refine ⟨?_, ?_⟩
  · simp only [generatedName, String.toList_append]
    exact append_ne_nil_of_left_ne_nil rule.1 _
  · intro c mem
    simp only [generatedName, String.toList_append, mem_append, Base62.render, String.toList_ofList] at mem
    rcases mem with inside | inside
    · exact rule.2 c inside
    · simp [isWordChar, Base62.isAlphanum_of_mem_digits inside]

end Config

end ScoreScript
