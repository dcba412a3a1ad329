import ScoreScript.Proofs.Compile.Sound

/-!
# Registers and paths

In a sound state a scope is known by its path, and a variable by the register of its name: neither
two paths nor two registers are the same after their segments are joined.
-/

namespace ScoreScript.State

open List

open ScopeTree

variable {s : State}

section

variable (sound : s.Sound) (usable : s.config.Usable)
include sound usable

theorem Sound.segments_child {id : Nat} {scope : Scope} (found : s.scopes.scopes[id]? = some scope)
    (positive : 0 < id) : ∃ outer : Nat, scope.parent = some outer ∧ outer < id ∧
      s.scopes.segments id = s.scopes.segments outer ++ [scope.name] := by
  obtain ⟨outer, parent, below⟩ := sound.rooted.parent id scope found positive
  have named : scope.name ≠ "" := by
    rcases Nat.eq_zero_or_pos outer with rfl | inner
    · rw [(sound.entry id scope found parent).2]
      rintro empty
      have rule := usable.entry
      simp [Config.isPathSegment, empty] at rule
    · rintro empty
      exact (sound.segment id outer scope found parent inner).1 (by simp [empty])
  exact ⟨outer, parent, below, segments_of_parent sound.rooted found parent below named⟩

theorem Sound.segments_entry {id : Nat} (inside : id < s.scopes.size) (positive : 0 < id) :
    ∃ rest, s.scopes.segments id = s.config.entry :: rest ∧ ∀ name ∈ rest, IsSegment name := by
  induction id using Nat.strongRecOn with
  | ind id ih =>
    obtain ⟨scope, found⟩ := exists_of_lt_size inside
    obtain ⟨outer, parent, below, joined⟩ := sound.segments_child usable found positive
    rcases Nat.eq_zero_or_pos outer with rfl | inner
    · refine ⟨[], ?_, by simp⟩
      rw [joined, segments_root sound.rooted, (sound.entry id scope found parent).2]
      rfl
    · obtain ⟨rest, around, plain⟩ := ih outer below (Nat.lt_trans below inside) inner
      refine ⟨rest ++ [scope.name], by rw [joined, around]; rfl, ?_⟩
      intro name mem
      rcases mem_append.mp mem with old | new
      · exact plain name old
      · rw [mem_singleton.mp new]
        exact sound.segment id outer scope found parent inner

theorem Sound.segments_injective {a b : Nat} (insideLeft : a < s.scopes.size) (insideRight : b < s.scopes.size)
    (same : s.scopes.segments a = s.scopes.segments b) : a = b := by
  induction a using Nat.strongRecOn generalizing b with
  | ind a ih =>
    obtain ⟨left, foundLeft⟩ := exists_of_lt_size insideLeft
    obtain ⟨right, foundRight⟩ := exists_of_lt_size insideRight
    rcases Nat.eq_zero_or_pos a with rfl | positiveLeft <;>
      rcases Nat.eq_zero_or_pos b with rfl | positiveRight
    · rfl
    · obtain ⟨_, _, _, joined⟩ := sound.segments_child usable foundRight positiveRight
      rw [segments_root sound.rooted, joined] at same
      simp at same
    · obtain ⟨_, _, _, joined⟩ := sound.segments_child usable foundLeft positiveLeft
      rw [segments_root sound.rooted, joined] at same
      simp at same
    · obtain ⟨outerLeft, parentLeft, belowLeft, joinedLeft⟩ :=
        sound.segments_child usable foundLeft positiveLeft
      obtain ⟨outerRight, parentRight, belowRight, joinedRight⟩ :=
        sound.segments_child usable foundRight positiveRight
      rw [joinedLeft, joinedRight] at same
      obtain ⟨around, names⟩ := append_inj' same rfl
      have parents : outerLeft = outerRight :=
        ih outerLeft belowLeft (Nat.lt_trans belowLeft insideLeft)
          (Nat.lt_trans belowRight insideRight) around
      exact sound.siblings a b left right foundLeft foundRight
        (by rw [parentLeft, parentRight, parents]) (cons.inj names).1

theorem Sound.slashless {id : Nat} (inside : id < s.scopes.size) (name : String)
    (mem : name ∈ s.scopes.segments id) : '/' ∉ name.toList := by
  rcases Nat.eq_zero_or_pos id with rfl | positive
  · rw [segments_root sound.rooted] at mem
    cases mem
  · obtain ⟨rest, segments, plain⟩ := sound.segments_entry usable inside positive
    rw [segments] at mem
    rcases mem_cons.mp mem with rfl | later
    · intro slash
      have rule := usable.entry
      simp only [Config.isPathSegment, Bool.and_eq_true, all_eq_true] at rule
      exact absurd (rule.2 '/' slash) (by decide)
    · exact (plain name later).slashless

theorem Sound.path_injective {a b : Nat} (insideLeft : a < s.scopes.size) (insideRight : b < s.scopes.size)
    (positiveLeft : 0 < a) (positiveRight : 0 < b)
    (same : "/".intercalate (s.scopes.segments a) = "/".intercalate (s.scopes.segments b)) : a = b := by
  obtain ⟨_, joinedLeft, _⟩ := sound.segments_entry usable insideLeft positiveLeft
  obtain ⟨_, joinedRight, _⟩ := sound.segments_entry usable insideRight positiveRight
  have plain : ∀ {id : Nat}, id < s.scopes.size →
      ∀ segment ∈ (s.scopes.segments id).map String.toList, '/' ∉ segment := by
    intro id inside segment mem
    obtain ⟨name, isName, rfl⟩ := mem_map.mp mem
    exact sound.slashless usable inside name isName
  have lists := congrArg String.toList same
  rw [String.toList_intercalate, String.toList_intercalate] at lists
  have slash : "/".toList = ['/'] := rfl
  rw [slash] at lists
  have split := congrArg (splitOn '/') lists
  rw [splitOn_intercalate '/' (plain insideLeft) (by simp [joinedLeft]),
    splitOn_intercalate '/' (plain insideRight) (by simp [joinedRight])] at split
  exact sound.segments_injective usable insideLeft insideRight
    ((map_inj_right (fun _ _ equal => String.toList_injective equal)).mp split)

theorem Sound.holder_registerAt {id : Nat} (inside : id < s.scopes.size) (positive : 0 < id) (name : String) :
    (s.registerAt id name).holder.toList = ['.'].intercalate ((s.scopes.segments id ++ [name]).map String.toList) := by
  obtain ⟨rest, joined, _⟩ := sound.segments_entry usable inside positive
  have there : ("/".intercalate (s.scopes.segments id)).isEmpty = false := by
    have entry : s.config.entry.toList ≠ [] := by
      have rule := usable.entry
      simp only [Config.isPathSegment, Bool.and_eq_true, Bool.not_eq_true', isEmpty_eq_false_iff] at rule
      exact rule.1
    rw [← Bool.not_eq_true, String.isEmpty_iff, joined]
    intro empty
    have lists := congrArg String.toList empty
    rw [String.toList_intercalate] at lists
    cases rest with
    | nil => exact entry (by simpa using lists)
    | cons next rest =>
      rw [map_cons, map_cons, intercalate_cons_cons] at lists
      simp at lists
  have more : (s.scopes.segments id).map String.toList ≠ [] := by simp [joined]
  simp only [registerAt, there, Bool.false_eq_true, if_false, String.toList_append,
    String.toList_ofList, dotted_intercalate _ (sound.slashless usable inside), map_append,
    map_cons, map_nil]
  rw [intercalate_concat '.' _ _ more]
  simp

theorem Sound.registerAt_injective {a b : Nat} {left right : String} (insideLeft : a < s.scopes.size)
    (insideRight : b < s.scopes.size) (positiveLeft : 0 < a) (positiveRight : 0 < b) (segmentLeft : IsSegment left)
    (segmentRight : IsSegment right) (same : s.registerAt a left = s.registerAt b right) : a = b ∧ left = right := by
  obtain ⟨restLeft, joinedLeft, plainLeft⟩ := sound.segments_entry usable insideLeft positiveLeft
  obtain ⟨restRight, joinedRight, plainRight⟩ :=
    sound.segments_entry usable insideRight positiveRight
  have holders := congrArg (fun reg => reg.holder.toList) same
  simp only [sound.holder_registerAt usable insideLeft positiveLeft,
    sound.holder_registerAt usable insideRight positiveRight, joinedLeft, joinedRight,
    cons_append, map_cons] at holders
  have dotless : ∀ {rest : List String} {name : String}, (∀ name ∈ rest, IsSegment name) →
      IsSegment name → ∀ segment ∈ (rest ++ [name]).map String.toList, '.' ∉ segment := by
    intro rest name plain last segment mem
    obtain ⟨text, isText, rfl⟩ := mem_map.mp mem
    rcases mem_append.mp isText with old | new
    · exact (plain text old).dotless
    · rw [mem_singleton.mp new]
      exact last.dotless
  have tails := intercalate_dot_injective (dotless plainLeft segmentLeft)
    (dotless plainRight segmentRight) (by simp) (by simp) holders
  have lists := (map_inj_right (fun _ _ equal => String.toList_injective equal)).mp tails
  obtain ⟨rests, names⟩ := append_inj' lists rfl
  refine ⟨sound.segments_injective usable insideLeft insideRight ?_, (cons.inj names).1⟩
  rw [joinedLeft, joinedRight, rests]

theorem Sound.register_injective {i j : Nat} {left right : Variable}
    (isLeft : s.vars[i]? = some left) (isRight : s.vars[j]? = some right)
    (same : s.registerAt left.scope left.name = s.registerAt right.scope right.name) : i = j := by
  obtain ⟨positiveLeft, segmentLeft, boundLeft⟩ := sound.declared i left isLeft
  obtain ⟨positiveRight, segmentRight, boundRight⟩ := sound.declared j right isRight
  obtain ⟨scopes, names⟩ := sound.registerAt_injective usable (sound.scopeOf isLeft)
    (sound.scopeOf isRight) positiveLeft positiveRight segmentLeft segmentRight same
  rw [scopes, names, boundRight] at boundLeft
  exact (Option.some.inj boundLeft).symm

end

end ScoreScript.State
