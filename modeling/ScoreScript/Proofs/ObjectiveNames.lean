import Mathlib.Data.List.Dedup
import Mathlib.Data.List.Nodup
import Mathlib.Data.List.Perm.Subperm
import Mathlib.Data.Nat.Digits.Lemmas
import ScoreScript.Proofs.Compile.Additions
import ScoreScript.Proofs.Registration

/-!
# Names for new objectives

An objective that a script gives no name is numbered in base 62 behind the name space. Every number
that was passed over belongs to an objective in use, so that few digits are needed while few objectives
are; whether the name is accepted depends on the length of the name space, which `Config.validate` does
not bound.
-/

namespace ScoreScript

open List

theorem Base62.length_digits_le {n count : Nat} (small : n < 62 ^ (count + 1)) : (digits n).length ≤ count + 1 := by
  rcases Nat.eq_zero_or_pos n with rfl | positive
  · exact Nat.le_add_left 1 count
  · rwa [digits_eq positive, length_reverse, length_map, Nat.digits_length_le_iff (by decide)]

theorem Base62.utf8ByteSize_render (n : Nat) : (render n).utf8ByteSize = (digits n).length := by
  have sizes (cs : List Char) (single : ∀ c ∈ cs, c.utf8Size = 1) : (String.ofList cs).utf8ByteSize = cs.length := by
    induction cs with
    | nil => rfl
    | cons c cs ih =>
      rw [String.ofList_cons, String.utf8ByteSize_append, String.utf8ByteSize_singleton,
        single c (mem_cons_self ..), ih (fun d mem => single d (mem_cons_of_mem c mem)),
        length_cons, Nat.add_comm]
  exact sizes _ (fun c mem => utf8Size_of_mem_alphabet c (mem_alphabet_of_mem_digits mem))

namespace Compile

private theorem objectiveId_injective (nameSpace : String) : Function.Injective (objectiveId nameSpace) := by
  intro m n same
  have lists := congrArg String.toList same
  simp only [objectiveId, String.toList_append, append_cancel_left_eq] at lists
  exact UInt64.toNat_inj.mp (Base62.render_injective (String.toList_injective lists))

theorem isObjectiveId_objectiveId {nameSpace : String} (segment : Config.isPathSegment nameSpace = true) (n : UInt64) :
    isObjectiveId (objectiveId nameSpace n) = decide (nameSpace.utf8ByteSize + 1 + (Base62.digits n.toNat).length ≤ 16) := by
  simp only [Config.isPathSegment, Bool.and_eq_true] at segment
  have plain : (objectiveId nameSpace n).toList.all
      (fun c => c.isAlphanum || c == '_' || c == '.' || c == '+' || c == '-') = true := by
    rw [all_eq_true]
    intro c mem
    simp only [objectiveId, String.toList_append, mem_append, Base62.render, String.toList_ofList] at mem
    rcases mem with (inside | inside) | inside
    · have rule := all_eq_true.mp segment.2 c inside
      simp only [Config.isSegmentChar, Bool.or_eq_true] at rule
      have letters : c.isAlphanum = (c.isUpper || c.isLower || c.isDigit) := rfl
      rcases rule with (((lower | digit) | under) | dash) | dot
      all_goals simp [*]
    · cases mem_singleton.mp inside
      rfl
    · simp [Base62.isAlphanum_of_mem_digits inside]
  have size : (objectiveId nameSpace n).utf8ByteSize =
      nameSpace.utf8ByteSize + 1 + (Base62.digits n.toNat).length := by
    rw [objectiveId, String.utf8ByteSize_append, String.utf8ByteSize_append, Base62.utf8ByteSize_render]
    rfl
  have nonempty : (objectiveId nameSpace n).toList.isEmpty = false := by
    simp [objectiveId]
  rw [isObjectiveId, plain, size, nonempty, Bool.and_true, Bool.not_false, Bool.true_and]

/-- The numbers that follow each other are different until all are used up, so no more of them are in use
than there are objectives. -/
private theorem count_le_of_inUse (nameSpace : String) {used : List String} (first : UInt64) {count : Nat}
    (small : count ≤ 2 ^ 64) (inUse : ∀ i < count, objectiveId nameSpace (first + .ofNat i) ∈ used) :
    count ≤ used.dedup.length := by
  have different : ((range count).map (fun i => objectiveId nameSpace (first + .ofNat i))).Nodup := by
    refine nodup_range.map_on (fun i isIn j isIn' same => ?_)
    have same : (UInt64.ofNat i).toNat = (UInt64.ofNat j).toNat :=
      congrArg _ ((UInt64.add_right_inj first).mp (objectiveId_injective nameSpace same))
    rw [mem_range] at isIn isIn'
    rwa [UInt64.toNat_ofNat_of_lt' (Nat.lt_of_lt_of_le isIn small),
      UInt64.toNat_ofNat_of_lt' (Nat.lt_of_lt_of_le isIn' small)] at same
  have inside : (range count).map (fun i => objectiveId nameSpace (first + .ofNat i)) ⊆ used.dedup := by
    intro id mem
    obtain ⟨i, within, rfl⟩ := mem_map.mp mem
    exact mem_dedup.mpr (inUse i (mem_range.mp within))
  have short := (List.Nodup.subperm different inside).length_le
  rwa [length_map, length_range] at short

/-- The search passes over numbers in use, and ends at a free one or after as many as it may try. -/
private theorem freeObjective_passes (nameSpace : String) (used : List String) (bound : Nat) (first : UInt64) :
    ∃ count ≤ bound, freeObjective nameSpace used bound first = first + .ofNat count ∧
      (∀ i < count, objectiveId nameSpace (first + .ofNat i) ∈ used) ∧
      (objectiveId nameSpace (first + .ofNat count) ∈ used → count = bound) := by
  induction bound generalizing first with
  | zero => exact ⟨0, Nat.le_refl 0, by simp [freeObjective], nofun, fun _ => rfl⟩
  | succ bound ih =>
    rw [freeObjective]
    split
    · next inUse =>
      obtain ⟨count, few, last, passed, stops⟩ := ih (first + 1)
      have next (i : Nat) : first + 1 + .ofNat i = first + .ofNat (i + 1) := by
        rw [UInt64.ofNat_add, UInt64.add_assoc, UInt64.add_comm 1]
        rfl
      refine ⟨count + 1, Nat.succ_le_succ few, last.trans (next count), fun i below => ?_, fun last => ?_⟩
      · cases i with
        | zero => simpa using inUse
        | succ i => exact next i ▸ passed i (Nat.lt_of_succ_lt_succ below)
      · exact congrArg Nat.succ (stops (next count ▸ last))
    · next free =>
      refine ⟨0, Nat.zero_le _, by simp, nofun, fun inUse => absurd ?_ free⟩
      simpa using inUse

/-- The search ends at the first free number, and passes over no more of them than there are different
objectives in use. -/
private theorem freeObjective_searches (nameSpace : String) {used : List String} (first : UInt64)
    (few : used.dedup.length < 2 ^ 64) :
    ∃ count ≤ used.dedup.length, freeObjective nameSpace used used.length first = first + .ofNat count ∧
      (∀ i < count, objectiveId nameSpace (first + .ofNat i) ∈ used) ∧
      objectiveId nameSpace (first + .ofNat count) ∉ used := by
  obtain ⟨count, _, last, passed, stops⟩ := freeObjective_passes nameSpace used used.length first
  have short : count ≤ used.dedup.length := by
    refine Nat.le_of_not_lt (fun long => Nat.not_succ_le_self used.dedup.length ?_)
    exact count_le_of_inUse nameSpace first (Nat.succ_le_of_lt few) (fun i below => passed i (Nat.lt_of_lt_of_le below long))
  refine ⟨count, short, last, passed, fun inUse => ?_⟩
  have tooMany : count + 1 ≤ used.dedup.length := by
    refine count_le_of_inUse nameSpace first (Nat.succ_le_of_lt (Nat.lt_of_le_of_lt short few)) (fun i below => ?_)
    rcases Nat.lt_succ_iff_lt_or_eq.mp below with before | rfl
    · exact passed i before
    · exact inUse
  rw [stops inUse] at tooMany
  exact absurd (Nat.le_trans tooMany (dedup_sublist used).length_le) (Nat.not_succ_le_self _)

end Compile

namespace State

open Compile

/-- Every number that was passed over has a name in use, or one that is refused. -/
structure Counts (config : Config) (s : State) : Prop where
  terms : s.config = config
  passed : ∀ n < s.nextObjective, objectiveId config.nameSpace n ∈ s.objectives ∨
    isObjectiveId (objectiveId config.nameSpace n) = false

private theorem lasting_counts (config : Config) : Lasting False (Counts config) where
  lines := False.elim
  aside := by
    intro s t counts beside claims
    refine ⟨beside.config.trans counts.terms, fun n below => ?_⟩
    rcases claims.passed n below with old | new
    · exact (counts.passed n old).imp_left (claims.kept ·)
    · exact counts.terms ▸ new
  scope := fun _ _ _ counts => ⟨counts.terms, counts.passed⟩
  nest := fun _ _ _ _ _ counts => ⟨counts.terms, counts.passed⟩
  unit := fun _ _ counts => ⟨counts.terms, counts.passed⟩
  detail := fun _ _ _ counts => ⟨counts.terms, counts.passed⟩
  enter := fun _ _ _ _ _ _ _ _ counts => ⟨counts.terms, counts.passed⟩
  object := fun _ _ _ _ _ _ _ counts => ⟨counts.terms, counts.passed⟩
  value := fun _ _ _ _ _ counts => ⟨counts.terms, counts.passed⟩
  refer := by
    intro s id owner objective criterion _ _ _ _ counts
    rw [refresh]
    split <;> exact ⟨counts.terms, counts.passed⟩

theorem Reachable.counts {config : Config} {src : Nat} {s : State} (reachable : s.Reachable config src) :
    s.Counts config :=
  (lasting_counts config).reachable reachable
    ⟨rfl, fun _ below => absurd (UInt64.lt_iff_toNat_lt.mp below) (Nat.not_lt_zero _)⟩

/-- Were the next number as large as that, all numbers of so many digits would be in use. -/
theorem Counts.accepted {config : Config} {s : State} (counts : s.Counts config)
    (segment : Config.isPathSegment config.nameSpace = true) {digits : Nat}
    (room : config.nameSpace.utf8ByteSize + 1 + (digits + 1) ≤ 16)
    (few : s.objectives.length < 62 ^ (digits + 1)) : isObjectiveId (objectiveId config.nameSpace
      (freeObjective config.nameSpace s.objectives s.objectives.length s.nextObjective)) = true := by
  have short {k : UInt64} (small : k.toNat < 62 ^ (digits + 1)) :
      isObjectiveId (objectiveId config.nameSpace k) = true := by
    have length := Base62.length_digits_le small
    rw [isObjectiveId_objectiveId segment, decide_eq_true_eq]
    omega
  refine short (Nat.lt_of_not_le (fun large => ?_))
  have last := UInt64.toNat_lt (freeObjective config.nameSpace s.objectives s.objectives.length s.nextObjective)
  refine absurd few (Nat.not_lt_of_le (Nat.le_trans (count_le_of_inUse config.nameSpace 0 (by omega)
    (fun i inside => ?_)) (dedup_sublist s.objectives).length_le))
  have isNumber : (UInt64.ofNat i).toNat = i := by
    rw [UInt64.toNat_ofNat', Nat.mod_eq_of_lt (by omega)]
  have below : UInt64.ofNat i < freeObjective config.nameSpace s.objectives s.objectives.length s.nextObjective := by
    rw [UInt64.lt_iff_toNat_lt, isNumber]
    omega
  rw [UInt64.zero_add]
  rcases passed_of_le_freeObjective (UInt64.le_of_lt below) with old | inUse | same
  · refine (counts.passed _ old).resolve_right (fun refused => ?_)
    cases (short (by rw [isNumber]; exact inside)).symm.trans refused
  · exact inUse
  · rw [same] at below
    exact absurd below (UInt64.lt_irrefl _)

end State

open Compile

/-- Where the name that is drawn next is free, nothing keeps an objective from being made. -/
private theorem create_succeeds {s : State} {scope : Scope} (here : s.scopes.scopes[s.current]? = some scope)
    (free : s.scopes.lookup s.current (s.config.generatedName scope.drawn) = none) (id criterion : String)
    (pos : Position) : ∃ t, (create id criterion pos).runFrom s = (.ok s.vars.size, t) := by
  let var : Variable :=
    { type := .objective, access := .hidden, usage := .ordinary, name := s.config.generatedName scope.drawn,
      scope := s.current, position := pos }
  obtain ⟨outer, around⟩ : ∃ outer, (s.draw.enterVar var).scopes.scopes[s.current]? = some outer := by
    refine ⟨_, Array.getElem?_eq_getElem ?_⟩
    rw [← ScopeTree.size, State.scopes_size_enterVar]
    exact (Array.getElem?_eq_some_iff.mp (scope_draw here)).1
  have entered : (enterVariable .objective .hidden .ordinary (s.config.generatedName scope.drawn)
      pos).runFrom s.draw = (.ok s.vars.size, s.draw.enterVar var) :=
    runFrom_enterVariable (scope_draw here) rfl ((s.lookup_draw _).trans free)
  have allocated : (allocate .objective s.vars.size).runFrom (s.draw.enterVar var) =
      (.ok (), withObjective s.draw outer var) :=
    runFrom_allocateObjective around rfl
  have drawn : (temporary ValueType.objective.name pos).runFrom s =
      (.ok s.vars.size, withObjective s.draw outer var) := by
    simp only [temporary, anonymous, declareInternal, typeNamed_name, runFrom_bind, runFrom_get,
      runFrom_nextAnonymous here, runFrom_lift, entered, allocated, runFrom_pure]
  have owner := (vars_withObjective s.draw outer var s.vars.size).trans (if_pos rfl)
  have field := (vars_withObjective s.draw outer var (s.vars.size + 1)).trans
    ((if_neg (Nat.succ_ne_self _)).trans (if_pos rfl))
  rw [create, runFrom_bind_ok drawn]
  generalize withObjective s.draw outer var = made at owner field
  let filled := made.onVar (s.vars.size + 1) (fun var => { var with value := .text criterion })
  let bound := filled.onVar s.vars.size (fun var => { var with value := .objective id criterion })
  have kept : filled.vars[s.vars.size]? = _ :=
    (State.vars_onVar ..).trans ((if_neg (Nat.succ_ne_self _)).trans owner)
  have binds : (bindObjective s.vars.size id criterion pos).runFrom made = (.ok (), bound) := by
    rw [bindObjective, runFrom_bind_ok (runFrom_var owner)]
    exact (runFrom_bind_ok (runFrom_setValue field (.text criterion)) _).trans
      (runFrom_setValue kept (.objective id criterion))
  have there : bound.vars[s.vars.size]? = _ :=
    (State.vars_onVar ..).trans ((if_pos rfl).trans (congrArg (Option.map _) kept))
  rw [runFrom_bind_ok binds, runFrom_bind_ok (runFrom_modifyVar there _)]
  exact ⟨_, rfl⟩

/-- Where the name space leaves room for so many digits and fewer objectives are in use than these can
number, the next name is accepted and free, and `new objective` without a name goes on to make a variable
for it. That succeeds where the name that is drawn for the variable is free. -/
theorem reachable_nextObjective {config : Config} {src : Nat} {s : State} (valid : config.Valid)
    (reachable : s.Reachable config src) {digits : Nat}
    (room : config.nameSpace.utf8ByteSize + 1 + (digits + 1) ≤ 16)
    (few : s.objectives.length < 62 ^ (digits + 1)) (numbered : s.objectives.length < 2 ^ 64) (pos : Position) :
    ∃ n, let id := objectiveId config.nameSpace n
      let claimed := { s with nextObjective := n + 1, objectives := s.objectives ++ [id] }
      nextObjective.runFrom s = (.ok id, { s with nextObjective := n + 1 }) ∧ isObjectiveId id = true ∧
        (claimObjective id pos).runFrom { s with nextObjective := n + 1 } = (.ok (), claimed) ∧
        ∀ (before : State) (args : List VarId) (index : Nat) (params : List VarId) (criterion : String),
          (select ValueType.objective.name objectiveOverloads args pos).runFrom before = (.ok (index, params), s) →
          (params = [] ∧ criterion = defaultCriterion ∨
            ∃ param, params = [param] ∧ (textOf param pos).runFrom s = (.ok criterion, s)) →
          (construct args pos).runFrom before = (create id criterion pos).runFrom claimed ∧
          ∀ scope, s.scopes.scopes[s.current]? = some scope →
            s.scopes.lookup s.current (config.generatedName scope.drawn) = none →
            ∃ t, (construct args pos).runFrom before = (.ok s.vars.size, t) := by
  have counts := reachable.counts
  obtain rfl := counts.terms
  let n := freeObjective s.config.nameSpace s.objectives s.objectives.length s.nextObjective
  let id := objectiveId s.config.nameSpace n
  have accepted : isObjectiveId id = true := counts.accepted valid.usable.nameSpace room few
  have free : ¬s.objectives.contains id = true := by
    obtain ⟨_, _, last, _, free⟩ := freeObjective_searches s.config.nameSpace s.nextObjective
      (Nat.lt_of_le_of_lt (dedup_sublist s.objectives).length_le numbered)
    rw [contains_iff_mem]
    rw [← last] at free
    exact free
  have claims : (claimObjective id pos).runFrom { s with nextObjective := n + 1 } =
      (.ok (), { s with nextObjective := n + 1, objectives := s.objectives ++ [id] }) := by
    rw [claimObjective, runFrom_bind_ok runFrom_get, if_neg free]
    rfl
  have named : (claimNext pos).runFrom s =
      (.ok id, { s with nextObjective := n + 1, objectives := s.objectives ++ [id] }) := by
    have next : nextObjective.runFrom s = (.ok id, { s with nextObjective := n + 1 }) := rfl
    rw [claimNext, runFrom_bind_ok next, accepted]
    exact runFrom_bind_ok claims _
  refine ⟨n, rfl, accepted, claims, fun before args index params criterion selected chosen => ?_⟩
  have made := (congrArg (Compile.runFrom · s) (claimNext_bind (create · criterion pos) pos)).trans
    (runFrom_bind_ok named _)
  have goesOn : (construct args pos).runFrom before = (create id criterion pos).runFrom
      { s with nextObjective := n + 1, objectives := s.objectives ++ [id] } := by
    rw [construct, runFrom_bind_ok selected]
    rcases chosen with ⟨rfl, rfl⟩ | ⟨param, rfl, read⟩
    · exact made
    · exact (runFrom_bind_ok read _).trans made
  refine ⟨goesOn, fun scope here unbound => ?_⟩
  rw [goesOn]
  exact @create_succeeds { s with nextObjective := n + 1, objectives := s.objectives ++ [id] } scope here unbound ..

/-- With the name space `mcs` twelve digits fit. -/
theorem reachable_nextObjective_first :
    let opened := (openEntry.runFrom (State.start {} 0)).2
    ∃ n, isObjectiveId (objectiveId "mcs" n) = true ∧
      nextObjective.runFrom opened = (.ok (objectiveId "mcs" n), { opened with nextObjective := n + 1 }) := by
  intro opened
  have valid : ({} : Config).Valid := by rfl
  have reachable : opened.Reachable {} 0 := State.LeadsTo.refl.act .openEntry
  have room : "mcs".utf8ByteSize + 1 + (11 + 1) ≤ 16 := by decide
  obtain ⟨n, next, accepted, _⟩ := reachable_nextObjective valid reachable room (by decide) (by decide) default
  exact ⟨n, accepted, next⟩

/-- A name space that takes up 15 of the 16 bytes leaves no room for a digit. -/
theorem construct_long_nameSpace :
    let config : Config := { nameSpace := "abcdefghijklmno" }
    let opened := (openEntry.runFrom (State.start config 0)).2
    config.Valid ∧ opened.Reachable config 0 ∧ opened.objectives.length < 62 ^ 3 ∧
      ((construct [] default).runFrom opened).1 = .error ⟨.badName "abcdefghijklmno.0" .notAnObjective, default⟩ :=
  ⟨by rfl, State.LeadsTo.refl.act .openEntry, by decide, by rfl⟩

/-! ## Names drawn one after another -/

namespace Compile

/-- So many numbers are tried, from the first on: the last is free, and those before it are in use. -/
inductive Tries (nameSpace : String) (used : List String) : Nat → UInt64 → UInt64 → Prop where
  | stop {n : UInt64} : objectiveId nameSpace n ∉ used → Tries nameSpace used 1 n n
  | skip {rounds : Nat} {n last : UInt64} : objectiveId nameSpace n ∈ used →
      Tries nameSpace used rounds (n + 1) last → Tries nameSpace used (rounds + 1) n last

theorem Tries.of_inUse {nameSpace : String} {used : List String} {first : UInt64} {count : Nat}
    (inUse : ∀ i < count, objectiveId nameSpace (first + .ofNat i) ∈ used)
    (free : objectiveId nameSpace (first + .ofNat count) ∉ used) :
    Tries nameSpace used (count + 1) first (first + .ofNat count) := by
  induction count generalizing first with
  | zero => simpa using Tries.stop free
  | succ count ih =>
    have next (i : Nat) : first + .ofNat (i + 1) = first + 1 + .ofNat i := by
      rw [UInt64.ofNat_add, UInt64.add_assoc, UInt64.add_comm 1]
      rfl
    rw [next] at free ⊢
    refine .skip (by simpa using inUse 0 (Nat.succ_pos count)) (ih (fun i below => ?_) free)
    exact next i ▸ inUse (i + 1) (Nat.succ_lt_succ below)

/-- What drawing a name comes to: the number `n` after so many rounds. -/
structure TakesNumber (s : State) (rounds : Nat) (n : UInt64) : Prop where
  tries : Tries s.config.nameSpace s.objectives rounds s.nextObjective n
  few : rounds ≤ s.objectives.dedup.length + 1
  /-- The counter is behind the number that is taken; behind the largest number is zero. -/
  ran : nextObjective.runFrom s = (.ok (objectiveId s.config.nameSpace n), { s with nextObjective := n + 1 })
  free : objectiveId s.config.nameSpace n ∉ s.objectives
  range : s.nextObjective.toNat ≤ n.toNat ∧ n.toNat ≤ s.nextObjective.toNat + s.objectives.dedup.length
  passed : ∀ m, s.nextObjective ≤ m → m < n → objectiveId s.config.nameSpace m ∈ s.objectives

end Compile

namespace State

/-- The counter has a number left for every objective in use. -/
def HasNumbers (s : State) : Prop :=
  s.nextObjective.toNat + s.objectives.dedup.length < 2 ^ 64

theorem HasNumbers.ends {s : State} (numbers : s.HasNumbers) : ∃ rounds n, Compile.TakesNumber s rounds n := by
  unfold HasNumbers at numbers
  obtain ⟨count, few, last, inUse, free⟩ :=
    freeObjective_searches s.config.nameSpace s.nextObjective (Nat.lt_of_le_of_lt (Nat.le_add_left _ _) numbers)
  have number {i : Nat} (upTo : i ≤ count) : (s.nextObjective + .ofNat i).toNat = s.nextObjective.toNat + i := by
    rw [UInt64.toNat_add, UInt64.toNat_ofNat', Nat.add_mod_mod, Nat.mod_eq_of_lt (by omega)]
  have taken := number (Nat.le_refl count)
  rw [← last] at free taken
  refine ⟨count + 1, freeObjective s.config.nameSpace s.objectives s.objectives.length s.nextObjective, ?_,
    Nat.succ_le_succ few, rfl, free, by omega, ?_⟩
  · rw [last] at free ⊢
    exact .of_inUse inUse free
  · intro m above below
    rw [UInt64.lt_iff_toNat_lt, taken] at below
    rw [UInt64.le_iff_toNat_le] at above
    obtain ⟨i, isNumber⟩ := Nat.exists_eq_add_of_le above
    have same : m = s.nextObjective + .ofNat i := by
      rw [← UInt64.toNat_inj, number (by omega), isNumber]
    rw [same]
    exact inUse i (by omega)

end State

namespace Compile

/-- The names that are drawn one after another from a state while the counter has numbers, and anything
is claimed in between. Once the largest number is taken, no more are drawn. -/
inductive Issues : State → List String → Prop where
  | done {s : State} : Issues s []
  | claim {s : State} {ids : List String} (claimed : List String) :
      Issues { s with objectives := claimed } ids → Issues s ids
  | draw {s t : State} {id : String} {ids : List String} : s.HasNumbers → nextObjective.runFrom s = (.ok id, t) →
      t.nextObjective ≠ 0 ∨ ids = [] → Issues t ids → Issues s (id :: ids)

theorem Issues.later {s : State} {ids : List String} (issues : Issues s ids) :
    ids.Nodup ∧ ∀ id ∈ ids, ∃ n, s.nextObjective.toNat ≤ n.toNat ∧ id = objectiveId s.config.nameSpace n := by
  induction issues with
  | done => exact ⟨.nil, by rintro _ ⟨⟩⟩
  | claim claimed _ ih => exact ih
  | @draw s t id ids numbers ran goesOn _ ih =>
    obtain ⟨_, n, ends⟩ := numbers.ends
    rw [ends.ran] at ran
    cases ran
    rcases goesOn with goesOn | rfl
    · obtain ⟨distinct, above⟩ := ih
      have next : (n + 1).toNat = n.toNat + 1 := by
        have := n.toNat_lt
        have wraps : (n + 1).toNat = (n.toNat + 1) % 2 ^ 64 := by simp
        have positive : (n + 1).toNat ≠ 0 := fun zero => goesOn (UInt64.toNat_inj.mp zero)
        omega
      dsimp only at above
      rw [next] at above
      refine ⟨nodup_cons.mpr ⟨fun again => ?_, distinct⟩, forall_mem_cons.mpr ⟨?_, fun id mem => ?_⟩⟩
      · obtain ⟨m, later, same⟩ := above _ again
        cases objectiveId_injective _ same
        exact absurd later (Nat.not_succ_le_self _)
      · exact ⟨n, ends.range.1, rfl⟩
      · obtain ⟨m, later, same⟩ := above id mem
        exact ⟨m, Nat.le_trans ends.range.1 (Nat.le_of_succ_le later), same⟩
    · exact ⟨nodup_singleton _, forall_mem_singleton.mpr ⟨n, ends.range.1, rfl⟩⟩

end Compile

end ScoreScript
