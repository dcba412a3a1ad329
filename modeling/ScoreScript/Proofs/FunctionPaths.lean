import ScoreScript.Files.Folder
import ScoreScript.Proofs.CallTree
import ScoreScript.Proofs.Compile.Lasting

/-!
# Function paths

The path of a unit starts with the entry and goes on with the generated names of the units around it
and its own. The settings make the entry a path segment, but a generated name is one only without
capital letters: the start of generated names may have some, and base 62 has them for the digits from
36 on. Where no path has a capital letter, all calls are legal and paths do not differ in letter case
alone.
-/

namespace ScoreScript

open List

/-! ## Generated names as path segments -/

namespace Base62

private theorem isSegmentChar_digit {n : Nat} (small : n < 62) : Config.isSegmentChar (digit n) = true ↔ n < 36 := by
  have all : ∀ n < 62, Config.isSegmentChar (digit n) = decide (n < 36) := by decide +kernel
  rw [all n small, decide_eq_true_iff]

theorem all_digits (n : Nat) : (digits n).all Config.isSegmentChar = true ↔ ∀ d ∈ Nat.digits 62 n, d < 36 := by
  rcases Nat.eq_zero_or_pos n with rfl | positive
  · simp only [Nat.digits_zero, not_mem_nil, false_implies, implies_true, iff_true]
    rfl
  · simp only [digits_eq positive, all_reverse, all_map, all_eq_true, Function.comp_apply]
    exact forall₂_congr (fun d inside => isSegmentChar_digit (Nat.digits_lt_base (by decide) inside))

end Base62

private theorem isUpper_of_isSegmentChar {c : Char} (allowed : Config.isSegmentChar c = true) : c.isUpper = false := by
  rw [← Bool.not_eq_true, isUpper_iff]
  simp only [Config.isSegmentChar, Bool.or_eq_true, beq_iff_eq, isLower_iff, isDigit_iff] at allowed
  rcases allowed with (((lower | digit) | rfl) | rfl) | rfl
  · omega
  · omega
  · decide
  · decide
  · decide

private theorem isSegmentChar_of_isWordChar {c : Char} (isWord : isWordChar c = true) :
    Config.isSegmentChar c = true ↔ c.isUpper = false := by
  refine ⟨isUpper_of_isSegmentChar, fun small => ?_⟩
  have isAlphanum : c.isAlphanum = (c.isUpper || c.isLower || c.isDigit) := rfl
  simp only [isWordChar, isAlphanum, small, Bool.false_or, Bool.or_eq_true] at isWord
  simp only [Config.isSegmentChar, Bool.or_eq_true]
  tauto

variable {config : Config}

namespace Config

def unitPath (config : Config) (numbers : List Nat) : String :=
  "/".intercalate (config.entry :: numbers.map config.generatedName)

theorem isPathSegment_generatedName (usable : config.Usable) (n : Nat) : isPathSegment (config.generatedName n) = true ↔
      config.anonymousPrefix.toList.any Char.isUpper = false ∧ ∀ d ∈ Nat.digits 62 n, d < 36 := by
  have rule := usable.anonymousPrefix
  simp only [isAnonymousPrefix, Bool.and_eq_true, Bool.not_eq_true', isEmpty_eq_false_iff,
    all_eq_true] at rule
  have start : config.anonymousPrefix.toList.all isSegmentChar = true ↔
      config.anonymousPrefix.toList.any Char.isUpper = false := by
    rw [all_eq_true, any_eq_false]
    exact forall₂_congr (fun c mem => by
      rw [isSegmentChar_of_isWordChar (rule.2 c mem), Bool.not_eq_true])
  rw [← start, ← Base62.all_digits, isPathSegment, generatedName]
  simp [Base62.render, rule.1]

end Config

/-! ## The units of a compilation -/

namespace State

def UnitsNamed (s : State) : Prop :=
  ∀ (id : Nat) (scope : Scope), s.scopes.scopes[id]? = some scope → scope.isUnit = true →
    scope.parent = some ScopeTree.root ∨ ∃ n, scope.name = s.config.generatedName n

theorem UnitsNamed.onScope {s : State} (named : s.UnitsNamed) (id : Nat) {change : Scope → Scope}
    (kept : ∀ scope, (change scope).name = scope.name ∧ (change scope).parent = scope.parent ∧
      (change scope).isUnit = scope.isUnit) :
    ({ s with scopes := s.scopes.modifyScope id change } : State).UnitsNamed := by
  intro i scope found isUnit
  obtain ⟨old, there, rfl | ⟨_, rfl⟩⟩ := ScopeTree.getElem?_modifyScope_elim found
  · exact named i scope there isUnit
  · obtain ⟨name, parent, unit⟩ := kept old
    rw [name, parent]
    exact named i old there (unit ▸ isUnit)

private theorem steady_unitsNamed : Steady False UnitsNamed where
  lines := False.elim
  aside := by
    intro s t named beside
    unfold UnitsNamed
    rw [beside.config, beside.scopes]
    exact named
  scope := fun id _ kept named => named.onScope id (fun scope =>
    ⟨(kept scope).1, (kept scope).2.1, (kept scope).2.2.1⟩)
  nest := by
    intro s added _ _ _ plain _ _ named i scope found isUnit
    rcases ScopeTree.getElem?_addScope_elim found with old | ⟨_, rfl⟩
    · exact named i scope old isUnit
    · rw [plain] at isUnit
      cases isUnit
  unit := by
    intro s id scope there rule named i scope' found isUnit
    obtain ⟨old, isOld, rfl | ⟨rfl, rfl⟩⟩ := ScopeTree.getElem?_modifyScope_elim found
    · exact named i scope' isOld isUnit
    · rw [there] at isOld
      cases isOld
      exact rule
  enter := fun _ _ _ _ _ _ _ _ named => named.onScope _ (fun _ => ⟨rfl, rfl, rfl⟩)
  detail := fun _ _ _ named => named
  value := fun _ _ _ named => named
  refer := by
    intro s id owner objective criterion _ _ _ named
    unfold refresh
    split
    · exact named
    · exact named
  members := fun _ _ _ _ _ named => named

theorem unitsNamed_of_ran {src : Nat} {text : String} {t : State}
    (ran : ((Engine.forText text).compileEntry text).runFrom (State.start config src) = (.ok (), t)) :
    t.UnitsNamed := by
  have before : (State.start config src).UnitsNamed := by
    intro id scope found isUnit
    have isRoot : id = 0 := by
      have inside := ScopeTree.lt_size_of_getElem? found
      exact Nat.lt_one_iff.mp inside
    subst isRoot
    cases found
    cases isUnit
  have lasting := steady_unitsNamed.lasting
  have engine : (Engine.forText text).Preserves False UnitsNamed := Engine.preserves_within lasting _ _
  have after := (engine.compileEntry lasting text _ before).1
  rwa [ran] at after

variable {t : State} {pkg : Package}

theorem Yields.path_cases (yields : t.Yields pkg) (named : t.UnitsNamed) {unit : OutputUnit}
    (isUnit : unit ∈ t.units) : unit.path = t.config.entry ∨
      ∃ outer ∈ t.units, ∃ n, unit.path = outer.path ++ "/" ++ t.config.generatedName n := by
  refine (yields.covers unit isUnit).imp_right (fun called => ?_)
  obtain ⟨entry, isEntry, cmd, isCommand, isCallee⟩ := mem_callees.mp called
  obtain ⟨around, isAround, marked⟩ := yields.placed entry isEntry (ne_nil_of_mem isCommand)
  obtain ⟨outer, isOuter, place⟩ := mem_map.mp (yields.sound.unitsAll _ around isAround marked)
  obtain ⟨id, scope, _, found, isInner, parent, same⟩ := yields.calls entry isEntry cmd isCommand _ isCallee
  obtain ⟨_, positive, path⟩ := yields.sound.unit_mem yields.root isOuter
  rw [← place] at parent
  obtain ⟨_, joined⟩ := yields.sound.pathAt_child yields.usable found parent positive
  rcases named id scope found isInner with outside | ⟨n, isName⟩
  · rw [parent] at outside
    exact absurd (Option.some.inj outside) positive.ne'
  · exact ⟨outer, isOuter, n, by rw [path, ← isName, ← joined, (Prod.mk.inj same).2]⟩

private theorem unitPath_concat (config : Config) (numbers : List Nat) (n : Nat) :
    config.unitPath (numbers ++ [n]) = config.unitPath numbers ++ "/" ++ config.generatedName n := by
  refine String.toList_injective ?_
  simp only [Config.unitPath, String.toList_append, String.toList_intercalate, map_cons,
    map_append, map_nil]
  exact (intercalate_concat '/' (_ :: _) _ (by simp)).trans (by simp)

theorem Yields.exists_unitPath (yields : t.Yields pkg) (named : t.UnitsNamed) {unit : OutputUnit}
    (isUnit : unit ∈ t.units) : ∃ numbers, unit.path = t.config.unitPath numbers := by
  induction length : unit.path.toList.length using Nat.strongRecOn generalizing unit with
  | ind count ih =>
    rcases yields.path_cases named isUnit with isEntry | ⟨outer, isOuter, n, joined⟩
    · exact ⟨[], isEntry.trans (by simp [Config.unitPath])⟩
    · have shorter : outer.path.toList.length < count := by
        rw [← length, joined]
        simp
      obtain ⟨numbers, isPath⟩ := ih _ shorter isOuter rfl
      exact ⟨numbers ++ [n], by rw [joined, isPath, unitPath_concat]⟩

end State

/-! ## Legal paths -/

def IsLegalPath (path : String) : Prop :=
  ∀ part ∈ Folder.partsOf path, Config.isPathSegment part = true

instance (path : String) : Decidable (IsLegalPath path) :=
  inferInstanceAs (Decidable (∀ part ∈ Folder.partsOf path, Config.isPathSegment part = true))

def Package.HasLegalPaths (pkg : Package) : Prop :=
  ∀ path ∈ pkg.paths, IsLegalPath path

instance (pkg : Package) : Decidable pkg.HasLegalPaths :=
  inferInstanceAs (Decidable (∀ path ∈ pkg.paths, IsLegalPath path))

theorem Folder.partsOf_intercalate {parts : List String} (some : parts ≠ [])
    (plain : ∀ part ∈ parts, '/' ∉ part.toList) : partsOf ("/".intercalate parts) = parts := by
  have lists : ("/".intercalate parts).toList.splitOn '/' = parts.map String.toList := by
    rw [String.toList_intercalate]
    exact splitOn_intercalate '/' (by simpa using plain) (by simpa using some)
  rw [partsOf, lists, map_map]
  simp [Function.comp_def]

theorem Config.Usable.slashless_entry (usable : config.Usable) : '/' ∉ config.entry.toList := by
  intro slash
  have rule := usable.entry
  simp only [Config.isPathSegment, Bool.and_eq_true, all_eq_true] at rule
  exact absurd (rule.2 '/' slash) (by decide)

private theorem isLegalPath_unitPath (usable : config.Usable) (numbers : List Nat) :
    IsLegalPath (config.unitPath numbers) ↔ ∀ n ∈ numbers, Config.isPathSegment (config.generatedName n) = true := by
  have plain : ∀ part ∈ config.entry :: numbers.map config.generatedName, '/' ∉ part.toList := by
    intro part mem
    rcases mem_cons.mp mem with rfl | generated
    · exact usable.slashless_entry
    · obtain ⟨n, _, rfl⟩ := mem_map.mp generated
      exact (config.isSegment_generatedName usable n).slashless
  rw [IsLegalPath, Config.unitPath, Folder.partsOf_intercalate (by simp) plain]
  simp [usable.entry]

theorem toLower_of_isSegmentChar {c : Char} (allowed : Config.isSegmentChar c = true) : c.toLower = c := by
  have small : decide (c.val ≥ 65 ∧ c.val ≤ 90) = false := isUpper_of_isSegmentChar allowed
  exact dif_neg (decide_eq_false_iff_not.mp small)

private theorem toList_toLower (text : String) : text.toLower.toList = text.toList.map Char.toLower :=
  String.toList_map

theorem IsLegalPath.toLower {path : String} (legal : IsLegalPath path) : path.toLower = path := by
  refine String.toList_injective ?_
  rw [toList_toLower]
  refine (map_congr_left (fun c mem => ?_)).trans (map_id _)
  have whole : ['/'].intercalate (path.toList.splitOn '/') = path.toList := intercalate_splitOn '/'
  rw [← whole] at mem
  rcases State.mem_intercalate '/' mem with rfl | ⟨part, isPart, inside⟩
  · decide
  · have rule := legal (String.ofList part) (mem_map_of_mem isPart)
    simp only [Config.isPathSegment, Bool.and_eq_true, all_eq_true, String.toList_ofList] at rule
    exact toLower_of_isSegmentChar (rule.2 c inside)

namespace State.Yields

variable {t : State} {pkg : Package}

theorem path_of_mem (yields : t.Yields pkg) (named : t.UnitsNamed) {path : String} (mem : path ∈ pkg.paths) :
    path = "load" ∨ path = "unload" ∨ ∃ numbers, path = t.config.unitPath numbers := by
  refine (yields.mem_paths.mp mem).imp_right (Or.imp_right ?_)
  rintro ⟨unit, isUnit, rfl⟩
  exact yields.exists_unitPath named isUnit

private theorem hasLegalPaths_iff (yields : t.Yields pkg) (named : t.UnitsNamed) : pkg.HasLegalPaths ↔
    ∀ numbers, t.config.unitPath numbers ∈ pkg.paths → ∀ n ∈ numbers,
      t.config.anonymousPrefix.toList.any Char.isUpper = false ∧ ∀ d ∈ Nat.digits 62 n, d < 36 := by
  constructor
  · intro legal numbers mem n isNumber
    have segments := (isLegalPath_unitPath yields.usable numbers).mp (legal _ mem)
    exact (Config.isPathSegment_generatedName yields.usable n).mp (segments n isNumber)
  · intro small path mem
    rcases yields.path_of_mem named mem with rfl | rfl | ⟨numbers, rfl⟩
    · decide
    · decide
    · refine (isLegalPath_unitPath yields.usable numbers).mpr (fun n isNumber => ?_)
      exact (Config.isPathSegment_generatedName yields.usable n).mpr (small numbers mem n isNumber)

private theorem runs_legal (yields : t.Yields pkg) (legal : pkg.HasLegalPaths) {line : String × String}
    (mem : line ∈ pkg.placedLines) {nameSpace path : String} (invokes : Invokes nameSpace path line.2) :
    Config.isPathSegment nameSpace = true ∧ IsLegalPath path := by
  rw [pkg.placedLines_eq] at mem
  obtain ⟨placed, isPlaced, rfl⟩ := mem_map.mp mem
  obtain ⟨unit, isUnit, _, calls⟩ :=
    yields.callsUnit_of_placed isPlaced ((yields.invokes_iff isPlaced).mp invokes)
  obtain ⟨isSpace, _, ⟨inner, isInner, isPath⟩, _⟩ := yields.callsUnit_cases isUnit calls
  dsimp only at isSpace isPath
  rw [isSpace, yields.nameSpace]
  exact ⟨yields.usable.nameSpace, legal path (yields.mem_paths.mpr (.inr (.inr ⟨inner, isInner, isPath⟩)))⟩

end State.Yields

/-- The paths of a package, and when all of them are legal. -/
structure Package.HasUnitPaths (config : Config) (pkg : Package) : Prop where
  named : ∀ path ∈ pkg.paths, path = "load" ∨ path = "unload" ∨ ∃ numbers, path = config.unitPath numbers
  legal_iff : pkg.HasLegalPaths ↔ ∀ numbers, config.unitPath numbers ∈ pkg.paths → ∀ n ∈ numbers,
    config.anonymousPrefix.toList.any Char.isUpper = false ∧ ∀ d ∈ Nat.digits 62 n, d < 36
  calls : pkg.HasLegalPaths → ∀ line ∈ pkg.placedLines, ∀ nameSpace path, Invokes nameSpace path line.2 →
    Config.isPathSegment nameSpace = true ∧ IsLegalPath path
  distinct : pkg.HasLegalPaths → ∀ left ∈ pkg.paths, ∀ right ∈ pkg.paths,
    left.toLower = right.toLower → left = right

/-- The path of a unit is the entry and then generated names. All paths of a package are legal exactly if
no unit needs a capital letter: wherever a generated name is in use, the start of generated names has
none, and neither has the number, whose digits in base 62 are below 36. Then every call names a
legal function, and no two paths differ in letter case alone. -/
private theorem compileSource_hasUnitPaths {config : Config} (valid : config.Valid) {src : Nat}
    {text : String} {pkg : Package} (compiled : compileSource src text config = .ok pkg) :
    pkg.HasUnitPaths config := by
  obtain ⟨t, ran, grows, yields⟩ := compileSource_yields valid.usable compiled
  have named := State.unitsNamed_of_ran ran
  have same : t.config = config := grows.config
  rw [← same]
  refine ⟨fun _ => yields.path_of_mem named, yields.hasLegalPaths_iff named, ?_, ?_⟩
  · exact fun legal line mem nameSpace path => yields.runs_legal legal mem
  · intro legal left isLeft right isRight alike
    rw [← (legal left isLeft).toLower, alike, (legal right isRight).toLower]

theorem compileSource_hasUnitPaths_nested : ∃ pkg, compileSource 0 "\x7b \x7b\x7d \x7d" {} = .ok pkg ∧
      ({} : Config).unitPath [0, 1] ∈ pkg.paths ∧ pkg.HasLegalPaths ∧
      ∀ left ∈ pkg.paths, ∀ right ∈ pkg.paths, left.toLower = right.toLower → left = right := by
  have evaluated : (compileSource 0 "\x7b \x7b\x7d \x7d" {}).toOption.map (fun pkg =>
      decide (({} : Config).unitPath [0, 1] ∈ pkg.paths ∧ pkg.HasLegalPaths)) = some true := by
    decide +kernel
  cases compiled : compileSource 0 "\x7b \x7b\x7d \x7d" {} with
  | error fault =>
    rw [compiled] at evaluated
    cases evaluated
  | ok pkg =>
    rw [compiled] at evaluated
    have holds := of_decide_eq_true (Option.some.inj evaluated)
    exact ⟨pkg, rfl, holds.1, holds.2, (compileSource_hasUnitPaths (by decide) compiled).distinct holds.2⟩

/-- The last of 37 blocks has the name of the eleventh but for letter case. -/
theorem compileSource_paths_alike :
    ∃ pkg, compileSource 0 (String.join (replicate 37 "\x7b\x7d;")) {} = .ok pkg ∧
      "main/anon_a" ∈ pkg.paths ∧ "main/anon_A" ∈ pkg.paths ∧
      "main/anon_a".toLower = "main/anon_A".toLower ∧ ¬ pkg.HasLegalPaths := by
  have evaluated : (compileSource 0 (String.join (replicate 37 "\x7b\x7d;")) {}).toOption.map
      (fun pkg => decide ("main/anon_a" ∈ pkg.paths ∧ "main/anon_A" ∈ pkg.paths)) = some true := by
    decide +kernel
  cases compiled : compileSource 0 (String.join (replicate 37 "\x7b\x7d;")) {} with
  | error fault =>
    rw [compiled] at evaluated
    cases evaluated
  | ok pkg =>
    rw [compiled] at evaluated
    obtain ⟨first, last⟩ := of_decide_eq_true (Option.some.inj evaluated)
    have alike : "main/anon_a".toLower = "main/anon_A".toLower := by
      refine String.toList_injective ?_
      rw [toList_toLower, toList_toLower]
      decide
    exact ⟨pkg, rfl, first, last, alike, fun legal => absurd (legal _ last) (by decide)⟩

end ScoreScript
