import Mathlib.Data.List.Infix
import ScoreScript.Proofs.FunctionPaths

/-!
# File names

The functions of a package are written to files with their paths as names, relative to one
directory. No two names are the same, but names can still lead to the same place or out of the
directory, and a file can stand where another needs a directory. All of this comes from an entry with
dots in it. It cannot happen where the entry is the only unit.
-/

namespace ScoreScript

namespace Folder

def placeOf (path : String) : Place :=
  (partsOf path).foldl step {}

def directoriesOf (path : String) : List Place :=
  (partsOf path).dropLast.inits.map (fun parts => parts.foldl step {})

/-- Files with these names can be written into the folder side by side. -/
structure HoldsApart (names : List String) : Prop where
  distinct : (names.map placeOf).Nodup
  inside : ∀ name ∈ names, ".." ∉ partsOf name
  /-- No file stands where another needs a directory. -/
  apart : ∀ name ∈ names, ∀ other ∈ names, placeOf name ∉ directoriesOf other

def solid (parts : List String) : List String :=
  parts.filter (fun part => !isIdle part)

private theorem foldl_step {parts : List String} (inside : ".." ∉ parts) (place : Place) :
    parts.foldl step place = { place with names := (solid parts).reverse ++ place.names } := by
  induction parts generalizing place with
  | nil => rfl
  | cons part parts ih =>
    obtain ⟨other, rest⟩ := not_or.mp (mt List.mem_cons.mpr inside)
    rw [List.foldl_cons, ih rest, step]
    by_cases idle : isIdle part = true
    · simp [idle, solid]
    · simp [idle, solid, Ne.symm other, Place.child]

theorem placeOf_eq {path : String} (inside : ".." ∉ partsOf path) :
    placeOf path = { names := (solid (partsOf path)).reverse } := by
  rw [placeOf, foldl_step inside]
  simp

private theorem directoriesOf_cases {path : String} (inside : ".." ∉ partsOf path) {place : Place}
    (mem : place ∈ directoriesOf path) :
    ∃ parts, parts <+: (partsOf path).dropLast ∧ place = { names := (solid parts).reverse } := by
  obtain ⟨parts, isInit, rfl⟩ := List.mem_map.mp mem
  have part := (List.mem_inits _ _).mp isInit
  refine ⟨parts, part, ?_⟩
  rw [foldl_step (fun out => inside ((part.trans (List.dropLast_prefix _)).subset out))]
  simp

theorem HoldsApart.of_parts {names : List String} (inside : ∀ name ∈ names, ".." ∉ partsOf name) (nodup : names.Nodup)
    (distinct : ∀ name ∈ names, ∀ other ∈ names, solid (partsOf name) = solid (partsOf other) → name = other)
    (apart : ∀ name ∈ names, ∀ other ∈ names, ∀ parts, parts <+: (partsOf other).dropLast →
      solid (partsOf name) ≠ solid parts) : HoldsApart names where
  inside
  distinct := by
    refine nodup.map_on (fun name isName other isOther same => distinct name isName other isOther ?_)
    rw [placeOf_eq (inside name isName), placeOf_eq (inside other isOther)] at same
    exact List.reverse_injective (congrArg Place.names same)
  apart := by
    intro name isName other isOther needed
    obtain ⟨parts, part, same⟩ := directoriesOf_cases (inside other isOther) needed
    rw [placeOf_eq (inside name isName)] at same
    exact apart name isName other isOther parts part (List.reverse_injective (congrArg Place.names same))

end Folder

/-! ## The files of a package -/

/-- How the path of a function splits before its last part. -/
inductive Config.IsFunctionPath (config : Config) : List String → String → Prop where
  | single {last : String} (named : last ∈ ["load", "unload", config.entry]) : IsFunctionPath config [] last
  | nested (numbers : List Nat) (n : Nat) :
      IsFunctionPath config (config.entry :: numbers.map config.generatedName) (config.generatedName n)

def functionFile (path : String) : String :=
  path ++ ".mcfunction"

private theorem dot_mem_functionFile (path : String) : '.' ∈ (functionFile path).toList := by
  simp [functionFile]

theorem functionFile_ne (path : String) {other : String} (short : other.toList.length < 11) :
    functionFile path ≠ other := by
  rintro rfl
  simp [functionFile] at short

private theorem functionFile_injective {left right : String} (same : functionFile left = functionFile right) :
    left = right := by
  have lists := congrArg String.toList same
  simp only [functionFile, String.toList_append, List.append_cancel_right_eq] at lists
  exact String.toList_injective lists

private theorem isIdle_functionFile (path : String) : Folder.isIdle (functionFile path) = false := by
  simp [Folder.isIdle, functionFile_ne]

theorem isIdle_of_isSegment {name : String} (segment : IsSegment name) : Folder.isIdle name = false := by
  simp only [Folder.isIdle, Bool.or_eq_false_iff, beq_eq_false_iff_ne]
  constructor
  · rintro rfl
    exact segment.nonempty rfl
  · rintro rfl
    exact segment.dotless (by decide)

private theorem functionFile_intercalate (outer : List String) (last : String) :
    functionFile ("/".intercalate (outer ++ [last])) = "/".intercalate (outer ++ [functionFile last]) := by
  refine String.toList_injective ?_
  cases outer with
  | nil => simp
  | cons first rest =>
    have concat (name : String) : ("/".intercalate ((first :: rest) ++ [name])).toList =
        ['/'].intercalate ((first :: rest).map String.toList) ++ '/' :: name.toList := by
      rw [String.toList_intercalate, List.map_append]
      exact intercalate_concat '/' _ _ (by simp)
    rw [concat, functionFile, String.toList_append, concat, functionFile, String.toList_append]
    simp

namespace Config.IsFunctionPath

variable {config : Config} {outer : List String} {last : String}

section

variable (isPath : config.IsFunctionPath outer last) (usable : config.Usable)
include isPath usable

private theorem partsOf_functionFile :
    Folder.partsOf (functionFile ("/".intercalate (outer ++ [last]))) = outer ++ [functionFile last] := by
  have entry : '/' ∉ config.entry.toList := usable.slashless_entry
  have generated (n : Nat) : '/' ∉ (config.generatedName n).toList :=
    (config.isSegment_generatedName usable n).slashless
  have file {name : String} (plain : '/' ∉ name.toList) : '/' ∉ (functionFile name).toList := by
    simpa [functionFile] using plain
  rw [functionFile_intercalate]
  refine Folder.partsOf_intercalate (by simp) (fun part mem => ?_)
  cases isPath with
  | single named =>
    rw [List.nil_append, List.mem_singleton] at mem
    subst mem
    refine file ?_
    simp only [List.mem_cons, List.not_mem_nil, or_false] at named
    rcases named with rfl | rfl | rfl
    · decide
    · decide
    · exact entry
  | nested numbers n =>
    rcases List.mem_append.mp mem with around | isLast
    · rcases List.mem_cons.mp around with rfl | isNumber
      · exact entry
      · obtain ⟨m, _, rfl⟩ := List.mem_map.mp isNumber
        exact generated m
    · rw [List.mem_singleton.mp isLast]
      exact file (generated n)

private theorem solid_outer : Folder.solid outer = if config.entry = "." then outer.drop 1 else outer := by
  cases isPath with
  | single _ => simp [Folder.solid]
  | nested numbers n =>
    have generated : Folder.solid (numbers.map config.generatedName) = numbers.map config.generatedName := by
      refine List.filter_eq_self.mpr (fun part mem => ?_)
      obtain ⟨m, _, rfl⟩ := List.mem_map.mp mem
      rw [isIdle_of_isSegment (config.isSegment_generatedName usable m)]
      rfl
    have nonempty : config.entry ≠ "" := by
      rintro empty
      have rule := usable.entry
      rw [empty] at rule
      cases rule
    have idle : Folder.isIdle config.entry = decide (config.entry = ".") := by
      rw [Folder.isIdle, beq_false_of_ne nonempty, Bool.false_or, beq_eq_decide]
    unfold Folder.solid at generated ⊢
    rw [List.filter_cons, generated, idle]
    by_cases dot : config.entry = "."
    · simp [dot]
    · simp [dot]

theorem solid_functionFile : Folder.solid (Folder.partsOf (functionFile ("/".intercalate (outer ++ [last])))) =
      Folder.solid outer ++ [functionFile last] := by
  rw [isPath.partsOf_functionFile usable, Folder.solid, List.filter_append, Folder.solid]
  simp [isIdle_functionFile]

theorem eq_entry_of_mem {part : String} (mem : part ∈ outer) (dot : '.' ∈ part.toList) : part = config.entry := by
  cases isPath with
  | single _ => cases mem
  | nested numbers n =>
    rcases List.mem_cons.mp mem with isEntry | isNumber
    · exact isEntry
    · obtain ⟨m, _, rfl⟩ := List.mem_map.mp isNumber
      exact absurd dot (config.isSegment_generatedName usable m).dotless

end

end Config.IsFunctionPath

/-- As the directory of other units, the entry is the file of no function, and leads neither out nor to
such a file. -/
def Config.EntryApart (config : Config) (paths : List String) : Prop :=
  config.entry ∉ ["..", "load.mcfunction", "unload.mcfunction"] ∧
    (config.entry = "." → "./load" ∉ paths ∧ "./unload" ∉ paths)

namespace Config.IsFunctionPath

variable {config : Config} {outer outer' : List String} {last last' : String} {paths : List String}

private theorem not_single (usable : config.Usable) (numbers : List Nat) (n : Nat)
    (named : config.generatedName n ∈ ["load", "unload", config.entry])
    (mem : "/".intercalate (config.entry :: numbers.map config.generatedName ++ [config.generatedName n]) ∈ paths)
    (entryApart : config.EntryApart paths) : Folder.solid (config.entry :: numbers.map config.generatedName) ≠ [] := by
  rw [(nested numbers n).solid_outer usable]
  split
  · next dot =>
      intro alone
      cases numbers with
      | cons _ _ => cases alone
      | nil =>
        have free := entryApart.2 dot
        simp only [dot, List.map_nil, List.cons_append, List.nil_append] at mem named
        simp only [List.mem_cons, List.not_mem_nil, or_false] at named
        rcases named with isName | isName | isName
        · rw [isName] at mem
          exact free.1 mem
        · rw [isName] at mem
          exact free.2 mem
        · exact (config.isSegment_generatedName usable n).dotless (by rw [isName]; decide)
  · exact List.cons_ne_nil _ _

private theorem outer_eq (left : config.IsFunctionPath outer last) (right : config.IsFunctionPath outer' last)
    (usable : config.Usable) (isLeft : "/".intercalate (outer ++ [last]) ∈ paths)
    (isRight : "/".intercalate (outer' ++ [last]) ∈ paths)
    (leftApart : outer ≠ [] → config.EntryApart paths) (rightApart : outer' ≠ [] → config.EntryApart paths)
    (same : Folder.solid outer = Folder.solid outer') : outer = outer' := by
  cases left with
  | single named =>
    cases right with
    | single _ => rfl
    | nested numbers n => exact absurd same.symm (not_single usable numbers n named isRight (rightApart (by simp)))
  | nested numbers n =>
    generalize isLast : config.generatedName n = last at right isRight
    cases right with
    | single named =>
      subst isLast
      exact absurd same (not_single usable numbers n named isLeft (leftApart (by simp)))
    | nested numbers' n' =>
      rw [(nested numbers n).solid_outer usable, (nested numbers' n').solid_outer usable] at same
      split at same
      · exact congrArg (config.entry :: ·) same
      · exact same

private theorem not_directory (left : config.IsFunctionPath outer last) (right : config.IsFunctionPath outer' last')
    (usable : config.Usable) (rightApart : outer' ≠ [] → config.EntryApart paths) {parts : List String}
    (part : parts <+: outer') : Folder.solid outer ++ [functionFile last] ≠ Folder.solid parts := by
  intro same
  have isPart : functionFile last ∈ parts := by
    have inside : functionFile last ∈ Folder.solid parts := by simp [← same]
    exact (List.mem_filter.mp inside).1
  have isEntry : functionFile last = config.entry :=
    right.eq_entry_of_mem usable (part.subset isPart) (dot_mem_functionFile last)
  have other := rightApart (List.ne_nil_of_mem (part.subset isPart))
  cases right with
  | single _ =>
    rw [List.prefix_nil.mp part] at isPart
    cases isPart
  | nested numbers n =>
    obtain rfl | ⟨rest, rfl, inner⟩ := List.prefix_cons_iff.mp part
    · cases isPart
    have joined : Folder.solid outer ++ [functionFile last] = config.entry :: Folder.solid rest := by
      rw [same, Folder.solid, List.filter_cons, ← isEntry, isIdle_functionFile]
      rfl
    have moves : config.entry ≠ "." := isEntry ▸ functionFile_ne last (by decide)
    have around := left.solid_outer usable
    rw [if_neg moves] at around
    cases left with
    | single named =>
      simp only [List.mem_cons, List.not_mem_nil, or_false] at named
      rcases named with rfl | rfl | rfl
      · exact other.1 (by simp [← isEntry, functionFile])
      · exact other.1 (by simp [← isEntry, functionFile])
      · have lengths := congrArg (fun name : String => name.toList.length) isEntry
        simp [functionFile] at lengths
    | nested numbers' n' =>
      -- The file of a nested unit would have a generated name.
      rw [around, List.cons_append, List.cons.injEq] at joined
      have deeper : functionFile (config.generatedName n') ∈ Folder.solid rest := by simp [← joined.2]
      obtain ⟨m, _, isName⟩ := List.mem_map.mp (inner.subset (List.mem_filter.mp deeper).1)
      exact (config.isSegment_generatedName usable m).dotless (isName ▸ dot_mem_functionFile _)

end Config.IsFunctionPath

theorem Config.holdsApart {config : Config} (usable : config.Usable) {paths : List String}
    (nodup : paths.Nodup) (placed : ∀ path ∈ paths, ∃ outer last, config.IsFunctionPath outer last ∧
      path = "/".intercalate (outer ++ [last]) ∧ (outer ≠ [] → config.EntryApart paths)) :
    Folder.HoldsApart (paths.map functionFile) := by
  refine .of_parts ?inside (nodup.map (fun _ _ => functionFile_injective)) ?distinct ?apart
  case inside =>
    intro name mem out
    obtain ⟨path, isPath, rfl⟩ := List.mem_map.mp mem
    obtain ⟨outer, last, isFunction, rfl, apart⟩ := placed path isPath
    rw [isFunction.partsOf_functionFile usable] at out
    rcases List.mem_append.mp out with around | isLast
    · have isEntry := isFunction.eq_entry_of_mem usable around (by decide)
      exact (apart (List.ne_nil_of_mem around)).1 (by simp [← isEntry])
    · exact functionFile_ne last (by decide) (List.mem_singleton.mp isLast).symm
  case distinct =>
    intro name mem name' member' same
    obtain ⟨path, isPath, rfl⟩ := List.mem_map.mp mem
    obtain ⟨path', isPath', rfl⟩ := List.mem_map.mp member'
    obtain ⟨outer, last, isFunction, rfl, apart⟩ := placed path isPath
    obtain ⟨outer', last', isFunction', rfl, apart'⟩ := placed path' isPath'
    rw [isFunction.solid_functionFile usable, isFunction'.solid_functionFile usable] at same
    obtain ⟨sameOuter, sameLast⟩ := List.append_inj' same rfl
    obtain rfl := functionFile_injective (List.singleton_inj.mp sameLast)
    rw [isFunction.outer_eq isFunction' usable isPath isPath' apart apart' sameOuter]
  case apart =>
    intro name mem name' member' parts part same
    obtain ⟨path, isPath, rfl⟩ := List.mem_map.mp mem
    obtain ⟨path', isPath', rfl⟩ := List.mem_map.mp member'
    obtain ⟨outer, last, isFunction, rfl, _⟩ := placed path isPath
    obtain ⟨outer', last', isFunction', rfl, apart'⟩ := placed path' isPath'
    rw [isFunction.solid_functionFile usable] at same
    rw [isFunction'.partsOf_functionFile usable, List.dropLast_concat] at part
    exact isFunction.not_directory isFunction' usable apart' part same

namespace State.Yields

variable {t : State} {pkg : Package}

private theorem isFunctionPath_of_mem (yields : t.Yields pkg) (named : t.UnitsNamed) {path : String}
    (mem : path ∈ pkg.paths) :
    ∃ outer last, t.config.IsFunctionPath outer last ∧ path = "/".intercalate (outer ++ [last]) := by
  rcases yields.path_of_mem named mem with rfl | rfl | ⟨numbers, rfl⟩
  · exact ⟨[], "load", .single (by simp), by simp⟩
  · exact ⟨[], "unload", .single (by simp), by simp⟩
  · rcases List.eq_nil_or_concat numbers with rfl | ⟨outer, n, rfl⟩
    · exact ⟨[], t.config.entry, .single (by simp), by simp [Config.unitPath]⟩
    · exact ⟨_, _, .nested outer n, by simp [Config.unitPath]⟩

private theorem files_names (pkg : Package) : pkg.files.map Prod.fst = pkg.paths.map functionFile := by
  simp [Package.files, Package.paths, functionFile]

theorem names_nodup (yields : t.Yields pkg) : (pkg.files.map Prod.fst).Nodup := by
  rw [files_names, Package.paths, yields.package_functions]
  exact (yields.sound.functions_nodup yields.usable yields.root).map (fun _ _ => functionFile_injective)

section

variable (yields : t.Yields pkg) (named : t.UnitsNamed)
  (more : ¬ pkg.paths ⊆ ["load", "unload", t.config.entry])
include yields named more

private theorem exists_nested : ∃ name ∈ pkg.paths.map functionFile, ∃ inner,
      inner ≠ [] ∧ Folder.partsOf name = t.config.entry :: inner := by
  simp only [List.subset_def, not_forall] at more
  obtain ⟨path, mem, other⟩ := more
  obtain ⟨outer, last, isPath, rfl⟩ := yields.isFunctionPath_of_mem named mem
  have parts := isPath.partsOf_functionFile yields.usable
  cases isPath with
  | single isLast => exact absurd (by simpa using isLast) other
  | nested numbers n => exact ⟨_, List.mem_map_of_mem mem, _, by simp, parts⟩

private theorem entryApart (apart : Folder.HoldsApart (pkg.paths.map functionFile)) :
    t.config.EntryApart pkg.paths := by
  obtain ⟨name, isName, inner, some, parts⟩ := yields.exists_nested named more
  have file {path : String} (isPhase : path = "load" ∨ path = "unload") :
      functionFile path ∈ pkg.paths.map functionFile :=
    List.mem_map_of_mem (yields.mem_paths.mpr (isPhase.imp_right .inl))
  have notFile {path : String} (isPhase : path = "load" ∨ path = "unload") : t.config.entry ≠ functionFile path := by
    intro isEntry
    have single : Folder.partsOf (functionFile path) = [functionFile path] := by
      rcases isPhase with rfl | rfl <;> decide
    refine apart.apart _ (file isPhase) name isName (List.mem_map.mpr ⟨[functionFile path], ?_, ?_⟩)
    · rw [List.mem_inits, parts, isEntry, List.dropLast_cons_of_ne_nil some]
      exact List.prefix_append [functionFile path] _
    · rw [Folder.placeOf, single]
  have notThere {path other : String} (isPhase : path = "load" ∨ path = "unload") (different : other ≠ path)
      (same : Folder.placeOf (functionFile other) = Folder.placeOf (functionFile path)) :
      other ∉ pkg.paths := by
    intro mem
    refine different (functionFile_injective ?_)
    exact List.inj_on_of_nodup_map apart.distinct (List.mem_map_of_mem mem) (file isPhase) same
  refine ⟨?_, fun _ => ⟨notThere (.inl rfl) (by decide) (by decide), notThere (.inr rfl) (by decide) (by decide)⟩⟩
  simp only [List.mem_cons, List.not_mem_nil, or_false]
  rintro (out | load | unload)
  · exact apart.inside name isName (by simp [parts, out])
  · exact notFile (.inl rfl) load
  · exact notFile (.inr rfl) unload

end

private theorem holdsApart_iff (yields : t.Yields pkg) (named : t.UnitsNamed) :
    Folder.HoldsApart (pkg.files.map Prod.fst) ↔
      pkg.paths ⊆ ["load", "unload", t.config.entry] ∨ t.config.EntryApart pkg.paths := by
  have nodup : pkg.paths.Nodup := by
    rw [Package.paths, yields.package_functions]
    exact yields.sound.functions_nodup yields.usable yields.root
  rw [files_names]
  constructor
  · exact fun apart => or_iff_not_imp_left.mpr (fun more => yields.entryApart named more apart)
  · rintro (few | entryApart)
    · refine Config.holdsApart yields.usable nodup (fun path mem => ?_)
      exact ⟨[], path, .single (few mem), by simp, fun some => absurd rfl some⟩
    · refine Config.holdsApart yields.usable nodup (fun path mem => ?_)
      obtain ⟨outer, last, isPath, split⟩ := yields.isFunctionPath_of_mem named mem
      exact ⟨outer, last, isPath, split, fun _ => entryApart⟩

end State.Yields

/-- The names of the files of a package are different. The files stay inside the directory of the
package, each in a place of its own where no other needs a directory, exactly if there is no unit but the
entry, or the entry is no such directory: it is not `..`, not the file of `load` or `unload`, and if it
is a single dot, no unit inside it is called `load` or `unload`. -/
theorem compileSource_holdsApart_iff {config : Config} (valid : config.Valid) {src : Nat} {text : String}
    {pkg : Package} (compiled : compileSource src text config = .ok pkg) :
    (pkg.files.map Prod.fst).Nodup ∧ (Folder.HoldsApart (pkg.files.map Prod.fst) ↔
        pkg.paths ⊆ ["load", "unload", config.entry] ∨
          config.entry ∉ ["..", "load.mcfunction", "unload.mcfunction"] ∧
            (config.entry = "." → "./load" ∉ pkg.paths ∧ "./unload" ∉ pkg.paths)) := by
  obtain ⟨t, ran, grows, yields⟩ := compileSource_yields valid.usable compiled
  have same : t.config = config := grows.config
  rw [← same]
  exact ⟨yields.names_nodup, yields.holdsApart_iff (State.unitsNamed_of_ran ran)⟩

/-- A block inside a block, below an entry of three dots. -/
theorem compileSource_holdsApart_nested :
    ∃ pkg, compileSource 0 "\x7b \x7b\x7d \x7d" { entry := "..." } = .ok pkg ∧
      ".../anon_0/anon_1.mcfunction" ∈ pkg.files.map Prod.fst ∧
      Folder.HoldsApart (pkg.files.map Prod.fst) := by
  have evaluated : (compileSource 0 "\x7b \x7b\x7d \x7d" { entry := "..." }).toOption.map (fun pkg =>
      decide (".../anon_0/anon_1.mcfunction" ∈ pkg.files.map Prod.fst)) = some true := by
    decide +kernel
  cases compiled : compileSource 0 "\x7b \x7b\x7d \x7d" { entry := "..." } with
  | error fault =>
    rw [compiled] at evaluated
    cases evaluated
  | ok pkg =>
    rw [compiled] at evaluated
    refine ⟨pkg, rfl, of_decide_eq_true (Option.some.inj evaluated), ?_⟩
    exact (compileSource_holdsApart_iff (by decide) compiled).2.mpr
      (.inr ⟨by decide, fun dot => absurd dot (by decide)⟩)

/-- A block below an entry of two dots is written outside of the directory, and one below the file of
`load` is not written at all. -/
theorem compileSource_leavesDirectory :
    (compileSource 0 "\x7b\x7d" { entry := ".." }).toOption.map (fun pkg => pkg.files.map Prod.fst) =
      some ["load.mcfunction", "unload.mcfunction", "...mcfunction", "../anon_0.mcfunction"] ∧
    ".." ∈ Folder.partsOf "../anon_0.mcfunction" ∧
    (compileSource 0 "\x7b\x7d" { entry := "load.mcfunction" }).toOption.map
      (fun pkg => pkg.files.map Prod.fst) =
      some ["load.mcfunction", "unload.mcfunction", "load.mcfunction.mcfunction", "load.mcfunction/anon_0.mcfunction"] ∧
    Folder.placeOf "load.mcfunction" ∈ Folder.directoriesOf "load.mcfunction/anon_0.mcfunction" ∧
    (Config.Valid { entry := ".." } ∧ Config.Valid { entry := "load.mcfunction" }) := by
  decide +kernel

end ScoreScript
