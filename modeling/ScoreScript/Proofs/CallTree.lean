import Mathlib.Data.List.Flatten
import Mathlib.Logic.Relation
import ScoreScript.Proofs.Program

/-!
# The calls of a package form a tree

A line runs a function when it is a call, or a call under a condition. In the package of a text
every unit but the entry is run by exactly one line, which stands in the function around the unit.
So every unit can be reached from the entry in one way, and no function is run from within itself.
-/

namespace ScoreScript

open List

open ScopeTree

variable {cmd : Command} {nameSpace path : String}

/-! ## Lines that run functions -/

/-- The line runs the function of a namespace with a path, at once or depending on whether a score
is zero. The name of the function is one word. -/
def Invokes (nameSpace path line : String) : Prop :=
  ' ' ∉ (nameSpace ++ ":" ++ path).toList ∧ (line = "function " ++ nameSpace ++ ":" ++ path ∨
      ∃ (word : String) (reg : Register), (word = "if" ∨ word = "unless") ∧
        line = "execute " ++ word ++ " score " ++ reg.render ++ " matches 0 run function " ++
          nameSpace ++ ":" ++ path)

namespace Package

def placedLines (pkg : Package) : List (String × String) :=
  pkg.lines.flatMap (fun function => function.2.map (fun line => (function.1, line)))

def Calls (pkg : Package) (caller path : String) : Prop :=
  ∃ line, (caller, line) ∈ pkg.placedLines ∧ Invokes pkg.nameSpace path line

/-- Exactly one line of the package runs the function with a path, and it stands in `caller`. -/
def InvokedOnce (pkg : Package) (caller path : String) : Prop :=
  ∃ before line after, pkg.placedLines = before ++ (caller, line) :: after ∧ Invokes pkg.nameSpace path line ∧
      ∀ other ∈ before ++ after, ¬ Invokes pkg.nameSpace path other.2

/-- The calls of the package form a tree below the entry. -/
structure IsCallTree (pkg : Package) (entry : String) : Prop where
  distinct : pkg.paths.Nodup
  rooted : entry ∈ pkg.paths
  /-- Every other unit is run by one line, in the function whose path lacks the last segment. -/
  once : ∀ path ∈ pkg.paths, path ∉ phaseFunctions → path ≠ entry →
    ∃ caller ∈ pkg.paths, caller ∉ phaseFunctions ∧
      (∃ segment, '/' ∉ segment.toList ∧ path = caller ++ "/" ++ segment) ∧
      pkg.InvokedOnce caller path
  /-- What a line runs is the function of a unit of the package, and not of the entry. -/
  closed : ∀ place ∈ pkg.placedLines, ∀ nameSpace path, Invokes nameSpace path place.2 →
    nameSpace = pkg.nameSpace ∧ path ∈ pkg.paths ∧ path ∉ phaseFunctions ∧ path ≠ entry
  reached : ∀ path ∈ pkg.paths, path ∉ phaseFunctions → Relation.ReflTransGen pkg.Calls entry path
  acyclic : ∀ path, ¬ Relation.TransGen pkg.Calls path path

end Package

private theorem lastWord_eq {left right word other : List Char} (plain : ' ' ∉ word) (plain' : ' ' ∉ other)
    (same : left ++ ' ' :: word = right ++ ' ' :: other) : word = other := by
  have last : ∀ {front word : List Char}, ' ' ∉ word →
      (front ++ ' ' :: word).reverse.takeWhile (· != ' ') = word.reverse := by
    intro front word plain
    have all : ∀ c ∈ word.reverse, (c != ' ') = true := by
      intro c mem
      exact bne_iff_ne.mpr (fun blank => plain (blank ▸ mem_reverse.mp mem))
    rw [reverse_append, reverse_cons, append_assoc, takeWhile_append_of_pos all]
    simp
  rw [← reverse_inj, ← last plain, ← last plain', same]

theorem Score.render_plain (score : Score) {c : Char} (mem : c ∈ score.render.toList) : c ≠ ' ' ∧ c ≠ ':' := by
  rcases score.mem_render mem with isDigit | rfl
  · constructor <;> rintro rfl <;> exact absurd isDigit (by decide)
  · decide

theorem Invokes.spelled {line : String} (invokes : Invokes nameSpace path line) :
    (∃ front, line.toList = front ++ ' ' :: (nameSpace ++ ":" ++ path).toList) ∧ line.toList.head? ≠ some 's' := by
  obtain ⟨_, rfl | ⟨word, reg, _, rfl⟩⟩ := invokes
  · exact ⟨⟨"function".toList, by simp⟩, by simp⟩
  · exact ⟨⟨("execute " ++ word ++ " score " ++ reg.render ++ " matches 0 run function").toList, by simp⟩, by simp⟩

theorem Invokes.lastWord {line : String} (invokes : Invokes nameSpace path line) {front word : List Char}
    (spelled : line.toList = front ++ ' ' :: word) (plain : ' ' ∉ word) : word = (nameSpace ++ ":" ++ path).toList := by
  obtain ⟨⟨_, last⟩, _⟩ := invokes.spelled
  exact lastWord_eq plain invokes.1 (spelled.symm.trans last)

/-- A name of a function that is one word and has no further colon. -/
structure IsFunctionName (name : String × String) : Prop where
  blankless : ' ' ∉ (name.1 ++ ":" ++ name.2).toList
  nameSpace : ':' ∉ name.1.toList
  path : ':' ∉ name.2.toList

theorem IsFunctionName.eq {name : String × String} (isName : IsFunctionName name)
    (same : (name.1 ++ ":" ++ name.2).toList = (nameSpace ++ ":" ++ path).toList) : name = (nameSpace, path) := by
  have colon : ":".toList = [':'] := rfl
  simp only [String.toList_append, colon, append_assoc, singleton_append] at same
  obtain ⟨first, _, second⟩ :=
    (append_cons_inj_of_notMem isName.nameSpace isName.path).mp same
  exact Prod.ext (String.toList_injective first) (String.toList_injective second)

namespace Command

def IsForObjective : Command → Prop
  | addObjective .. | removeObjective _ => True
  | _ => False

private theorem head?_append {c : Char} {left right : String} (first : left.toList.head? = some c) :
    (left ++ right).toList.head? = some c := by
  simp [first]

theorem render_call (nameSpace path : String) : (call nameSpace path).render.toList =
    "function".toList ++ ' ' :: (nameSpace ++ ":" ++ path).toList := by
  rw [show (call nameSpace path).render = "function " ++ nameSpace ++ ":" ++ path from rfl]
  simp

private theorem render_set (target : Register) (score : Score) : (set target score).render.toList =
      ("scoreboard players set " ++ target.render).toList ++ ' ' :: score.render.toList := by
  rw [show (set target score).render = "scoreboard players set " ++ target.render ++ " " ++ score.render from rfl]
  simp

theorem render_guarded (holds : Bool) (cond : Condition) (cmd : Command) :
    (guarded holds cond cmd).render =
      "execute " ++ (if holds then "if" else "unless") ++ " " ++ cond.render ++ " run " ++ cmd.render := by
  refine String.toList_injective ?_
  cases holds
  · rw [show (guarded false cond cmd).render =
      "execute unless " ++ cond.render ++ " run " ++ cmd.render from rfl]
    simp
  · rw [show (guarded true cond cmd).render =
      "execute if " ++ cond.render ++ " run " ++ cmd.render from rfl]
    simp

theorem IsForObjective.callee? (outside : cmd.IsForObjective) : cmd.callee? = none := by
  cases cmd <;> first | rfl | exact outside.elim

private theorem callee?_of_invokes (allowed : cmd.IsForObjective ∨ cmd.Spares (fun _ => False))
    (named : ∀ callee, cmd.callee? = some callee → IsFunctionName callee)
    (invokes : Invokes nameSpace path cmd.render) : cmd.callee? = some (nameSpace, path) := by
  have called : ∀ (callee : String × String) {front : List Char}, cmd.callee? = some callee →
      cmd.render.toList = front ++ ' ' :: (callee.1 ++ ":" ++ callee.2).toList →
      cmd.callee? = some (nameSpace, path) := by
    intro callee front isCallee spelled
    have isName := named callee isCallee
    rw [isCallee, isName.eq (invokes.lastWord spelled isName.blankless)]
  have scoreboard := invokes.spelled.2
  cases cmd with
  | call other target => exact called (other, target) rfl (render_call other target)
  | guarded holds cond cmd =>
    have front : ∃ front, (guarded holds cond cmd).render.toList =
        front ++ cmd.render.toList := ⟨_, by rw [render_guarded, String.toList_append]⟩
    obtain ⟨front, spelled⟩ := front
    cases cmd with
    | call other target =>
      rw [render_call, ← append_assoc] at spelled
      exact called (other, target) rfl spelled
    | set target score =>
      -- The line ends with a number, and a number is no name of a function.
      rw [render_set, ← append_assoc] at spelled
      have last := invokes.lastWord spelled (fun blank => (score.render_plain blank).1 rfl)
      have colon : ':' ∈ score.render.toList := by simp [last]
      exact absurd rfl (score.render_plain colon).2
    | _ => exact allowed.elim False.elim False.elim
  | set _ _ | add _ _ | remove _ _ | copy _ _ | addObjective _ _ | showObjective _ _ =>
    exact absurd (head?_append (head?_append (head?_append rfl))) scoreboard
  | operate _ _ _ =>
    exact absurd (head?_append (head?_append (head?_append (head?_append (head?_append rfl)))))
      scoreboard
  | reset _ | removeObjective _ => exact absurd (head?_append rfl) scoreboard
  | verbatim _ => exact allowed.elim False.elim False.elim

private theorem invokes_render (spares : cmd.Spares (fun _ => False)) (called : cmd.callee? = some (nameSpace, path))
    (isName : IsFunctionName (nameSpace, path)) : Invokes nameSpace path cmd.render := by
  refine ⟨isName.blankless, ?_⟩
  cases cmd with
  | call nameSpace path =>
    cases called
    exact .inl rfl
  | guarded holds cond cmd =>
    cases cmd with
    | call nameSpace path =>
      cases called
      obtain ⟨reg, rfl⟩ := spares
      refine .inr ⟨if holds then "if" else "unless", reg, by cases holds <;> simp, ?_⟩
      rw [render_guarded, show Condition.render (.inRange reg (.exactly 0)) =
        "score " ++ reg.render ++ " matches " ++ "0" from rfl]
      refine String.toList_injective ?_
      simp [render_call]
    | set target score => cases called
    | _ => exact spares.elim
  | _ => cases called

end Command

/-! ## Paths -/

namespace State

variable {s : State}

theorem Sound.isFunctionName (sound : s.Sound) (usable : s.config.Usable) {id : Nat}
    (inside : id < s.scopes.size) (positive : 0 < id) : IsFunctionName (s.config.nameSpace, s.pathAt id) := by
  have segment : ∀ {name : String}, Config.isPathSegment name = true → ∀ c ∈ name.toList, c ≠ ' ' ∧ c ≠ ':' := by
    intro name isSegment c mem
    simp only [Config.isPathSegment, Bool.and_eq_true, all_eq_true] at isSegment
    have allowed := isSegment.2 c mem
    constructor <;> rintro rfl <;> exact absurd allowed (by decide)
  have path : ∀ c ∈ (s.pathAt id).toList, c ≠ ' ' ∧ c ≠ ':' := by
    intro c mem
    obtain ⟨rest, segments, plain⟩ := sound.segments_entry usable inside positive
    rw [pathAt, segments, String.toList_intercalate] at mem
    rcases mem_intercalate '/' mem with rfl | ⟨part, isPart, isChar⟩
    · decide
    · obtain ⟨name, isName, rfl⟩ := mem_map.mp isPart
      rcases mem_cons.mp isName with rfl | later
      · exact segment usable.entry c isChar
      · have allowed := (plain name later).word c isChar
        constructor <;> rintro rfl <;> exact absurd allowed (by decide)
  refine ⟨?_, fun colon => (segment usable.nameSpace _ colon).2 rfl, fun colon => (path _ colon).2 rfl⟩
  simp only [String.toList_append, mem_append]
  rintro ((blank | blank) | blank)
  · exact (segment usable.nameSpace _ blank).1 rfl
  · exact absurd blank (by decide)
  · exact (path _ blank).1 rfl

theorem Sound.pathAt_child (sound : s.Sound) (usable : s.config.Usable) {id outer : Nat}
    {scope : Scope} (found : s.scopes.scopes[id]? = some scope) (parent : scope.parent = some outer)
    (positive : 0 < outer) : '/' ∉ scope.name.toList ∧ s.pathAt id = s.pathAt outer ++ "/" ++ scope.name := by
  have below := sound.rooted.lt_of_parent found parent
  refine ⟨(sound.segment id outer scope found parent positive).slashless, ?_⟩
  obtain ⟨around, isAround, _, joined⟩ :=
    sound.segments_child usable found (Nat.zero_lt_of_lt below)
  rw [parent] at isAround
  cases isAround
  obtain ⟨rest, segments, _⟩ := sound.segments_entry usable (Nat.lt_trans below (lt_size_of_getElem? found)) positive
  refine String.toList_injective ?_
  rw [pathAt, joined, pathAt, String.toList_append, String.toList_append, String.toList_intercalate,
    String.toList_intercalate, map_append]
  exact (intercalate_concat '/' _ _ (by simp [segments])).trans (by simp)

end State

/-! ## The commands of a package -/

namespace Package

def placedCommands (pkg : Package) : List (String × Command) :=
  pkg.functions.flatMap (fun function => function.2.map (fun cmd => (function.1, cmd)))

theorem placedLines_eq (pkg : Package) : pkg.placedLines =
    pkg.placedCommands.map (fun placed => (placed.1, placed.2.render)) := by
  simp [placedLines, placedCommands, lines, flatMap_map, map_flatMap, Function.comp_def]

end Package

namespace State.Yields

variable {t : State} {pkg : Package}

theorem placedCommands_eq (yields : t.Yields pkg) : pkg.placedCommands =
    (t.loadCommands.map (fun cmd => ("load", cmd)) ++
      t.unloadCommands.map (fun cmd => ("unload", cmd))) ++ t.units.flatMap (fun unit =>
        (t.commandsAt unit.scope).map (fun cmd => (unit.path, cmd))) := by
  rw [Package.placedCommands, yields.package_functions, State.functions]
  simp [flatMap_map]

theorem isForObjective (yields : t.Yields pkg)
    (mem : cmd ∈ t.loadCommands ∨ cmd ∈ t.unloadCommands) : cmd.IsForObjective := by
  have ofVariable : ∀ (var : Variable) {phase : Phase}, ∀ cmd ∈ var.commands phase, cmd.IsForObjective := by
    intro var phase cmd mem
    unfold Variable.commands at mem
    split at mem
    · cases phase <;> simp [Emission.commands, Emission.ofObjective] at mem <;> subst mem <;>
        trivial
    · cases mem
  have phase : ∀ {phase : Phase}, phase = .setup ∨ phase = .teardown →
      cmd ∈ t.unitLogs.flatMap (t.contribution phase) → cmd.IsForObjective := by
    intro phase outer mem
    obtain ⟨entry, isEntry, contributed⟩ := mem_flatMap.mp mem
    have logged : entry ∈ t.scopes.log := by
      rcases mem_append.mp isEntry with outside | inside
      · exact (mem_filter.mp outside).1
      · obtain ⟨_, _, inUnit⟩ := mem_flatMap.mp inside
        exact (mem_filter.mp inUnit).1
    have known := yields.phases entry logged
    unfold contribution at contributed
    cases event : entry.event with
    | declared id =>
      rw [event] at contributed
      cases found : t.vars[id]? with
      | none => simp [found] at contributed
      | some var => exact ofVariable var cmd (by simpa [found] using contributed)
    | emitted emission =>
      rw [event] at contributed known
      rcases known with ⟨setup, teardown⟩ | ⟨id, criterion, same⟩
      · rcases outer with rfl | rfl
        · simp [Emission.commands, setup] at contributed
        · simp [Emission.commands, teardown] at contributed
      · cases same
        rcases outer with rfl | rfl <;> rw [mem_singleton.mp contributed] <;> trivial
  rcases mem with load | unload
  · rw [loadCommands, yields.commandsAt_root, append_nil] at load
    exact phase (.inl rfl) load
  · exact phase (.inr rfl) (mem_reverse.mp unload)

variable {placed : String × Command}

section

variable (yields : t.Yields pkg)
include yields

theorem mem_placedCommands (mem : placed ∈ pkg.placedCommands) :
    placed.2.IsForObjective ∨ ∃ unit ∈ t.units, placed.1 = unit.path ∧ placed.2 ∈ t.commandsAt unit.scope := by
  rw [yields.placedCommands_eq, mem_append, mem_append] at mem
  rcases mem with (load | unload) | inside
  · obtain ⟨cmd, isCommand, rfl⟩ := mem_map.mp load
    exact .inl (yields.isForObjective (.inl isCommand))
  · obtain ⟨cmd, isCommand, rfl⟩ := mem_map.mp unload
    exact .inl (yields.isForObjective (.inr isCommand))
  · obtain ⟨unit, isUnit, isPlaced⟩ := mem_flatMap.mp inside
    obtain ⟨cmd, isCommand, rfl⟩ := mem_map.mp isPlaced
    exact .inr ⟨unit, isUnit, rfl, isCommand⟩

theorem callsUnit_of_placed (mem : placed ∈ pkg.placedCommands) {callee : String × String}
    (called : placed.2.callee? = some callee) :
    ∃ unit ∈ t.units, placed.1 = unit.path ∧ t.CallsUnit 0 unit.scope callee := by
  rcases yields.mem_placedCommands mem with outside | ⟨unit, isUnit, path, inside⟩
  · rw [outside.callee?] at called
    cases called
  · exact ⟨unit, isUnit, path, yields.callsUnit_of_mem inside called⟩

theorem callsUnit_cases {unit : OutputUnit} (isUnit : unit ∈ t.units) {callee : String × String}
    (calls : t.CallsUnit 0 unit.scope callee) :
    callee.1 = pkg.nameSpace ∧ IsFunctionName callee ∧ (∃ inner ∈ t.units, inner.path = callee.2) ∧
      ∃ segment : String, '/' ∉ segment.toList ∧ callee.2 = unit.path ++ "/" ++ segment := by
  obtain ⟨id, scope, _, found, marked, parent, rfl⟩ := calls
  obtain ⟨_, positive, path⟩ := yields.sound.unit_mem yields.root isUnit
  have below := yields.sound.rooted.lt_of_parent found parent
  have inside := lt_size_of_getElem? found
  obtain ⟨slashless, joined⟩ := yields.sound.pathAt_child yields.usable found parent positive
  obtain ⟨inner, isInner, rfl⟩ := mem_map.mp (yields.sound.unitsAll id scope found marked)
  refine ⟨yields.nameSpace.symm, ?_, ⟨inner, isInner, ?_⟩, scope.name, slashless, ?_⟩
  · exact yields.sound.isFunctionName yields.usable inside (Nat.zero_lt_of_lt below)
  · exact (yields.sound.unit_mem yields.root isInner).2.2
  · rw [path]
    exact joined

theorem invokes_iff (mem : placed ∈ pkg.placedCommands) :
    Invokes nameSpace path placed.2.render ↔ placed.2.callee? = some (nameSpace, path) := by
  have named : ∀ callee, placed.2.callee? = some callee → IsFunctionName callee := by
    intro callee called
    obtain ⟨unit, isUnit, _, calls⟩ := yields.callsUnit_of_placed mem called
    exact (yields.callsUnit_cases isUnit calls).2.1
  rcases yields.mem_placedCommands mem with outside | ⟨unit, _, _, inside⟩
  · refine ⟨Command.callee?_of_invokes (.inl outside) named, fun called => ?_⟩
    rw [outside.callee?] at called
    cases called
  · have spares := yields.spares_of_mem inside
    exact ⟨Command.callee?_of_invokes (.inr spares) named,
      fun called => Command.invokes_render spares called (named _ called)⟩

private theorem placedCallees_nodup : (pkg.placedCommands.filterMap (fun placed => placed.2.callee?)).Nodup := by
  have outside : ∀ {path : String} {cmds : List Command}, (∀ cmd ∈ cmds, cmd.IsForObjective) →
      (cmds.map (fun cmd => (path, cmd))).filterMap
        (fun placed => placed.2.callee?) = [] := by
    intro path cmds all
    rw [filterMap_eq_nil_iff]
    intro placed mem
    obtain ⟨cmd, isCommand, rfl⟩ := mem_map.mp mem
    exact (all cmd isCommand).callee?
  rw [yields.placedCommands_eq, filterMap_append, filterMap_append,
    outside (fun _ mem => yields.isForObjective (.inl mem)),
    outside (fun _ mem => yields.isForObjective (.inr mem)), filterMap_flatMap]
  simp only [filterMap_map, Function.comp_def, nil_append]
  refine nodup_flatMap.mpr ⟨?_, ?_⟩
  · -- The commands of a unit are among all that were entered.
    intro unit _
    refine yields.once.sublist ?_
    rw [commandsAt, commandsOf, filterMap_flatMap]
    exact filter_sublist.flatMap _
  · -- A unit lies inside one other only, so different units call different ones.
    refine (List.Nodup.of_map _ yields.sound.unitsOnce).pairwise_of_forall_ne ?_
    intro left isLeft right isRight distinct callee fromLeft fromRight
    obtain ⟨cmd, inLeft, isCallee⟩ := mem_filterMap.mp fromLeft
    obtain ⟨command', inRight, isCallee'⟩ := mem_filterMap.mp fromRight
    obtain ⟨id, scope, _, found, _, parent, rfl⟩ := yields.callsUnit_of_mem inLeft isCallee
    obtain ⟨id', scope', _, found', _, parent', same⟩ := yields.callsUnit_of_mem inRight isCallee'
    have equal : id = id' := yields.sound.path_injective yields.usable
      (lt_size_of_getElem? found) (lt_size_of_getElem? found')
      (Nat.zero_lt_of_lt (yields.sound.rooted.lt_of_parent found parent))
      (Nat.zero_lt_of_lt (yields.sound.rooted.lt_of_parent found' parent')) (Prod.mk.inj same).2
    subst equal
    rw [found] at found'
    cases found'
    refine distinct (inj_on_of_nodup_map yields.sound.unitsOnce isLeft isRight ?_)
    exact Option.some.inj (parent.symm.trans parent')

end

end State.Yields

theorem exists_split_of_nodup {α β : Type} {items : List α} {view : α → Option β} (once : (items.filterMap view).Nodup)
    {item : α} (mem : item ∈ items) {value : β} (isValue : view item = some value) :
    ∃ before after, items = before ++ item :: after ∧ ∀ other ∈ before ++ after, view other ≠ some value := by
  obtain ⟨before, after, rfl⟩ := append_of_mem mem
  refine ⟨before, after, rfl, ?_⟩
  intro other isOther same
  rw [filterMap_append, filterMap_cons_some isValue] at once
  have elsewhere : value ∈ before.filterMap view ++ after.filterMap view := by
    rw [← filterMap_append]
    exact mem_filterMap.mpr ⟨other, isOther, same⟩
  exact (nodup_middle.mp once).notMem elsewhere

namespace State.Yields

variable {t : State} {pkg : Package}

section

variable (yields : t.Yields pkg)
include yields

private theorem invokedOnce (called : (t.config.nameSpace, path) ∈ callees t.emissions) :
    ∃ unit ∈ t.units, (∃ segment : String, '/' ∉ segment.toList ∧ path = unit.path ++ "/" ++ segment) ∧
      pkg.InvokedOnce unit.path path := by
  obtain ⟨entry, isEntry, cmd, isCommand, isCallee⟩ := mem_callees.mp called
  obtain ⟨scope, found, marked⟩ := yields.placed entry isEntry (ne_nil_of_mem isCommand)
  obtain ⟨unit, isUnit, place⟩ := mem_map.mp (yields.sound.unitsAll _ scope found marked)
  have inside : cmd ∈ t.commandsAt unit.scope :=
    mem_commandsOf.mpr ⟨entry.2, place ▸ isEntry, isCommand⟩
  have placed : (unit.path, cmd) ∈ pkg.placedCommands := by
    rw [yields.placedCommands_eq]
    exact mem_append_right _ (mem_flatMap.mpr ⟨unit, isUnit, mem_map_of_mem inside⟩)
  obtain ⟨_, _, _, segment⟩ :=
    yields.callsUnit_cases isUnit (yields.callsUnit_of_mem inside isCallee)
  refine ⟨unit, isUnit, segment, ?_⟩
  obtain ⟨before, after, split, others⟩ :=
    exists_split_of_nodup yields.placedCallees_nodup placed isCallee
  let write := fun placed : String × Command => (placed.1, placed.2.render)
  refine ⟨before.map write, cmd.render, after.map write, ?_, ?_, ?_⟩
  · rw [pkg.placedLines_eq, split, map_append, map_cons]
  · rw [yields.nameSpace]
    exact (yields.invokes_iff placed).mpr isCallee
  · rw [← map_append]
    intro line mem invokes
    obtain ⟨other, isOther, rfl⟩ := mem_map.mp mem
    have isPlaced : other ∈ pkg.placedCommands := by
      rw [split]
      rcases mem_append.mp isOther with early | late
      · exact mem_append_left _ early
      · exact mem_append_right _ (mem_cons_of_mem _ late)
    rw [yields.nameSpace] at invokes
    exact others other isOther ((yields.invokes_iff isPlaced).mp invokes)

theorem mem_paths : path ∈ pkg.paths ↔ path = "load" ∨ path = "unload" ∨ ∃ unit ∈ t.units, unit.path = path := by
  rw [Package.paths, yields.package_functions, functions_paths]
  simp

private theorem not_phase {unit : OutputUnit} (isUnit : unit ∈ t.units) : unit.path ∉ phaseFunctions := by
  obtain ⟨inside, positive, path⟩ := yields.sound.unit_mem yields.root isUnit
  exact path ▸ yields.sound.pathAt_not_phase yields.usable inside positive

private theorem length_lt_of_calls {caller : String} (calls : pkg.Calls caller path) :
    caller.toList.length < path.toList.length := by
  obtain ⟨line, mem, invokes⟩ := calls
  rw [pkg.placedLines_eq] at mem
  obtain ⟨placed, isPlaced, same⟩ := mem_map.mp mem
  cases same
  obtain ⟨unit, isUnit, isCaller, calls⟩ :=
    yields.callsUnit_of_placed isPlaced ((yields.invokes_iff isPlaced).mp invokes)
  obtain ⟨_, _, _, segment, _, joined⟩ := yields.callsUnit_cases isUnit calls
  rw [isCaller, show path = _ from joined]
  simp

theorem isCallTree (entered : ∃ unit ∈ t.units, unit.path = t.config.entry) : pkg.IsCallTree t.config.entry := by
  have once : ∀ path ∈ pkg.paths, path ∉ phaseFunctions → path ≠ t.config.entry →
      ∃ caller ∈ pkg.paths, caller ∉ phaseFunctions ∧
        (∃ segment, '/' ∉ segment.toList ∧ path = caller ++ "/" ++ segment) ∧
        pkg.InvokedOnce caller path := by
    intro path mem inner other
    rcases yields.mem_paths.mp mem with rfl | rfl | ⟨unit, isUnit, rfl⟩
    · exact absurd (by decide) inner
    · exact absurd (by decide) inner
    · obtain ⟨caller, isCaller, segment, invoked⟩ :=
        yields.invokedOnce ((yields.covers unit isUnit).resolve_left other)
      exact ⟨caller.path, yields.mem_paths.mpr (.inr (.inr ⟨caller, isCaller, rfl⟩)),
        yields.not_phase isCaller, segment, invoked⟩
  refine
    { distinct := ?distinct
      rooted := yields.mem_paths.mpr (.inr (.inr entered))
      once, closed := ?closed, reached := ?reached, acyclic := ?acyclic }
  case distinct =>
    rw [Package.paths, yields.package_functions]
    exact yields.sound.functions_nodup yields.usable yields.root
  case closed =>
    intro place mem nameSpace path invokes
    rw [pkg.placedLines_eq] at mem
    obtain ⟨placed, isPlaced, rfl⟩ := mem_map.mp mem
    obtain ⟨unit, isUnit, _, calls⟩ :=
      yields.callsUnit_of_placed isPlaced ((yields.invokes_iff isPlaced).mp invokes)
    obtain ⟨isSpace, _, ⟨inner, isInner, isPath⟩, segment, _, joined⟩ :=
      yields.callsUnit_cases isUnit calls
    dsimp only at isPath
    refine ⟨isSpace, yields.mem_paths.mpr (.inr (.inr ⟨inner, isInner, isPath⟩)), isPath ▸ yields.not_phase isInner, ?_⟩
    -- The path has a slash, and the entry is one segment.
    rintro rfl
    have rule := yields.usable.entry
    simp only [Config.isPathSegment, Bool.and_eq_true, all_eq_true] at rule
    refine absurd (rule.2 '/' ?_) (by decide)
    rw [show t.config.entry = _ from joined]
    simp
  case reached =>
    intro path
    induction length : path.toList.length using Nat.strongRecOn generalizing path with
    | ind count ih =>
      intro mem inner
      by_cases isEntry : path = t.config.entry
      · rw [isEntry]
      · obtain ⟨caller, isCaller, outer, _, before, line, after, split, invokes, _⟩ :=
          once path mem inner isEntry
        have calls : pkg.Calls caller path := ⟨line, by simp [split], invokes⟩
        have shorter := yields.length_lt_of_calls calls
        exact (ih _ (length ▸ shorter) caller rfl isCaller outer).tail calls
  case acyclic =>
    intro path cycle
    have longer : ∀ {first last : String}, Relation.TransGen pkg.Calls first last →
        first.toList.length < last.toList.length := by
      intro first last calls
      induction calls with
      | single step => exact yields.length_lt_of_calls step
      | tail _ step ih => exact Nat.lt_trans ih (yields.length_lt_of_calls step)
    exact Nat.lt_irrefl _ (longer cycle)

end

end State.Yields

/-- The calls in the package of a text form a tree: every unit but the entry is run by exactly one
line, which stands in the unit around it. -/
theorem compileSource_isCallTree {config : Config} (valid : config.Valid) {src : Nat}
    {text : String} {pkg : Package} (compiled : compileSource src text config = .ok pkg) :
    pkg.IsCallTree config.entry := by
  obtain ⟨t, _, grows, yields⟩ := compileSource_yields valid.usable compiled
  have same : t.config = config := grows.config
  rw [← same]
  refine yields.isCallTree ?_
  -- The unit that the compilation began with is still there, under the path of the entry.
  have sound := (State.ready_begun valid.usable src).sound
  obtain ⟨scope, found, keeps, _⟩ := grows.scopes 1 _ rfl
  obtain ⟨unit, isUnit, place⟩ := mem_map.mp (yields.sound.unitsAll 1 scope found keeps.isUnit)
  refine ⟨unit, isUnit, ?_⟩
  calc unit.path = t.pathAt 1 := place ▸ (yields.sound.unit_mem yields.root isUnit).2.2
    _ = (State.begun config src).pathAt 1 := grows.pathAt_eq valid.usable sound sound.current
    _ = config.entry := State.pathAt_begun valid.usable src
    _ = t.config.entry := by rw [same]

/-- Both branches of the `if` and the block around it are units, and so is what `!` needs. -/
theorem compileSource_isCallTree_nested :
    ∃ pkg, compileSource 0 "bool b = true; \x7b if (!b) b = true; else b = false; \x7d" {} =
      .ok pkg ∧ pkg.IsCallTree "main" := by
  have compiles : (compileSource 0 "bool b = true; \x7b if (!b) b = true; else b = false; \x7d"
      {}).toOption.isSome = true := by
    decide +kernel
  cases compiled : compileSource 0 "bool b = true; \x7b if (!b) b = true; else b = false; \x7d"
      {} with
  | error fault =>
    rw [compiled] at compiles
    cases compiles
  | ok pkg => exact ⟨pkg, rfl, compileSource_isCallTree (by decide) compiled⟩

end ScoreScript
