import ScoreScript.Proofs.CallTree
import ScoreScript.Proofs.Compile.Lasting
import ScoreScript.Proofs.Objectives

/-!
# Lines of functions

A function is written as the lines of its commands. Reading the text line by line gives the commands back
where none of them holds a line break, and a criterion is the only place where one can be: it is a text of
the script that is set up as it is.
-/

namespace ScoreScript

open List

/-! ## States that fit lines -/

namespace State

private theorem fitsLines_of_ran {config : Config} (usable : config.Usable) (src : Nat) (text : String) :
    (((Engine.forText text).compileEntry text).runFrom (start config src)).2.FitsLines := by
  have engine := Engine.preserves_within (lasting_fitsLines True) Engine.generationLimit (Engine.depthFor text.length)
  have start := start_fitsLines usable src
  exact (engine.compileEntry (lasting_fitsLines True) text _ (fun _ => start)).1 trivial

end State

/-! ## Texts and their lines -/

def textLines (text : String) : List String :=
  ((text.toList.splitOn '\n').map String.ofList).dropLast

private theorem isLine_of_mem_textLines {text line : String} (mem : line ∈ textLines text) : IsLine line := by
  have pieces (chars : List Char) : ∀ piece ∈ chars.splitOn '\n', '\n' ∉ piece := by
    induction chars with
    | nil => simp [splitOn_nil]
    | cons c chars ih =>
      rw [splitOn_cons_eq_if_modifyHead]
      split
      · simpa using ih
      · next other =>
          cases split : chars.splitOn '\n' with
          | nil => exact absurd split (splitOn_ne_nil _ _)
          | cons first rest =>
            rw [split, forall_mem_cons] at ih
            rw [modifyHead_cons, forall_mem_cons]
            refine ⟨?_, ih.2⟩
            rw [mem_cons, not_or]
            exact ⟨fun same => other (beq_iff_eq.mpr same.symm), ih.1⟩
  obtain ⟨piece, isPiece, rfl⟩ := mem_map.mp (dropLast_subset _ mem)
  simpa [IsLine] using pieces _ piece isPiece

private theorem textLines_joined {lines : List String} (some : lines ≠ [])
    (unbroken : ∀ line ∈ lines, IsLine line) : textLines ("\n".intercalate lines ++ "\n") = lines := by
  have split : ("\n".intercalate lines).toList.splitOn '\n' = lines.map String.toList := by
    rw [String.toList_intercalate]
    exact splitOn_intercalate '\n' (forall_mem_map.mpr unbroken) (by simpa using some)
  have ended : ("\n".intercalate lines ++ "\n").toList.splitOn '\n' = lines.map String.toList ++ [[]] := by
    rw [String.toList_append, show "\n".toList = ['\n'] from rfl, splitOn_append_cons_self, split,
      splitOn_nil]
  rw [textLines, ended, map_append, map_singleton, dropLast_concat, map_map]
  simp [Function.comp_def]

theorem Command.render_ne_empty {cmd : Command} (worded : ∀ line, cmd ≠ .verbatim line) :
    cmd.render ≠ "" := by
  have starts (front rest : String) (some : front ≠ "") : front ++ rest ≠ "" := by
    simp [some]
  have phrase (front first joint second : String) (some : front ≠ "") : front ++ first ++ joint ++ second ≠ "" :=
    starts _ _ (starts _ _ (starts front first some))
  cases cmd with
  | set target score => exact phrase "scoreboard players set " _ " " _ (by decide)
  | add target score => exact phrase "scoreboard players add " _ " " _ (by decide)
  | remove target score => exact phrase "scoreboard players remove " _ " " _ (by decide)
  | copy target src => exact phrase "scoreboard players operation " _ " = " _ (by decide)
  | operate target op src =>
    exact phrase ("scoreboard players operation " ++ target.render ++ " ") op.symbol "= " src.render (by simp)
  | reset target => exact starts "scoreboard players reset " _ (by decide)
  | guarded holds cond cmd =>
    rw [render_guarded]
    exact phrase ("execute " ++ (if holds then "if" else "unless") ++ " ") _ " run " _ (by simp)
  | call nameSpace path => exact phrase "function " _ ":" _ (by decide)
  | addObjective id criterion => exact phrase "scoreboard objectives add " _ " " _ (by decide)
  | removeObjective id => exact starts "scoreboard objectives remove " _ (by decide)
  | showObjective id name => exact phrase "scoreboard objectives modify " _ " displayname " _ (by decide)
  | verbatim line => exact absurd rfl (worded line)

theorem Package.textLines_fileText_iff {cmds : List Command}
    (worded : ∀ cmd ∈ cmds, ∀ line, cmd ≠ .verbatim line) :
    textLines (fileText cmds) = cmds.map Command.render ↔ ∀ cmd ∈ cmds, IsLine cmd.render := by
  constructor
  · intro readBack cmd mem
    exact isLine_of_mem_textLines (readBack ▸ mem_map_of_mem mem)
  · intro unbroken
    cases cmds with
    | nil => decide
    | cons first rest =>
      have isFirst := Command.render_ne_empty (worded first (mem_cons_self))
      have filled : ("\n".intercalate ((first :: rest).map Command.render)).isEmpty = false := by
        cases rest with
        | nil => simpa [String.intercalate_singleton] using isFirst
        | cons second rest => simp [String.intercalate_cons_cons]
      rw [fileText, filled]
      exact textLines_joined (by simp) (forall_mem_map.mpr unbroken)

/-! ## Commands of a package -/

namespace State

variable {t : State} {pkg : Package}

theorem FitsLines.commandsAt (fits : t.FitsLines) {id : Nat} {cmd : Command}
    (mem : cmd ∈ t.commandsAt id) : cmd.FitsLine := by
  obtain ⟨cmds, isEmission, inside⟩ := mem_commandsOf.mp mem
  obtain ⟨entry, isEntry, found⟩ := mem_filterMap.mp isEmission
  cases event : entry.event with
  | declared var =>
    rw [event] at found
    cases found
  | emitted emission =>
    rw [event] at found
    cases found
    exact fits.log entry isEntry emission event .activation cmd inside

theorem FitsLines.objectivesOf (fits : t.FitsLines) {entry : Entry} (mem : entry ∈ t.scopes.log)
    {objective : String × String} (own : objective ∈ t.objectivesOf entry) : IsLine objective.1 := by
  unfold State.objectivesOf at own
  split at own
  · next id _ =>
      rw [Option.mem_toList, Option.bind_eq_some_iff] at own
      obtain ⟨var, found, isOwn⟩ := own
      have fitsLine := (fits.vars id var found).2
      unfold Variable.ownObjective? at isOwn
      split at isOwn
      · next isValue =>
          cases isOwn
          rw [isValue] at fitsLine
          exact fitsLine
      · cases isOwn
  · next emission event =>
      obtain ⟨cmd, isCommand, added⟩ := mem_filterMap.mp own
      have fitsLine := fits.log entry mem emission event .setup cmd isCommand
      cases cmd with
      | addObjective id criterion =>
        cases added
        exact fitsLine.1
      | _ => cases added

theorem Yields.broken_iff (yields : t.Yields pkg) (fits : t.FitsLines) {placed : String × Command}
    (mem : placed ∈ pkg.placedCommands) : ¬ IsLine placed.2.render ↔
      ∃ id criterion, placed = ("load", .addObjective id criterion) ∧ ¬ IsLine criterion := by
  constructor
  · intro broken
    rw [yields.placedCommands_eq, mem_append, mem_append] at mem
    obtain ⟨load, unload⟩ := yields.phaseCommands_eq
    have setUp : ∀ objective ∈ t.setUp, IsLine objective.1 := by
      intro objective isSetUp
      obtain ⟨entry, isEntry, own⟩ := mem_flatMap.mp isSetUp
      exact fits.objectivesOf ((yields.sound.unitLogs_perm yields.root).mem_iff.mp isEntry) own
    rcases mem with (isLoad | isUnload) | isInside
    · rw [load, map_map] at isLoad
      obtain ⟨objective, isSetUp, rfl⟩ := mem_map.mp isLoad
      refine ⟨_, _, rfl, fun isLine => broken (Command.isLine_render ⟨setUp objective isSetUp, isLine⟩)⟩
    · rw [unload, map_map] at isUnload
      obtain ⟨objective, isSetUp, rfl⟩ := mem_map.mp isUnload
      have isLine := setUp objective (mem_reverse.mp isSetUp)
      exact absurd (@Command.isLine_render (.removeObjective objective.1) isLine) broken
    · obtain ⟨unit, _, isPlaced⟩ := mem_flatMap.mp isInside
      obtain ⟨cmd, isCommand, rfl⟩ := mem_map.mp isPlaced
      exact absurd (Command.isLine_render (fits.commandsAt isCommand)) broken
  · rintro ⟨id, criterion, rfl, broken⟩ isLine
    have written : IsLine ("scoreboard objectives add " ++ id ++ " " ++ criterion) := isLine
    exact broken (isLine_append.mp written).2

theorem Yields.not_verbatim (yields : t.Yields pkg) {placed : String × Command}
    (mem : placed ∈ pkg.placedCommands) (line : String) : placed.2 ≠ .verbatim line := by
  intro same
  rcases yields.mem_placedCommands mem with outside | ⟨unit, _, _, inside⟩
  · rw [same] at outside
    exact outside
  · have spares := yields.spares_of_mem inside
    rw [same] at spares
    exact spares

end State

/-- A command is one line, and the text of a function is read back as its lines, unless a criterion that is
set up holds a line break. -/
theorem compileSource_unbroken_iff {config : Config} (valid : config.Valid) {src : Nat} {text : String}
    {pkg : Package} (compiled : compileSource src text config = .ok pkg) :
    (∀ placed ∈ pkg.placedCommands, ¬ IsLine placed.2.render ↔
      ∃ id criterion, placed = ("load", .addObjective id criterion) ∧ ¬ IsLine criterion) ∧
    ∀ function ∈ pkg.functions, textLines (Package.fileText function.2) = function.2.map Command.render ↔
        (function.1 = "load" → ∀ id criterion, .addObjective id criterion ∈ function.2 → IsLine criterion) := by
  obtain ⟨t, ran, _, yields⟩ := compileSource_yields valid.usable compiled
  have fits := State.fitsLines_of_ran valid.usable src text
  rw [ran] at fits
  refine ⟨fun placed mem => yields.broken_iff fits mem, fun function isFunction => ?_⟩
  have placed {cmd : Command} (mem : cmd ∈ function.2) : (function.1, cmd) ∈ pkg.placedCommands :=
    mem_flatMap.mpr ⟨function, isFunction, mem_map_of_mem mem⟩
  rw [Package.textLines_fileText_iff (fun cmd mem => yields.not_verbatim (placed mem))]
  constructor
  · intro unbroken isLoad id criterion mem
    by_contra broken
    refine (yields.broken_iff fits (placed mem)).mpr ⟨id, criterion, ?_, broken⟩ (unbroken _ mem)
    rw [isLoad]
  · intro criteria cmd mem
    by_contra broken
    obtain ⟨id, criterion, same, isBroken⟩ := (yields.broken_iff fits (placed mem)).mp broken
    obtain ⟨isLoad, rfl⟩ := Prod.mk.inj same
    exact isBroken (criteria isLoad id criterion mem)

/-- An objective is shown under a text of two lines. -/
theorem compileSource_unbroken_shown :
    ∃ pkg, compileSource 0 "objective o = new objective(); o.DisplayName = \"a\\nb\";" {} = .ok pkg ∧
      ("main", [Command.showObjective "mcs.0" "a\nb"]) ∈ pkg.functions ∧ ∀ function ∈ pkg.functions,
        textLines (Package.fileText function.2) = function.2.map Command.render := by
  have evaluated : (compileSource 0 "objective o = new objective(); o.DisplayName = \"a\\nb\";" {}).toOption.map
      Package.functions = some
        [("load", [.addObjective "mcs.vars" "dummy", .addObjective "mcs.0" "dummy"]),
          ("unload", [.removeObjective "mcs.0", .removeObjective "mcs.vars"]),
          ("main", [.showObjective "mcs.0" "a\nb"])] := by
    decide +kernel
  cases compiled : compileSource 0 "objective o = new objective(); o.DisplayName = \"a\\nb\";" {} with
  | error fault =>
    rw [compiled] at evaluated
    cases evaluated
  | ok pkg =>
    rw [compiled] at evaluated
    have functions := Option.some.inj evaluated
    refine ⟨pkg, rfl, by simp [functions], fun function isFunction => ?_⟩
    refine ((compileSource_unbroken_iff (by decide) compiled).2 function isFunction).mpr ?_
    intro isLoad id criterion mem
    simp only [functions, mem_cons, not_mem_nil, or_false] at isFunction
    rcases isFunction with rfl | rfl | rfl
    · simp only [mem_cons, not_mem_nil, or_false, Command.addObjective.injEq] at mem
      rcases mem with ⟨_, rfl⟩ | ⟨_, rfl⟩
      · decide
      · decide
    · exact absurd isLoad (by decide)
    · exact absurd isLoad (by decide)

/-- A criterion with a line break puts a command of its own into the function. -/
theorem compileSource_criterion_breaks :
    ∃ pkg, compileSource 0 "new objective(\"dummy\\nsay hi\");" {} = .ok pkg ∧
      ∃ cmds, ("load", cmds) ∈ pkg.functions ∧ cmds.map Command.render =
          ["scoreboard objectives add mcs.vars dummy", "scoreboard objectives add mcs.0 dummy\nsay hi"] ∧
        textLines (Package.fileText cmds) =
          ["scoreboard objectives add mcs.vars dummy", "scoreboard objectives add mcs.0 dummy", "say hi"] := by
  have evaluated : (compileSource 0 "new objective(\"dummy\\nsay hi\");" {}).toOption.map
      (fun pkg => pkg.functions.head?) = some (some
        ("load", [.addObjective "mcs.vars" "dummy", .addObjective "mcs.0" "dummy\nsay hi"])) := by
    decide +kernel
  cases compiled : compileSource 0 "new objective(\"dummy\\nsay hi\");" {} with
  | error fault =>
    rw [compiled] at evaluated
    cases evaluated
  | ok pkg =>
    rw [compiled] at evaluated
    have first := Option.some.inj evaluated
    exact ⟨pkg, rfl, _, mem_of_head? first, by decide +kernel, by decide +kernel⟩

end ScoreScript
