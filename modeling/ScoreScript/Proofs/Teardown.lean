import ScoreScript.Proofs.Objectives

/-!
# Teardown mirrors setup

The objectives of a package are set up in the order of the log, unit by unit, and torn down in the
reverse of that order. The objective of the registers is entered before anything else, outside all
units, so that it is there as long as any other.
-/

namespace ScoreScript

open List

/-- The package does nothing but set up the objectives when it is loaded, in their order, and nothing
but tear them down when it is unloaded, in the reverse order. -/
structure Package.SetsUpInOrder (pkg : Package) (objectives : List (String × String)) :
    Prop where
  load : pkg.function? "load" = some (objectives.map (fun objective => .addObjective objective.1 objective.2))
  unload : pkg.function? "unload" = some (objectives.map (fun objective => .removeObjective objective.1)).reverse
  loadLines : pkg.lines.lookup "load" = some (objectives.map (fun objective =>
    "scoreboard objectives add " ++ objective.1 ++ " " ++ objective.2))
  unloadLines : pkg.lines.lookup "unload" = some (objectives.map (fun objective =>
    "scoreboard objectives remove " ++ objective.1)).reverse

theorem Package.lookup_lines (pkg : Package) (path : String) :
    pkg.lines.lookup path = (pkg.function? path).map (map Command.render) := by
  unfold lines function?
  induction pkg.functions with
  | nil => rfl
  | cons function functions ih =>
    rw [map_cons, lookup_cons, lookup_cons, ih]
    cases path == function.1 <;> rfl

namespace State

variable {config : Config} {src : Nat} {t : State} {pkg : Package}

theorem Yields.setUp_eq (yields : t.Yields pkg) (grows : Grows .free (begun config src) t) :
    ∃ others, t.setUp = (config.registerObjective, "dummy") :: others ∧
      ∀ other ∈ others, other.1 ≠ config.registerObjective := by
  obtain ⟨first, rest, log, isFirst, later⟩ := grows.log_begun
  have outside : first.scope = 0 := by
    obtain ⟨_, same⟩ := Steps.log_prefix grows.steps
    rw [log] at same
    exact congrArg Entry.scope (cons.inj same).1.symm
  -- The first entry lies outside the units, so the logs of the units are shares of the others.
  obtain ⟨tail, logs⟩ : ∃ tail, t.unitLogs = first :: tail := by
    rw [unitLogs, unitLog, log, filter_cons_of_pos]
    · exact ⟨_, cons_append⟩
    · rw [outside]
      simp [ScopeTree.belongs, ScopeTree.belongsUpTo]
  have shares : tail.Perm rest := by
    have whole := yields.sound.unitLogs_perm yields.root
    rw [logs, log] at whole
    exact whole.cons_inv
  refine ⟨tail.flatMap t.objectivesOf, ?_, ?_⟩
  · rw [setUp, logs, flatMap_cons, objectivesOf, isFirst]
    rfl
  · intro other mem
    obtain ⟨entry, inTail, inside⟩ := mem_flatMap.mp mem
    have activation := later entry (shares.mem_iff.mp inTail)
    unfold objectivesOf at inside
    cases event : entry.event with
    | emitted emission =>
      rw [event] at activation inside
      have empty : emission.setup = [] := activation.1
      simp [empty] at inside
    | declared id =>
      rw [event] at inside
      obtain ⟨var, found, own⟩ := Option.bind_eq_some_iff.mp (Option.mem_toList.mp inside)
      obtain ⟨_, _, apart⟩ := (yields.sound.fits id var found).of_ownObjective? own
      rwa [grows.config] at apart

end State

/-- What the package of a text sets up is torn down in the reverse order, whatever units and branches
the objectives were constructed in: the objective of the registers is set up before all others and
torn down after them. -/
theorem compileSource_setsUpInOrder {config : Config} (valid : config.Valid) {src : Nat}
    {text : String} {pkg : Package} (compiled : compileSource src text config = .ok pkg) :
    ∃ others, pkg.SetsUpInOrder ((config.registerObjective, "dummy") :: others) ∧
      ∀ other ∈ others, other.1 ≠ config.registerObjective := by
  obtain ⟨t, _, grows, yields⟩ := compileSource_yields valid.usable compiled
  obtain ⟨others, order, apart⟩ := yields.setUp_eq grows
  obtain ⟨load, unload⟩ := yields.function_phases
  rw [map_reverse] at unload
  refine ⟨others, order ▸ ⟨load, unload, ?_, ?_⟩, apart⟩
  · rw [Package.lookup_lines, load, Option.map_some, map_map]
    rfl
  · rw [Package.lookup_lines, unload, Option.map_some, map_reverse, map_map]
    rfl

/-- A script that constructs objectives in both branches of an `if`, and before and after it. -/
def branchingObjectives : String :=
  "objective a = new objective(\"dummy\"); int x; " ++
    "if (x) \x7b objective b = new objective(\"air\", \"b\"); \x7d " ++
    "else \x7b \x7b objective d = new objective(\"food\"); \x7d \x7d " ++
    "objective e = new objective(\"level\");"

/-- The objectives of the branches are set up last and torn down first. -/
theorem compileSource_setsUpInOrder_branches : ∃ pkg, compileSource 0 branchingObjectives {} = .ok pkg ∧
      pkg.SetsUpInOrder [("mcs.vars", "dummy"), ("mcs.0", "dummy"), ("mcs.2", "level"),
        ("b", "air"), ("mcs.1", "food")] := by
  have loads : (compileSource 0 branchingObjectives {}).toOption.map
      (fun pkg => pkg.function? "load") = some (some [.addObjective "mcs.vars" "dummy",
        .addObjective "mcs.0" "dummy", .addObjective "mcs.2" "level", .addObjective "b" "air",
        .addObjective "mcs.1" "food"]) := by
    decide +kernel
  cases compiled : compileSource 0 branchingObjectives {} with
  | error fault =>
    rw [compiled] at loads
    cases loads
  | ok pkg =>
    obtain ⟨others, order, _⟩ := compileSource_setsUpInOrder (by decide) compiled
    have cmds := Option.some.inj (order.load.symm.trans (by
      rw [compiled] at loads
      exact Option.some.inj loads))
    have same : others = [("mcs.0", "dummy"), ("mcs.2", "level"), ("b", "air"), ("mcs.1", "food")] := by
      refine map_injective_iff.mpr (fun left right same => ?_) (cons.inj cmds).2
      exact Prod.ext (Command.addObjective.inj same).1 (Command.addObjective.inj same).2
    exact ⟨pkg, rfl, same ▸ order⟩

end ScoreScript
