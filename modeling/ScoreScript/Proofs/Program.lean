import ScoreScript.Proofs.Blame
import ScoreScript.Proofs.Machine

/-!
# Compiled programs

The package of a text as a program: every function is that of a unit, every command is one that a
machine knows, every call goes to a unit inside the one it is made from, which nothing else calls, and
every unit but the entry is called. So every function runs to its end, whatever the scores are.
-/

namespace ScoreScript

open List

open State

namespace State

/-- The package has the function of every unit of the state, and the units call each other as they are
nested. -/
structure Yields (t : State) (pkg : Package) : Prop where
  sound : t.Sound
  usable : t.config.Usable
  nameSpace : pkg.nameSpace = t.config.nameSpace
  functions : ∀ (id : Nat) (scope : Scope), t.scopes.scopes[id]? = some scope →
    scope.isUnit = true → pkg.function? (t.pathAt id) = some (t.commandsAt id)
  spares : ∀ entry ∈ t.emissions, ∀ cmd ∈ entry.2, cmd.Spares (fun _ => False)
  calls : ∀ entry ∈ t.emissions, ∀ cmd ∈ entry.2, ∀ callee, cmd.callee? = some callee →
    t.CallsUnit 0 entry.1 callee
  once : (callees t.emissions).Nodup
  written : t.flush = .ok pkg
  /-- The root is no unit, and all commands are those of units. -/
  root : ∀ scope, t.scopes.scopes[0]? = some scope → scope.isUnit = false
  placed : ∀ entry ∈ t.emissions, entry.2 ≠ [] → ∃ scope, t.scopes.scopes[entry.1]? = some scope ∧ scope.isUnit = true
  covers : ∀ unit ∈ t.units, unit.path = t.config.entry ∨ (t.config.nameSpace, unit.path) ∈ callees t.emissions
  /-- Only objectives are set up and torn down. -/
  phases : ∀ entry ∈ t.scopes.log, entry.event.IsActivation ∨
    ∃ id criterion, entry.event = .emitted (.ofObjective id criterion)

namespace Yields

variable {t : State} {pkg : Package}

theorem spares_of_mem (yields : t.Yields pkg) {id : Nat} {cmd : Command}
    (mem : cmd ∈ t.commandsAt id) : cmd.Spares (fun _ => False) := by
  obtain ⟨cmds, isEntry, inside⟩ := mem_commandsOf.mp mem
  exact yields.spares _ isEntry cmd inside

theorem callsUnit_of_mem (yields : t.Yields pkg) {id : Nat} {cmd : Command} (mem : cmd ∈ t.commandsAt id)
    {callee : String × String} (called : cmd.callee? = some callee) : t.CallsUnit 0 id callee := by
  obtain ⟨cmds, isEntry, inside⟩ := mem_commandsOf.mp mem
  exact yields.calls _ isEntry cmd inside callee called

theorem package_functions (yields : t.Yields pkg) : pkg.functions = t.functions := by
  have written := yields.sound.flush_functions yields.usable yields.root
  rw [yields.written] at written
  cases written
  rfl

theorem commandsAt_root (yields : t.Yields pkg) : t.commandsAt 0 = [] := by
  refine eq_nil_iff_forall_not_mem.mpr (fun cmd mem => ?_)
  obtain ⟨cmds, isEntry, inside⟩ := mem_commandsOf.mp mem
  obtain ⟨scope, found, isUnit⟩ := yields.placed _ isEntry (ne_nil_of_mem inside)
  rw [yields.root scope found] at isUnit
  cases isUnit

end Yields

theorem Yields.canRun {t : State} {pkg : Package} (yields : t.Yields pkg) (id : Nat) :
    pkg.CanRun (t.commandsAt id) := by
  induction distance : t.scopes.size - id using Nat.strongRecOn generalizing id with
  | ind count ih =>
    refine Package.canRun_of_spares (fun _ => yields.spares_of_mem) ?_
    intro cmd mem callee called
    obtain ⟨unit, scope, _, found, isUnit, parent, rfl⟩ := yields.callsUnit_of_mem mem called
    have after := yields.sound.rooted.lt_of_parent found parent
    have inside := ScopeTree.lt_size_of_getElem? found
    exact ⟨yields.nameSpace.symm, _, yields.functions unit scope found isUnit,
      ih (t.scopes.size - unit) (by omega) unit rfl⟩

end State

theorem compileSource_yields {config : Config} (usable : config.Usable) {src : Nat} {text : String}
    {pkg : Package} (compiled : compileSource src text config = .ok pkg) :
    ∃ t, ((Engine.forText text).compileEntry text).runFrom (State.start config src) = (.ok (), t) ∧
      State.Grows .free (begun config src) t ∧ t.Yields pkg := by
  rcases compileSource_cases usable src text with
    ⟨fault, _, _, failed, _⟩ | ⟨t, written, ran, same, grows, nameSpace, functions⟩
  · rw [failed] at compiled
    cases compiled
  rw [compiled] at same
  cases same
  obtain ⟨_, _, covers⟩ := (Engine.compileEntry_ends usable src text).of_ran ran
  have config' : t.config = config := grows.config
  have sound : t.Sound := grows.sound usable (ready_begun usable src).sound
  -- Nothing runs when the compilation begins: the register objective is set up beforehand.
  have all : t.emissions = (0, []) :: (begun config src).since t :=
    emissions_eq grows.emits.kept
  refine ⟨t, ran, grows,
    { sound
      usable := config'.symm ▸ usable
      nameSpace := by rw [nameSpace, config']
      functions
      spares := ?spares, calls := ?calls, once := ?once
      written := ?written, root := grows.root_plain, placed := ?placed
      covers := ?covers, phases := ?phases }⟩
  case spares =>
    intro entry mem cmd inside
    rcases mem_cons.mp (all ▸ mem) with rfl | later
    · cases inside
    · exact grows.emits.spares entry later cmd inside
  case calls =>
    intro entry mem cmd inside callee called
    rcases mem_cons.mp (all ▸ mem) with rfl | later
    · cases inside
    · obtain ⟨unit, scope, _, rest⟩ := grows.emits.calls entry later cmd inside callee called
      exact ⟨unit, scope, Nat.zero_le _, rest⟩
  case once =>
    rw [all]
    exact grows.emits.once
  case written =>
    rw [compileSource, ran] at compiled
    exact compiled
  case placed =>
    intro entry mem some
    obtain ⟨logged, isLogged, isEntry⟩ := mem_filterMap.mp mem
    cases event : logged.event with
    | declared id => simp [event] at isEntry
    | emitted emission =>
      obtain ⟨scope, found, place⟩ := (sound.log logged isLogged).place
      simp only [event, Option.some.injEq] at isEntry
      subst isEntry
      refine ⟨scope, found, (place (by rw [event]; rfl)).resolve_left (fun outside => ?_)⟩
      rcases mem_cons.mp (all ▸ mem) with same | later
      · exact some (Prod.mk.inj same).2
      · have place := grows.emits.place _ later
        rw [outside] at place
        exact place.elim Nat.zero_ne_one (Nat.not_succ_le_zero 1)
  case covers =>
    intro unit mem
    rw [all]
    rcases covers unit mem with isEntry | called
    · obtain ⟨_, _, _, path⟩ := (ready_begun usable src).sound.units unit isEntry
      refine .inl ?_
      rw [path, mem_singleton.mp isEntry, config']
      exact pathAt_begun usable src
    · exact .inr called
  case phases =>
    intro entry mem
    refine (grows.emits.phases entry mem).symm.imp_right (fun first => ?_)
    rw [mem_singleton.mp first]
    exact ⟨_, _, rfl⟩

end ScoreScript
