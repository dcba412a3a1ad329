import ScoreScript.Proofs.Compile.Sound

/-!
# The types of registers

A register belongs to the variable that has its name, and that one is a number or a truth value. A
number takes any score, and so does a register outside the register objective. A truth value is set to
zero or one, or copied from a truth value. Commands that keep to this go on doing so while variables
are made.
-/

namespace ScoreScript

def Command.target? : Command → Option Register
  | set target _ | add target _ | remove target _ | copy target _ | operate target _ _
  | reset target => some target
  | guarded .. | call .. | addObjective .. | removeObjective _ | showObjective .. | verbatim _ => none

namespace State

def IsNumber (s : State) (reg : Register) : Prop :=
  ∃ (id : Nat) (var : Variable), s.vars[id]? = some var ∧ var.type = .int ∧ reg = s.registerAt var.scope var.name

def TakesAny (s : State) (reg : Register) : Prop :=
  reg.objective ≠ s.config.registerObjective ∨ s.IsNumber reg

def HoldsTruth (s : State) (reg : Register) : Prop :=
  ∃ (id : Nat) (var : Variable), s.vars[id]? = some var ∧ var.type = .bool ∧ var.value = .register reg

structure KeepsTypes (s t : State) : Prop where
  config : t.config = s.config
  numbers : ∀ reg, s.IsNumber reg → t.IsNumber reg
  truths : ∀ reg, s.HoldsTruth reg → t.HoldsTruth reg

end State

inductive Command.WellTyped (s : State) : Command → Prop where
  | number {cmd : Command} {target : Register} (writes : cmd.target? = some target)
      (takes : s.TakesAny target) : WellTyped s cmd
  | truth {target : Register} {score : Score} (isTruth : s.HoldsTruth target)
      (isBit : score = 0 ∨ score = 1) : WellTyped s (.set target score)
  | share {target src : Register} (isTruth : s.HoldsTruth target)
      (shared : s.HoldsTruth src) : WellTyped s (.copy target src)
  | guarded {holds : Bool} {cond : Condition} {cmd : Command}
      (inner : WellTyped s cmd) : WellTyped s (.guarded holds cond cmd)
  | call {nameSpace path : String} : WellTyped s (.call nameSpace path)
  | showObjective {id name : String} : WellTyped s (.showObjective id name)

namespace State

variable {s t : State}

variable {reg : Register}

theorem TakesAny.keeps (takes : s.TakesAny reg) (keeps : KeepsTypes s t) : t.TakesAny reg := by
  rcases takes with foreign | isNumber
  · left
    rw [keeps.config]
    exact foreign
  · right
    exact keeps.numbers _ isNumber

theorem TakesAny.serves (takes : s.TakesAny reg) : s.Serves reg :=
  takes.imp_right (fun ⟨id, var, found, _, own⟩ => ⟨id, var, found, own⟩)

theorem HoldsTruth.serves (sound : s.Sound) (truth : s.HoldsTruth reg) : s.Serves reg := by
  obtain ⟨id, var, found, isBool, held⟩ := truth
  have fits := sound.fits id var found
  rw [Fits, held, isBool] at fits
  obtain ⟨_, _, own | ⟨impossible, _⟩⟩ := fits
  · exact .inr ⟨id, var, found, own⟩
  · cases impossible

theorem KeepsTypes.of_vars (config : t.config = s.config)
    (vars : ∀ (id : Nat) (var : Variable), s.vars[id]? = some var → ∃ later,
      t.vars[id]? = some later ∧ later.type = var.type ∧
        t.registerAt later.scope later.name = s.registerAt var.scope var.name ∧
        (var.type = .bool → ∀ reg, var.value = .register reg →
          later.value = .register reg)) : KeepsTypes s t := by
  refine ⟨config, ?_, ?_⟩
  · rintro reg ⟨id, var, found, isInt, rfl⟩
    obtain ⟨later, there, type, own, _⟩ := vars id var found
    exact ⟨id, later, there, type.trans isInt, own.symm⟩
  · rintro reg ⟨id, var, found, isBool, held⟩
    obtain ⟨later, there, type, _, kept⟩ := vars id var found
    exact ⟨id, later, there, type.trans isBool, kept isBool reg held⟩

theorem KeepsTypes.of_eq (config : t.config = s.config) (vars : t.vars = s.vars)
    (scopes : t.scopes.scopes = s.scopes.scopes) : KeepsTypes s t := by
  apply of_vars config
  intro id var found
  refine ⟨var, vars ▸ found, rfl, registerAt_eq config ?_ var.name, fun _ _ held => held⟩
  exact ScopeTree.segments_congr scopes var.scope

end State

theorem Command.WellTyped.keeps {s t : State} {cmd : Command} (typed : cmd.WellTyped s)
    (keeps : State.KeepsTypes s t) : cmd.WellTyped t := by
  induction typed with
  | number writes takes => exact .number writes (takes.keeps keeps)
  | truth isTruth isBit => exact .truth (keeps.truths _ isTruth) isBit
  | share isTruth shared => exact .share (keeps.truths _ isTruth) (keeps.truths _ shared)
  | guarded _ ih => exact .guarded ih
  | call => exact .call
  | showObjective => exact .showObjective

end ScoreScript
