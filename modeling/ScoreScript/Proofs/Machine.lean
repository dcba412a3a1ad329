import Mathlib.Logic.Function.Basic
import ScoreScript.Proofs.Compile.Output

/-!
# A machine for packages

What the commands of a package do. A machine keeps a score for every holder in every objective, and
a holder is nothing but a key. A function runs command by command, and a call runs another function
of the package. `Runs` relates commands and the scores before them to the commands that are carried
out, in order, and the scores after them.
-/

namespace ScoreScript

open List

abbrev Board := Register → Score

/-- What an operation on two scores gives. Sums, differences and products wrap, quotients are rounded
down, and nothing is divided by zero. -/
def Score.combine? (op : Operator) (a b : Score) : Option Score :=
  match op with
  | .add => some (a + b)
  | .subtract => some (a - b)
  | .multiply => some (a * b)
  | .divide => some (if b = 0 then a else Int32.ofInt (a.toInt.fdiv b.toInt))
  | .modulo => some (if b = 0 then a else Int32.ofInt (a.toInt.fmod b.toInt))
  | _ => none

theorem Score.combine?_isSome {op : Operator} (arithmetic : op.kind = .arithmetic) (a b : Score) :
    ∃ c, Score.combine? op a b = some c := by
  cases op <;> first
    | exact ⟨_, rfl⟩
    | cases arithmetic

def ScoreRange.Contains : ScoreRange → Score → Prop
  | exactly score, a => a = score
  | atLeast low, a => low ≤ a
  | atMost high, a => a ≤ high

def Comparison.Holds : Comparison → Score → Score → Prop
  | greater, a, b => b < a
  | greaterEqual, a, b => b ≤ a
  | equal, a, b => a = b
  | less, a, b => a < b
  | lessEqual, a, b => a ≤ b

instance (range : ScoreRange) (a : Score) : Decidable (range.Contains a) :=
  match range with
  | .exactly score => inferInstanceAs (Decidable (a = score))
  | .atLeast low => inferInstanceAs (Decidable (low ≤ a))
  | .atMost high => inferInstanceAs (Decidable (a ≤ high))

instance (comparison : Comparison) (a b : Score) : Decidable (comparison.Holds a b) :=
  match comparison with
  | .greater => inferInstanceAs (Decidable (b < a))
  | .greaterEqual => inferInstanceAs (Decidable (b ≤ a))
  | .equal => inferInstanceAs (Decidable (a = b))
  | .less => inferInstanceAs (Decidable (a < b))
  | .lessEqual => inferInstanceAs (Decidable (a ≤ b))

def Condition.holds (board : Board) : Condition → Bool
  | inRange reg range => range.Contains (board reg)
  | compare left comparison right => comparison.Holds (board left) (board right)

variable {reg : Register}

namespace Command

/-- The scores after a command that is carried out at once. A line that is taken as it is can do
anything, so nothing is said about it. -/
def effect? (board : Board) : Command → Option Board
  | set target score => some (Function.update board target score)
  | add target amount => some (Function.update board target (board target + amount))
  | remove target amount => some (Function.update board target (board target - amount))
  | copy target src => some (Function.update board target (board src))
  | operate target op src =>
    (Score.combine? op (board target) (board src)).map (Function.update board target)
  | reset target => some (Function.update board target 0)
  | addObjective .. | showObjective .. => some board
  | removeObjective id => some (fun reg => if reg.objective = id then 0 else board reg)
  | guarded .. | call .. | verbatim _ => none

/-- The command gives the register a score when it is carried out. -/
def Writes : Command → Register → Prop
  | set target _, reg | add target _, reg | remove target _, reg
  | copy target _, reg | operate target _ _, reg | reset target, reg =>
    reg = target
  | removeObjective id, reg => reg.objective = id
  | guarded .., _ | call .., _ | addObjective .., _ | showObjective .., _ | verbatim _, _ => False

theorem effect?_apply {cmd : Command} {board next : Board} (effect : cmd.effect? board = some next)
    (spared : ¬ cmd.Writes reg) : next reg = board reg := by
  cases cmd with
  | set target _ | add target _ | remove target _ | copy target _ | reset target =>
    cases effect
    exact Function.update_of_ne spared _ _
  | operate target op src =>
    obtain ⟨score, _, rfl⟩ := Option.map_eq_some_iff.mp effect
    exact Function.update_of_ne spared _ _
  | addObjective _ _ | showObjective _ _ =>
    cases effect
    rfl
  | removeObjective id =>
    cases effect
    exact if_neg spared
  | guarded _ _ _ | call _ _ | verbatim _ => cases effect

theorem Spares.not_writes {isGuarded : Register → Prop} {cmd : Command} (spares : cmd.Spares isGuarded)
    (guarded : isGuarded reg) : ¬ cmd.Writes reg := by
  intro writes
  cases cmd with
  | set target _ | add target _ | remove target _ | copy target _ | reset target =>
    cases writes
    exact spares guarded
  | operate target op src =>
    cases writes
    exact spares.2 guarded
  | removeObjective id => exact spares
  | addObjective _ _ | showObjective _ _ | guarded _ _ _ | call _ _ | verbatim _ => exact writes

end Command

/-- The commands run on the scores of the first board: the commands in the trace are carried out, in
order, and leave the scores of the last board. -/
inductive Runs (pkg : Package) : List Command → Board → List Command → Board → Prop where
  | done {board : Board} : Runs pkg [] board [] board
  | change {cmd : Command} {rest trace : List Command} {board next last : Board}
      (effect : cmd.effect? board = some next) (later : Runs pkg rest next trace last) :
      Runs pkg (cmd :: rest) board (cmd :: trace) last
  /-- A guard that fails passes a command over. -/
  | skip {holds : Bool} {cond : Condition} {cmd : Command} {rest trace : List Command}
      {board last : Board} (fails : cond.holds board ≠ holds)
      (later : Runs pkg rest board trace last) :
      Runs pkg (.guarded holds cond cmd :: rest) board trace last
  | pass {holds : Bool} {cond : Condition} {cmd : Command} {rest trace : List Command}
      {board last : Board} (succeeds : cond.holds board = holds)
      (later : Runs pkg (cmd :: rest) board trace last) :
      Runs pkg (.guarded holds cond cmd :: rest) board trace last
  | call {path : String} {body rest inner outer : List Command} {board middle last : Board}
      (found : pkg.function? path = some body) (inside : Runs pkg body board inner middle)
      (later : Runs pkg rest middle outer last) :
      Runs pkg (.call pkg.nameSpace path :: rest) board
        (.call pkg.nameSpace path :: (inner ++ outer)) last

namespace Runs

variable {pkg : Package} {cmds trace : List Command} {board last : Board}

theorem of_append {more : List Command} {final : Board} (runs : Runs pkg (cmds ++ more) board trace final) :
    ∃ before middle after, Runs pkg cmds board before middle ∧
      Runs pkg more middle after final ∧ trace = before ++ after := by
  generalize all : cmds ++ more = sequence at runs
  induction runs generalizing cmds with
  | done =>
    obtain ⟨rfl, rfl⟩ := append_eq_nil_iff.mp all
    exact ⟨[], _, [], .done, .done, rfl⟩
  | change effect later ih =>
    rcases append_eq_cons_iff.mp all with ⟨rfl, rfl⟩ | ⟨rest, rfl, rfl⟩
    · exact ⟨[], _, _, .done, .change effect later, rfl⟩
    · obtain ⟨before, middle, after, first, second, rfl⟩ := ih rfl
      exact ⟨_, middle, after, .change effect first, second, rfl⟩
  | skip fails later ih =>
    rcases append_eq_cons_iff.mp all with ⟨rfl, rfl⟩ | ⟨rest, rfl, rfl⟩
    · exact ⟨[], _, _, .done, .skip fails later, rfl⟩
    · obtain ⟨before, middle, after, first, second, rfl⟩ := ih rfl
      exact ⟨_, middle, after, .skip fails first, second, rfl⟩
  | pass succeeds later ih =>
    rcases append_eq_cons_iff.mp all with ⟨rfl, rfl⟩ | ⟨rest, rfl, rfl⟩
    · exact ⟨[], _, _, .done, .pass succeeds later, rfl⟩
    · obtain ⟨before, middle, after, first, second, rfl⟩ := ih (cons_append ..)
      exact ⟨_, middle, after, .pass succeeds first, second, rfl⟩
  | call found inside later _ ih =>
    rcases append_eq_cons_iff.mp all with ⟨rfl, rfl⟩ | ⟨rest, rfl, rfl⟩
    · exact ⟨[], _, _, .done, .call found inside later, rfl⟩
    · obtain ⟨before, middle, after, first, second, rfl⟩ := ih rfl
      exact ⟨_, middle, after, .call found inside first, second, by simp⟩

theorem trace_forall {allowed : Command → Prop}
    (unguarded : ∀ holds cond cmd, allowed (.guarded holds cond cmd) → allowed cmd)
    (closed : ∀ path body, allowed (.call pkg.nameSpace path) →
      pkg.function? path = some body → ∀ cmd ∈ body, allowed cmd)
    (runs : Runs pkg cmds board trace last) (start : ∀ cmd ∈ cmds, allowed cmd) :
    ∀ cmd ∈ trace, allowed cmd := by
  induction runs with
  | done => exact start
  | change _ _ ih =>
    intro cmd mem
    rcases mem_cons.mp mem with rfl | later
    · exact start cmd (mem_cons_self ..)
    · exact ih (fun cmd mem => start cmd (mem_cons_of_mem _ mem)) cmd later
  | skip _ _ ih => exact ih (fun cmd mem => start cmd (mem_cons_of_mem _ mem))
  | pass _ _ ih =>
    refine ih (fun cmd mem => ?_)
    rcases mem_cons.mp mem with rfl | later
    · exact unguarded _ _ _ (start _ (mem_cons_self ..))
    · exact start cmd (mem_cons_of_mem _ later)
  | call found _ _ insideIH laterIH =>
    have called := start _ (mem_cons_self ..)
    intro cmd mem
    rcases mem_cons.mp mem with rfl | later
    · exact called
    rcases mem_append.mp later with inner | outer
    · exact insideIH (closed _ _ called found) cmd inner
    · exact laterIH (fun cmd mem => start cmd (mem_cons_of_mem _ mem)) cmd
        outer

theorem apply_eq (runs : Runs pkg cmds board trace last)
    (spared : ∀ cmd ∈ trace, ¬ cmd.Writes reg) : last reg = board reg := by
  induction runs with
  | done => rfl
  | change effect _ ih =>
    rw [ih (fun cmd mem => spared cmd (mem_cons_of_mem _ mem)),
      Command.effect?_apply effect (spared _ (mem_cons_self ..))]
  | skip _ _ ih => exact ih spared
  | pass _ _ ih => exact ih spared
  | call _ _ _ insideIH laterIH =>
    rw [laterIH (fun cmd mem => spared cmd (by simp [mem])),
      insideIH (fun cmd mem => spared cmd (by simp [mem]))]

end Runs

def Package.CanRun (pkg : Package) (cmds : List Command) : Prop :=
  ∀ board, ∃ trace last, Runs pkg cmds board trace last

theorem Package.canRun_cons {pkg : Package} {isGuarded : Register → Prop} {cmd : Command}
    {rest : List Command} (spares : cmd.Spares isGuarded)
    (calls : ∀ callee, cmd.callee? = some callee → callee.1 = pkg.nameSpace ∧
      ∃ body, pkg.function? callee.2 = some body ∧ pkg.CanRun body)
    (later : pkg.CanRun rest) : pkg.CanRun (cmd :: rest) := by
  have direct : ∀ {cmd : Command} {board next : Board}, cmd.effect? board = some next →
      ∃ trace last, Runs pkg (cmd :: rest) board trace last := by
    intro cmd board next effect
    obtain ⟨trace, last, runs⟩ := later next
    exact ⟨_, last, .change effect runs⟩
  intro board
  induction cmd with
  | set _ _ | add _ _ | remove _ _ | copy _ _ | reset _ | showObjective _ _ => exact direct rfl
  | operate target op src =>
    obtain ⟨score, computed⟩ := Score.combine?_isSome spares.1 (board target) (board src)
    exact direct (by rw [Command.effect?, computed, Option.map_some])
  | guarded holds cond cmd ih =>
    by_cases succeeds : cond.holds board = holds
    · obtain ⟨trace, last, runs⟩ := ih spares.unguarded calls
      exact ⟨trace, last, .pass succeeds runs⟩
    · obtain ⟨trace, last, runs⟩ := later board
      exact ⟨trace, last, .skip succeeds runs⟩
  | call nameSpace path =>
    obtain ⟨rfl, body, found, canRun⟩ := calls (nameSpace, path) rfl
    obtain ⟨inner, middle, inside⟩ := canRun board
    obtain ⟨outer, last, runs⟩ := later middle
    exact ⟨_, last, .call found inside runs⟩
  | addObjective _ _ | removeObjective _ | verbatim _ => exact spares.elim

theorem Package.canRun_of_spares {pkg : Package} {isGuarded : Register → Prop}
    {cmds : List Command} (spares : ∀ cmd ∈ cmds, cmd.Spares isGuarded)
    (calls : ∀ cmd ∈ cmds, ∀ callee, cmd.callee? = some callee → callee.1 = pkg.nameSpace ∧
        ∃ body, pkg.function? callee.2 = some body ∧ pkg.CanRun body) : pkg.CanRun cmds := by
  induction cmds with
  | nil => exact fun board => ⟨[], board, .done⟩
  | cons cmd rest ih =>
    exact canRun_cons (spares cmd (mem_cons_self ..)) (calls cmd (mem_cons_self ..))
      (ih (fun cmd mem => spares cmd (mem_cons_of_mem _ mem))
        (fun cmd mem => calls cmd (mem_cons_of_mem _ mem)))

end ScoreScript
