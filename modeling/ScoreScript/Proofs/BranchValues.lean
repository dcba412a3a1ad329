import ScoreScript.Proofs.Compile.RegularStatements
import ScoreScript.Proofs.Criteria
import ScoreScript.Proofs.Visits

/-!
# What code that may not run leaves behind

The bodies of an `if` are compiled like all other code, whether or not they will run. A number or a
truth value in a register is assigned by a command, so that compiling the assignment changes nothing
that is known of it. Other values are known while compiling: a variable without a value can get its
first in a body, and an objective variable can refer to another objective afterwards. Everything
else stays.
-/

namespace ScoreScript

open List

namespace State

/-- What a variable of a state may hold once an `if` is written, which leads to the state `t`. -/
inductive Settles (s t : State) (id : VarId) (var : Variable) : Value → Prop where
  | same : Settles s t id var var.value
  /-- A variable without a value may have got one. -/
  | first {value : Value} (unset : var.value = .unset) : Settles s t id var value
  /-- An objective variable that is no constant may refer to another objective. -/
  | elsewhere {objective criterion : String} (type : var.type = .objective)
      (free : var.usage ≠ .constant) : Settles s t id var (.objective objective criterion)
  /-- The field of an objective variable may hold the criterion of what that refers to afterwards, unless it
  is a constant that had a value. -/
  | criterion {other : VarId} {owner : Variable} {objective text : String}
      (found : s.vars[other]? = some owner) (type : owner.type = .objective)
      (free : owner.usage = .constant → owner.value = .unset)
      (mem : owner.member? Compile.criterionField = some (.field id))
      (refers : t.vars[other]? = some { owner with value := .objective objective text }) :
      Settles s t id var (.text text)

variable {s t : State} {id field : VarId} {var : Variable}

theorem HasField.field_eq (owns : s.HasField id var)
    (mem : var.member? Compile.criterionField = some (.field field)) : field = id + 1 := by
  rw [Variable.member?, owns.members] at mem
  cases mem
  rfl

/-- Where every objective variable has its field with the criterion, the changes keep these in step. -/
theorem Retains.settles {mode : Mode} (retains : Retains mode s t) (before : s.Synced) (after : t.Synced)
    (found : s.vars[id]? = some var) : ∃ value, t.vars[id]? = some { var with value } ∧ s.Settles t id var value := by
  obtain ⟨value, there, rebound⟩ := retains.vars id var found
  refine ⟨value, there, ?_⟩
  cases rebound with
  | kept => exact .same
  | bound unset => exact .first unset
  | referred type free => exact .elsewhere type free
  | @refreshed other owner criterion isOwner type free mem _ refers =>
    rcases refers with ⟨above, around, isAround, isObjective, isField⟩ | ⟨objective, text, refers⟩
    · -- The owner would be a field, and fields are no objective variables.
      have owns := (before above around isAround).resolve_left (fun plain => plain.other isObjective)
      obtain ⟨_, there, isText, _⟩ := owns.field
      obtain rfl := owns.field_eq isField
      cases there.symm.trans isOwner
      cases isText.symm.trans type
    · have owns := (after other _ refers).resolve_left (fun plain => plain.other type)
      obtain ⟨_, there', _, holds⟩ := owns.field
      obtain rfl := owns.field_eq mem
      cases there'.symm.trans there
      cases holds objective text rfl
      exact .criterion isOwner type free mem refers

end State

namespace Engine

open Compile State

variable {config : Config} {src below : Nat} {text : String} {s t : State} {id : VarId} {tree : Tree}
  {var : Variable} {holds : State → Prop}

theorem Preserves.evaluateCondition {engine : Engine} (preserves : engine.Preserves False holds)
    (lasting : Lasting False holds) (cond : Tree) :
    Compile.Preserves False holds (engine.evaluateCondition cond) Operand.FitsLine := by
  refine preserves.runs lasting (.bind (.evaluateTree (.refl (fun _ => rfl) cond) False.elim) (fun value _ => ?_))
  exact .seq .cast rfl (fun value _ => .composed .operand rfl)

/-- What lasts holds in every state that a compilation comes to a statement in. -/
theorem Visits.lasts {generate : String → Position → Compile String} {depth : Nat} {trees : List Tree}
    (visits : Visits generate depth s trees below t tree) (lasting : Lasting False holds)
    (generates : ∀ script pos, Compile.Preserves False holds (generate script pos) IsLine)
    (before : holds s) : holds t := by
  have preserves (depth : Nat) := ofDepth_preserves lasting generates depth
  induction visits with
  | here => exact before
  | later written _ ih => exact ih (((preserves _).write _ _ before).of_ran written).1
  | @inside depth _ s t _ _ _ _ _ _ _ _ _ compiles opens _ _ ih =>
    have evaluated {cond : Tree} {operand : Operand} {u : State}
        (ran : ((ofDepth generate depth).evaluateCondition cond).runFrom s = (.ok operand, u)) : holds u :=
      (((preserves depth).evaluateCondition lasting cond _ before).of_ran ran).1
    have inside : holds t := by
      cases compiles with
      | block => exact before
      | taken _ known _ => exact evaluated known
      | only _ resident => exact evaluated resident
      | first _ resident guard =>
        exact ((lasting.composed (f := .still False) rfl (.guardRegister False.elim _) _ _ (evaluated resident)).of_ran guard).1
      | second _ resident guard called =>
        have guarded := ((lasting.composed (f := .still False) rfl (.guardRegister False.elim _) _ _
          (evaluated resident)).of_ran guard).1
        exact (((preserves depth).runs lasting (.callGuarded (.refl (fun _ => rfl) _) False.elim false False.elim)
          _ guarded).of_ran called).1
    exact ih (lasting.move _ ((lasting.openUnit _ inside).of_ran opens).1)

theorem VisitsIn.synced (visits : VisitsIn config src text below s tree) : s.Synced := by
  obtain ⟨_, _, _, _, visits⟩ := visits
  refine visits.lasts lasting_synced (generateWithin_preserves lasting_synced _) ?_
  rintro _ _ ⟨⟩

/-- A body that lets an objective variable refer elsewhere. -/
def reassigningScript : String :=
  "objective a = new objective(); int x; if (x) a = new objective(\"air\");"

private theorem reassigningScript_runs : ∃ (s t u : State) (tree cond body : Tree) (held : Register),
    VisitsIn {} 0 reassigningScript 343 s tree ∧ tree.IfOf cond body none ∧
    ((ofDepth (generateWithin generationLimit) 343).evaluateCondition cond).runFrom s = (.ok (.resident held), t) ∧
    ((ofDepth (generateWithin generationLimit) 343).writeIf tree).runFrom s = (.ok (), u) ∧
    [2, 3].map (fun id : VarId => s.vars[id]?.map Variable.value) =
      [some (.objective "mcs.0" "dummy"), some (.text "dummy")] ∧
    [2, 3].map (fun id : VarId => u.vars[id]?.map Variable.value) =
      [some (.objective "mcs.1" "air"), some (.text "air")] := by
  let generate := generateWithin generationLimit
  obtain ⟨tokens, one, two, tree, cond, body, first, second, tested, last,
      tokenized, read, ifOf, isFirst, isSecond, isTested, isLast, done, resident, values⟩ :
      ∃ (tokens : List Token) (one two tree cond body : Tree)
        (first second : Except Fault Unit × State) (tested : Except Fault Operand × State)
        (last : Except Fault Unit × State),
        Token.tokenize 0 ';' reassigningScript = .ok tokens ∧
        Layout.readStatements ⟨0, ';'⟩ tokens = .ok [one, two, tree] ∧
        tree.IfOf cond body none ∧
        ((ofDepth generate 344).write one).runFrom (State.begun {} 0) = first ∧
        ((ofDepth generate 344).write two).runFrom first.2 = second ∧
        ((ofDepth generate 343).evaluateCondition cond).runFrom second.2 = tested ∧
        ((ofDepth generate 343).writeIf tree).runFrom second.2 = last ∧
        (first.1 = .ok () ∧ second.1 = .ok () ∧ last.1 = .ok ()) ∧
        tested.1 = .ok (.resident ⟨"main.anon_4", "mcs.vars"⟩) ∧
        [2, 3].map (fun id : VarId => second.2.vars[id]?.map Variable.value) =
          [some (.objective "mcs.0" "dummy"), some (.text "dummy")] ∧
        [2, 3].map (fun id : VarId => last.2.vars[id]?.map Variable.value) =
          [some (.objective "mcs.1" "air"), some (.text "air")] := by
    refine ⟨?_, ?_, ?_, ?_, ?_, ?_, ?_, ?_, ?_, ?_, ?tokenized, ?read, ?ifOf, ?first, ?second, ?tested,
      ?last, ?outcomes⟩
    case tokenized => cbv; rfl
    case read => rfl
    case ifOf =>
      refine .single ?_
      rfl
    case first | second | tested | last => rfl
    case outcomes => decide +kernel
  obtain ⟨ok, ok', written⟩ := done
  exact ⟨second.2, tested.2, last.2, tree, cond, body, _,
    ⟨tokens, _, tokenized, read, .later (isFirst.trans (Prod.ext ok rfl))
      (.later (isSecond.trans (Prod.ext ok' rfl)) .here)⟩,
    ifOf, isTested.trans (Prod.ext resident rfl), isLast.trans (Prod.ext written rfl), values⟩

end Engine

end ScoreScript
