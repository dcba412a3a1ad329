import ScoreScript.Proofs.Compile.Entry
import ScoreScript.Proofs.Compile.Exchange

/-!
# Compilation ends

Expressions, statements, bodies and the scripts that the compiler makes up are compiled by recursion.
An engine is one stage of it: what lies deeper goes to the engine below. Here the recursion is unrolled
over an engine that may do anything at all. A text needs no more stages than its length allows for, and
the scripts that it leads to make up no further ones, so nothing ever reaches the engine at the ground:
the recursion is well founded.
-/

namespace ScoreScript

namespace Compile

variable {α β : Type}

def Refused (outcome : Except Fault α) : Prop :=
  ∃ pos, outcome = .error ⟨.nestingExhausted, pos⟩

def Refines (step other : Compile α) : Prop :=
  ∀ s, Refused (step.runFrom s).1 ∨ other.runFrom s = step.runFrom s

namespace Refines

variable {step other : Compile α}

theorem refl (step : Compile α) : Refines step step :=
  fun _ => .inr rfl

private theorem of_throw (pos : Position) (other : Compile α) : Refines (throw ⟨.nestingExhausted, pos⟩) other :=
  fun _ => .inl ⟨pos, rfl⟩

theorem bind {next next' : α → Compile β} (first : Refines step other)
    (rest : ∀ a, Refines (next a) (next' a)) : Refines (step >>= next) (other >>= next') := by
  intro s
  rw [runFrom_bind, runFrom_bind]
  rcases first s with ⟨pos, refused⟩ | same
  · rcases ran : step.runFrom s with ⟨outcome, t⟩
    rw [ran] at refused
    cases refused
    exact .inl ⟨pos, rfl⟩
  · rw [same]
    rcases step.runFrom s with ⟨fault | a, t⟩
    · exact .inr rfl
    · exact rest a t

theorem inScope (scope : ScopeId) (refines : Refines step other) :
    Refines (Compile.inScope scope step) (Compile.inScope scope other) := by
  intro s
  rcases refines { s with current := scope } with refused | same
  · exact .inl refused
  · rw [runFrom_inScope, runFrom_inScope, same]
    exact .inr rfl

end Refines

end Compile

namespace Engine

open Compile

/-- Wherever an engine does not refuse, the other one does the same. -/
structure Refines (engine other : Engine) : Prop where
  evaluate : ∀ (items : List Tree) (pos : Position),
    Compile.Refines (engine.evaluate items pos) (other.evaluate items pos)
  write : ∀ tree : Tree, Compile.Refines (engine.write tree) (other.write tree)
  generate : ∀ (script : String) (pos : Position),
    Compile.Refines (engine.generate script pos) (other.generate script pos)

variable {engine other : Engine}

theorem Exchange.refines {α : Type} {step step' : Compile α} {post : α → Prop}
    (exchange : Exchange (.still False) 0 engine other step step' post) (refines : engine.Refines other) :
    Compile.Refines step step' := by
  induction exchange with
  | result _ => exact .refl _
  | composed _ placed =>
    cases placed
    exact .refl _
  | evaluate same _ placed =>
    cases placed
    cases Tree.Sames.eq (fun _ _ => id) same
    exact refines.evaluate _ _
  | write same _ =>
    cases same.eq (fun _ _ => id)
    exact refines.write _
  | generate _ placed =>
    cases placed
    exact refines.generate _ _
  | bind _ _ first rest => exact first.bind (fun a => rest a False.elim)
  | get_bind _ rest =>
    refine .bind (.refl _) (fun s => rest s s (.refl (fun _ => rfl) False.elim) False.elim)
  | var_bind id _ rest =>
    refine .bind (.refl _) (fun var => rest var var ⟨_, rfl, rfl⟩ False.elim)
  | lift_bind concur agree _ rest =>
    cases agree (fun _ _ => id)
    cases concur with
    | ok related => exact rest _ _ related rfl
    | error _ => exact .refl _
  | inUnit placed _ inside =>
    cases placed
    exact (Compile.Refines.refl _).bind (fun unit => (inside.inScope unit.2).bind (fun _ => .refl _))

/-! ## Stages of the recursion -/

/-- One stage of the recursion: what lies deeper goes to the engine. -/
def above (engine : Engine) : Engine where
  evaluate := engine.evaluateSequence
  write := engine.writeStatement
  generate := engine.generate

def stages (ground : Engine) : Nat → Engine
  | 0 => ground
  | count + 1 => (ground.stages count).above

/-- The recursion on a text and on the scripts that it leads to, unrolled over an engine. -/
def unrolled (ground : Engine) (count : String → Nat) (text : String) : Engine :=
  { ground with
    generate := fun script pos =>
      (ground.stages (count script)).compileScript script pos }.stages (count text)

@[simp]
theorem generate_stages (ground : Engine) (count : Nat) : (ground.stages count).generate = ground.generate := by
  induction count with
  | zero => rfl
  | succ count ih => exact ih

private theorem ofDepth_eq_stages (generate : String → Position → Compile String) (depth : Nat) :
    ofDepth generate depth = (exhausted generate).stages depth := by
  induction depth with
  | zero => rfl
  | succ depth ih => rw [stages, above, generate_stages, ofDepth, ih, exhausted]

theorem stages_add (ground : Engine) (first second : Nat) :
    ground.stages (first + second) = (ground.stages first).stages second := by
  induction second with
  | zero => rfl
  | succ second ih => rw [← Nat.add_assoc, stages, stages, ih]

namespace Refines

theorem exhausted {generate : String → Position → Compile String} (generates : ∀ script pos,
      Compile.Refines (generate script pos) (other.generate script pos)) :
    (exhausted generate).Refines other where
  evaluate := fun _ pos => .of_throw pos _
  write := fun tree => .of_throw tree.position _
  generate := generates

theorem stages (refines : engine.Refines other) (count : Nat) : (engine.stages count).Refines (other.stages count) := by
  induction count with
  | zero => exact refines
  | succ count ih =>
    exact
      { evaluate := fun items pos => (Exchange.evaluateSequence_still items pos).refines ih
        write := fun tree => (Exchange.writeStatement_still tree).refines ih
        generate := ih.generate }

theorem compileEntry (refines : engine.Refines other) (text : String) :
    Compile.Refines (engine.compileEntry text) (other.compileEntry text) :=
  (Compile.Refines.refl _).bind (fun _ => (Compile.Refines.refl _).bind (fun tokens =>
    (Compile.Refines.refl _).bind (fun scope =>
      ((Exchange.compileTokens_still tokens).refines refines).inScope scope)))

end Refines

def least (text : String) : Engine :=
  ofDepth (generateWithin 1) (depthFor text.length)

private theorem generateWithin_one_refines {count : String → Nat}
    (enough : ∀ script : String, depthFor script.length ≤ count script) (ground : Engine)
    (script : String) (pos : Position) : Compile.Refines (generateWithin 1 script pos)
      ((ground.stages (count script)).compileScript script pos) := by
  obtain ⟨more, total⟩ := Nat.exists_eq_add_of_le' (enough script)
  rw [generateWithin, ofDepth_eq_stages, total, stages_add]
  refine (Exchange.compileScript_still script pos).refines (Refines.stages (.exhausted ?_) _)
  exact fun _ pos => .of_throw pos _

private theorem least_refines_unrolled {count : String → Nat}
    (enough : ∀ script : String, depthFor script.length ≤ count script) (ground : Engine)
    (text : String) : (least text).Refines (ground.unrolled count text) := by
  obtain ⟨more, total⟩ := Nat.exists_eq_add_of_le' (enough text)
  rw [least, ofDepth_eq_stages, unrolled, total, stages_add]
  refine Refines.stages (.exhausted (fun script pos => ?_)) _
  rw [generate_stages]
  exact generateWithin_one_refines enough ground script pos

private theorem least_refines_forText (text : String) : (least text).Refines (forText text) := by
  have more (script : String) (pos : Position) :
      Compile.Refines (generateWithin 1 script pos)
        (generateWithin generationLimit script pos) := by
    rw [generationLimit, generateWithin, generateWithin, ofDepth_eq_stages, ofDepth_eq_stages]
    refine (Exchange.compileScript_still script pos).refines (Refines.stages (.exhausted ?_) _)
    exact fun _ pos => .of_throw pos _
  rw [least, forText, ofDepth_eq_stages, ofDepth_eq_stages]
  exact Refines.stages (.exhausted more) _

theorem Refines.runFrom_compileEntry {config : Config} (usable : config.Usable) (src : Nat) {text : String}
    (refines : (least text).Refines engine) : (engine.compileEntry text).runFrom (State.start config src) =
      ((least text).compileEntry text).runFrom (State.start config src) := by
  have suits : Terms.free.Suits config := .inl Terms.not_guards_free
  have lawful : (least text).Lawful config .free (depthFor text.length) :=
    ofDepth_lawful suits (fun _ => rfl) (fun _ => generateWithin_generates suits 0) _
  rcases refines.compileEntry text (State.start config src) with ⟨pos, refused⟩ | same
  · exact absurd rfl ((lawful.compileEntry_ends usable src).2.1 _ refused)
  · exact same

end Engine

/-- The recursion of the compiler is well founded on every text: unrolled as far as the lengths of the
text and of the scripts that it leads to allow for, it never comes to what lies below, whatever that
would do. So nothing is refused for being nested too deeply. -/
theorem compileEntry_wellFounded {config : Config} (valid : config.Valid) (src : Nat) (text : String) :
    (∀ (ground : Engine) (count : String → Nat), (∀ script : String, Engine.depthFor script.length ≤ count script) →
      ((ground.unrolled count text).compileEntry text).runFrom (State.start config src) =
        ((Engine.forText text).compileEntry text).runFrom (State.start config src)) ∧ ¬ Compile.Refused
      (((Engine.forText text).compileEntry text).runFrom (State.start config src)).1 := by
  have usable := valid.usable
  refine ⟨fun ground count enough => ?_, ?_⟩
  · calc
      _ = ((Engine.least text).compileEntry text).runFrom (State.start config src) :=
        (Engine.least_refines_unrolled enough ground text).runFrom_compileEntry usable src
      _ = _ := ((Engine.least_refines_forText text).runFrom_compileEntry usable src).symm
  · rintro ⟨pos, refused⟩
    exact (Engine.compileEntry_ends usable src text).2.1 _ refused rfl

/-- The bodies of these conditions get braces when they are read, and `!` and `&&` are compiled from
scripts of their own. -/
theorem compileEntry_wellFounded_nested : ({} : Config).Valid ∧ (∀ (ground : Engine) (count : String → Nat),
      (∀ script : String, Engine.depthFor script.length ≤ count script) →
      ((ground.unrolled count "bool a = true; bool b = !a; if (a) if (b) if (a && b) b = a;").compileEntry
          "bool a = true; bool b = !a; if (a) if (b) if (a && b) b = a;").runFrom (State.start {} 0) =
        ((Engine.forText "bool a = true; bool b = !a; if (a) if (b) if (a && b) b = a;").compileEntry
          "bool a = true; bool b = !a; if (a) if (b) if (a && b) b = a;").runFrom (State.start {} 0)) ∧
    ¬ Compile.Refused
      (((Engine.forText "bool a = true; bool b = !a; if (a) if (b) if (a && b) b = a;").compileEntry
        "bool a = true; bool b = !a; if (a) if (b) if (a && b) b = a;").runFrom (State.start {} 0)).1 :=
  ⟨by decide, compileEntry_wellFounded (by decide) 0 _⟩

end ScoreScript
