import Mathlib.Data.List.Induction
import ScoreScript.Proofs.Blame
import ScoreScript.Proofs.Positions.Entry

/-!
# Faults point into the text

A script is refused with a fault that stands at one of its characters, however deep the statement is
nested that it is about. A script that the compiler makes up has no quotes, so it is always cut into
words, and these stand where the word does that it is made up for.
-/

namespace ScoreScript

namespace Position

def InText (pos : Position) (src : Nat) (text : String) : Prop :=
  ∃ before c after, text.toList = before ++ c :: after ∧ pos = behind src before

end Position

/-- Only what stands at a character of the text is related, to anything. -/
def Footing.inText (src : Nat) (text : String) : Footing where
  place := fun pos _ => pos.InText src text
  strict := True

theorem Token.tokenize_inText (src : Nat) (sep : Char) (text : String) :
    Concur (Footing.inText src text).place (Sames (Footing.inText src text).place)
      (tokenize src sep text) (tokenize src sep text) :=
  scan_concur text.toList .between (fun before c after split =>
    ⟨before, c, after, split, Position.along_start src before⟩)

namespace Engine

open Compile

private theorem forText_inText (src : Nat) (text : String) (budget : Nat) :
    Alike (.inText src text) budget (forText text) (forText text) :=
  ofDepth_alike_same (generateWithin_alike (.inl trivial) generationLimit) id _

variable {config : Config} {src : Nat} {text : String} {fault : Fault} {t : State}

private theorem compileEntry_empty (empty : text.toList = []) (engine : Engine) :
    (engine.compileEntry text).runFrom (State.start config src) = (.ok (), State.begun config src) := by
  cases String.toList_eq_nil_iff.mp empty
  rfl

private theorem compileEntry_fault (usable : config.Usable)
    (ran : ((forText text).compileEntry text).runFrom (State.start config src) = (.error fault, t)) :
    fault.position.InText src text ∨ fault.kind = .internal := by
  cases chars : text.toList with
  | nil =>
    rw [compileEntry_empty chars] at ran
    cases ran
  | cons c rest =>
    have first : (Position.start src).InText src text := ⟨[], c, rest, chars, rfl⟩
    have start : (State.start config src).Tally (.inText src text) (State.start config src) :=
      ⟨.start False.elim first, fun _ => State.start_fitsLines usable src⟩
    have words := Token.tokenize_inText src config.separator text
    have located {other : Fault} (same : other.Same (Footing.inText src text).place other) :
        other.position.InText src text ∨ other.kind = .internal :=
      same.2.imp_right And.left
    cases tokenized : Token.tokenize src config.separator text with
    | error other =>
      have failed : (State.start config src).layout.tokenize text = .error other := tokenized
      have stopped : ((forText text).compileEntry text).runFrom (State.start config src) =
          (.error other, State.start config src) := by
        rw [compileEntry, runFrom_bind_ok runFrom_get]
        exact runFrom_bind_error (by rw [runFrom_lift, failed]) _
      rw [tokenized] at words
      cases ran.symm.trans stopped
      cases words with
      | error same => exact located same
    | ok tokens =>
      rw [tokenized] at words
      cases words with
      | ok texts =>
        obtain ⟨outcomes, _⟩ := (forText_inText src text 0).compileEntry start tokenized tokenized texts False.elim
        rw [ran] at outcomes
        cases outcomes with
        | error same => exact located same

end Engine

def strayScript : String :=
  "bool b = true;\nif (b)\n  \x7b b = b && missing; \x7d"

end ScoreScript
