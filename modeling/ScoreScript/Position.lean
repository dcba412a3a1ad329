/-!
# Source positions

Every word of a script remembers where it was written, so that a fault found late can still
point at the text that caused it. Lines and columns count from one; a column counts characters
since the last line break.
-/

namespace ScoreScript

/-- A place in one of the sources of a compilation. -/
structure Position where
  source : Nat
  line : Nat
  column : Nat
deriving DecidableEq

namespace Position

def start (source : Nat) : Position :=
  ⟨source, 1, 1⟩

/-- Faults that belong to no text point at the start of source zero. -/
instance : Inhabited Position :=
  ⟨start 0⟩

/-- The position just after the character `c` written at `position`. -/
def advance (position : Position) (c : Char) : Position :=
  if c = '\n' then ⟨position.source, position.line + 1, 1⟩
  else ⟨position.source, position.line, position.column + 1⟩

def render (position : Position) : String :=
  toString position.source ++ ":" ++ toString position.line ++ ":" ++ toString position.column

@[simp]
theorem advance_source (position : Position) (c : Char) : (position.advance c).source = position.source := by
  unfold advance
  split <;> rfl

end Position

end ScoreScript
