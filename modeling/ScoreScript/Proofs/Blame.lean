import ScoreScript.Proofs.Compile.Entry
import ScoreScript.Proofs.Compile.Output

/-!
# The compiler is never to blame

Whatever the text, compiling it under settings that break no rule gives a package or a fault of the
script. The faults that report a state the compiler should never be in do not occur.
-/

namespace ScoreScript

namespace State

theorem Grows.root_plain {config : Config} {src : Nat} {t : State} (grows : Grows .free (begun config src) t)
    (scope : Scope) (found : t.scopes.scopes[0]? = some scope) : scope.isUnit = false := by
  obtain ⟨root, there, keeps, _⟩ := grows.scopes 0 _ rfl
  rw [found] at there
  cases there
  exact keeps.isUnit

end State

theorem compileSource_cases {config : Config} (usable : config.Usable) (src : Nat) (text : String) :
    (∃ fault t, ((Engine.forText text).compileEntry text).runFrom (State.start config src) = (.error fault, t) ∧
        compileSource src text config = .error fault ∧ fault.kind ≠ .internal) ∨
      ∃ t pkg, ((Engine.forText text).compileEntry text).runFrom (State.start config src) = (.ok (), t) ∧
        compileSource src text config = .ok pkg ∧ State.Grows .free (State.begun config src) t ∧
        pkg.nameSpace = config.nameSpace ∧
        ∀ (id : Nat) (scope : Scope), t.scopes.scopes[id]? = some scope → scope.isUnit = true →
          pkg.function? (t.pathAt id) = some (t.commandsAt id) := by
  rcases (Engine.compileEntry_ends usable src text).cases with
    ⟨_, t, ran, _, grows, _⟩ | ⟨fault, t, ran, _, blameless⟩
  · have sound : t.Sound := grows.sound usable (State.ready_begun usable src).sound
    have config' : t.config = config := grows.config
    obtain ⟨pkg, written, nameSpace, functions⟩ :=
      sound.flush_eq (config'.symm ▸ usable) grows.root_plain
    refine .inr ⟨t, pkg, ran, ?_, grows, by rw [nameSpace, config'], functions⟩
    rw [compileSource, ran]
    exact written
  · refine .inl ⟨fault, t, ran, ?_, blameless⟩
    rw [compileSource, ran]
    rfl

/-- No fault of a compilation is one of the compiler. -/
theorem compileSource_blameless (src : Nat) (text : String) {config : Config}
    (valid : config.Valid) : Blameless (compileSource src text config) := by
  rcases compileSource_cases valid.usable src text with
    ⟨fault, _, _, failed, blameless⟩ | ⟨_, pkg, _, compiled, _⟩
  · rw [failed]
    exact .error blameless
  · rw [compiled]
    exact .ok pkg

theorem compileSource_blameless_bare_if :
    ({} : Config).Valid ∧ Blameless (compileSource 0 "bool b = true; if b \x7b b = !b; \x7d" {}) :=
  ⟨by decide, compileSource_blameless 0 "bool b = true; if b \x7b b = !b; \x7d" (by decide)⟩

end ScoreScript
