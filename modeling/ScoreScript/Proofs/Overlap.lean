import ScoreScript.Proofs.Compile.Entry

/-!
# Storage never overlaps

Every variable that gets a register when it is declared gets one of its own, and no objective of a
script is the one of the registers. So the scores that a script reaches through an objective are
never those of its variables. This holds at every point of a compilation: wherever it is broken off, it
leaves a state in which storage does not overlap.
-/

namespace ScoreScript

namespace State

/-- The variable lives in the register that its declaration gave it. -/
def LivesIn (s : State) (id : VarId) (reg : Register) : Prop :=
  ∃ var, s.vars[id]? = some var ∧ var.value = .register reg ∧
    (Compile.registerFor var.scope var.name).runFrom s = (.ok reg, s)

def RefersTo (s : State) (id : VarId) (objective : String) : Prop :=
  ∃ var criterion, s.vars[id]? = some var ∧ var.value = .objective objective criterion

structure KeepsApart (s : State) : Prop where
  /-- Only a result of an expression lives in a register that its declaration did not give it. -/
  given : ∀ (id : VarId) (var : Variable) (reg : Register), s.vars[id]? = some var →
    var.usage ≠ .result → var.value = .register reg → s.LivesIn id reg
  /-- Different variables live in different registers. -/
  registers : ∀ (left right : VarId) (reg : Register), s.LivesIn left reg →
    s.LivesIn right reg → left = right
  /-- No objective of a script is the one of the registers. -/
  objectives : ∀ (id : VarId) (objective : String), s.RefersTo id objective → objective ≠ s.config.registerObjective
  /-- A score of an objective is in no register that a declaration gave. -/
  members : ∀ (owner id : VarId) (objective holder : String) (reg : Register),
    s.RefersTo owner objective → s.LivesIn id reg → (⟨holder, objective⟩ : Register) ≠ reg

theorem KeepsApart.livesIn {s : State} (keeps : s.KeepsApart) {id : VarId} {reg : Register}
    (held : s.vars[id]?.any (fun var => var.usage != .result && var.value == .register reg) = true) :
    s.LivesIn id reg := by
  obtain ⟨var, found, isRegister⟩ := (Option.any_eq_true _ _).mp held
  rw [Bool.and_eq_true, bne_iff_ne, beq_iff_eq] at isRegister
  exact keeps.given id var reg found isRegister.1 isRegister.2

theorem LivesIn.eq {s : State} (sound : s.Sound) {id : VarId} {reg : Register} (lives : s.LivesIn id reg) :
    ∃ var, s.vars[id]? = some var ∧ reg = s.registerAt var.scope var.name := by
  obtain ⟨var, found, _, given⟩ := lives
  rw [Compile.runFrom_registerFor (sound.scopeOf found)] at given
  cases given
  exact ⟨var, found, rfl⟩

theorem Sound.keepsApart {s : State} (sound : s.Sound) (usable : s.config.Usable) : s.KeepsApart := by
  have objectives : ∀ (id : VarId) (objective : String), s.RefersTo id objective →
      objective ≠ s.config.registerObjective := by
    rintro id objective ⟨var, criterion, found, value⟩
    have fits := sound.fits id var found
    rw [Fits, value] at fits
    exact fits.2.2
  refine { given := ?_, registers := ?_, objectives, members := ?_ }
  · intro id var reg found ordinary value
    refine ⟨var, found, value, ?_⟩
    have fits := sound.fits id var found
    rw [Fits, value] at fits
    rcases fits.2.2 with rfl | ⟨_, result, _⟩
    · exact Compile.runFrom_registerFor (sound.scopeOf found) _
    · exact absurd result ordinary
  · intro left right reg isLeft isRight
    obtain ⟨var, found, rfl⟩ := isLeft.eq sound
    obtain ⟨var', found', same⟩ := isRight.eq sound
    exact sound.register_injective usable found found' same
  · rintro owner id objective holder reg refers lives rfl
    obtain ⟨var, _, same⟩ := lives.eq sound
    exact objectives owner objective refers (congrArg Register.objective same)

end State

/-! ## Compilations that are broken off -/

namespace Compile

/-- The step, but not in a state that `stop` picks. -/
def haltIf {α : Type} (stop : State → Bool) (step : Compile α) : Compile α := do
  if stop (← get) then throw ⟨.expectedValue, default⟩ else step

theorem Ends.haltIf {α : Type} {s : State} {always : State → Prop} {step : Compile α} {post : α → State → Prop}
    (ends : Ends step s always post) (stop : State → Bool) (holds : always s) :
    Ends (.haltIf stop step) s always post := by
  unfold Compile.haltIf
  refine .get_bind ?_
  split
  · exact .throw holds (by rintro ⟨⟩)
  · exact ends

end Compile

namespace Engine

/-- An engine that does nothing any more once it is called in a state that `stop` picks. -/
def breaking (stop : State → Bool) (engine : Engine) : Engine where
  evaluate items pos := .haltIf stop (engine.evaluate items pos)
  write tree := .haltIf stop (engine.write tree)
  generate script pos := .haltIf stop (engine.generate script pos)

/-- The engine of a depth, broken off at every level. -/
def ofDepthUntil (stop : State → Bool) (generate : String → Position → Compile String) : Nat → Engine
  | 0 => breaking stop (exhausted generate)
  | depth + 1 =>
      let engine := ofDepthUntil stop generate depth
      breaking stop ⟨engine.evaluateSequence, engine.writeStatement, generate⟩

def generateUntil (stop : State → Bool) : Nat → String → Position → Compile String
  | 0, _, pos => throw ⟨.nestingExhausted, pos⟩
  | generations + 1, script, pos =>
      (ofDepthUntil stop (generateUntil stop generations) (depthFor script.length)).compileScript script pos

/-- The engine for a text, which gives up as soon as it is to compile anything in a state that `stop`
picks. -/
def forTextUntil (stop : State → Bool) (text : String) : Engine :=
  ofDepthUntil stop (generateUntil stop generationLimit) (depthFor text.length)

private theorem breaking_never (engine : Engine) : breaking (fun _ => false) engine = engine :=
  rfl

private theorem ofDepthUntil_never (generate : String → Position → Compile String) (depth : Nat) :
    ofDepthUntil (fun _ => false) generate depth = ofDepth generate depth := by
  induction depth with
  | zero => rfl
  | succ depth ih => rw [ofDepthUntil, ih, breaking_never, ofDepth]

/-- An engine that is never to give up is the one that compiles. -/
private theorem forTextUntil_never (text : String) : forTextUntil (fun _ => false) text = forText text := by
  have same (generations : Nat) : generateUntil (fun _ => false) generations = generateWithin generations := by
    induction generations with
    | zero => rfl
    | succ generations ih =>
      funext script pos
      rw [generateUntil, ih, ofDepthUntil_never, generateWithin]
  rw [forTextUntil, same, ofDepthUntil_never, forText]

variable {config : Config} {engine : Engine} {terms : Terms} {stop : State → Bool}

theorem Lawful.breaking {budget : Nat} (lawful : engine.Lawful config terms budget) (stop : State → Bool) :
    (engine.breaking stop).Lawful config terms budget where
  suits := lawful.suits
  unnamed := lawful.unnamed
  evaluate s items pos ready same evaluable :=
    .haltIf (lawful.evaluate s items pos ready same evaluable) stop (.refl ..)
  write changing s tree ready same within words :=
    .haltIf (lawful.write changing s tree ready same within words) stop (.refl ..)
  generate busy s names script texts pos ready used same spells allows :=
    .haltIf (lawful.generate busy s names script texts pos ready used same spells allows) stop (.refl ..)

private theorem ofDepthUntil_lawful {generate : String → Position → Compile String} (suits : terms.Suits config)
    (unnamed : terms.plain = false → terms.names = [])
    (generates : terms.plain = false → Generates generate config terms) (depth : Nat) :
    (ofDepthUntil stop generate depth).Lawful config terms depth := by
  induction depth with
  | zero => exact (lawful_zero suits unnamed generates).breaking stop
  | succ depth ih => exact (ih.deeper generates).breaking stop

private theorem forTextUntil_lawful (suits : terms.Suits config) (unnamed : terms.plain = false → terms.names = [])
    (text : String) : (forTextUntil stop text).Lawful config terms (depthFor text.length) := by
  refine ofDepthUntil_lawful suits unnamed (fun _ => ?_) _
  refine @compileScript_generates terms config
    (fun script => ofDepthUntil stop (generateUntil stop 1023) (depthFor script.length)) ?_ suits
  exact fun _ _ plain suits => ofDepthUntil_lawful suits (fun busy => nomatch plain.symm.trans busy)
    (fun busy => nomatch plain.symm.trans busy) _

end Engine

/-- The compilation of a text passes through the state: it ends in it, or is in it when it is about to
compile a statement, an expression or a script that it makes up. -/
def State.IsPassed (config : Config) (src : Nat) (text : String) (t : State) : Prop :=
  ∃ stop, (((Engine.forTextUntil stop text).compileEntry text).runFrom (State.start config src)).2 = t

/-- Every state that a compilation passes through keeps registers and objectives apart, whether or
not the script has a fault, and so does every state on the way from one to the next. -/
theorem compileEntry_keepsApart {config : Config} (valid : config.Valid) (src : Nat) (text : String) :
    State.IsPassed config src text
      (((Engine.forText text).compileEntry text).runFrom (State.start config src)).2 ∧
    (∀ t, State.IsPassed config src text t → State.Steps (State.start config src) t ∧ t.KeepsApart) ∧
    ∀ t, State.Steps (State.start config src) t → t.KeepsApart := by
  have apart : ∀ t, State.Steps (State.start config src) t → t.KeepsApart := by
    intro t steps
    have usable : t.config.Usable := (State.Steps.config steps).symm ▸ valid.usable
    exact (State.Steps.sound steps valid.usable (State.sound_start config src)).keepsApart usable
  refine ⟨⟨fun _ => false, by rw [Engine.forTextUntil_never]⟩, ?_, apart⟩
  rintro _ ⟨stop, rfl⟩
  have lawful : (Engine.forTextUntil stop text).Lawful config .free (Engine.depthFor text.length) :=
    Engine.forTextUntil_lawful (.inl Terms.not_guards_free) (fun _ => rfl) text
  have steps : State.Steps (State.start config src)
      (((Engine.forTextUntil stop text).compileEntry text).runFrom (State.start config src)).2 := by
    rcases (lawful.compileEntry_ends valid.usable src).1 with same | grows
    · rw [same]
    · exact (State.steps_begun config src).trans grows.steps
  exact ⟨steps, apart _ steps⟩

/-- The inner `a` has a register of its own. -/
theorem compileEntry_keepsApart_shadowed : ({} : Config).Valid ∧ ∃ t,
    State.IsPassed {} 0 "int a = 1; if (a > 0) \x7b int a = 2; \x7d" t ∧
      t.LivesIn 1 ⟨"main.a", "mcs.vars"⟩ ∧ t.LivesIn 5 ⟨"main.anon_3.a", "mcs.vars"⟩ ∧
      ¬ t.LivesIn 5 ⟨"main.a", "mcs.vars"⟩ := by
  have valid : ({} : Config).Valid := by decide
  obtain ⟨passed, apart, _⟩ := compileEntry_keepsApart valid 0 "int a = 1; if (a > 0) \x7b int a = 2; \x7d"
  obtain ⟨_, keeps⟩ := apart _ passed
  have outer : State.LivesIn _ 1 ⟨"main.a", "mcs.vars"⟩ := keeps.livesIn (by decide +kernel)
  refine ⟨valid, _, passed, outer, keeps.livesIn (by decide +kernel), fun same => ?_⟩
  exact absurd (keeps.registers 1 5 _ outer same) (by decide)

end ScoreScript
