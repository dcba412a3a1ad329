import ScoreScript.Proofs.Compile.Outcome

/-!
# Runs that coincide

Two runs coincide when they differ in positions only: both give results that are related, or both fail
for the same cause at related positions, and the states after them are related as those before were.
A fault of the compiler itself is at the same position in both. A sequence of steps coincides with
another when its parts do.
-/

namespace ScoreScript

variable {α β γ δ σ τ : Type} {place : Position → Position → Prop}

def Fault.Same (place : Position → Position → Prop) (f g : Fault) : Prop :=
  f.cause = g.cause ∧ (place f.position g.position ∨ f.kind = .internal ∧ f.position = g.position)

/-- Two outcomes that are both results, which are related, or both faults with the same cause. -/
inductive Concur (place : Position → Position → Prop) (rel : α → β → Prop) :
    Except Fault α → Except Fault β → Prop where
  | ok {a : α} {b : β} : rel a b → Concur place rel (.ok a) (.ok b)
  | error {f g : Fault} : f.Same place g → Concur place rel (.error f) (.error g)

namespace Concur

variable {rel : α → β → Prop} {first : Except Fault α} {second : Except Fault β}

theorem fail {p q : Position} (cause : Cause) (placed : place p q) :
    Concur place rel (.error ⟨cause, p⟩) (.error ⟨cause, q⟩) :=
  .error ⟨rfl, .inl placed⟩

theorem refl (stays : ∀ p, place p p) (outcome : Except Fault α) : Concur place Eq outcome outcome := by
  cases outcome with
  | ok a => exact .ok rfl
  | error fault => exact .fail _ (stays _)

section

variable (concur : Concur place rel first second)
include concur

theorem mono {rel' : α → β → Prop} (weaker : ∀ a b, rel a b → rel' a b) : Concur place rel' first second := by
  cases concur with
  | ok related => exact .ok (weaker _ _ related)
  | error same => exact .error same

theorem known : Concur place (fun a b => rel a b ∧ first = .ok a) first second := by
  cases concur with
  | ok related => exact .ok ⟨related, rfl⟩
  | error same => exact .error same

theorem bind {rel' : γ → δ → Prop} {next : α → Except Fault γ} {next' : β → Except Fault δ}
    (rest : ∀ a b, rel a b → Concur place rel' (next a) (next' b)) :
    Concur place rel' (first >>= next) (second >>= next') := by
  cases concur with
  | ok related => exact rest _ _ related
  | error same => exact .error same

theorem map {rel' : γ → δ → Prop} {f : α → γ} {g : β → δ} (related : ∀ a b, rel a b → rel' (f a) (g b)) :
    Concur place rel' (f <$> first) (g <$> second) := by
  cases concur with
  | ok holds => exact .ok (related _ _ holds)
  | error same => exact .error same

end

end Concur

/-- Two steps come to the same end from these states, up to positions. -/
def CoincideAt (place : Position → Position → Prop) (same : σ → τ → Prop) (rel : α → β → Prop)
    (s : σ) (t : τ) (step : ExceptT Fault (StateM σ) α) (step' : ExceptT Fault (StateM τ) β) : Prop :=
  Concur place rel (step.run.run s).1 (step'.run.run t).1 ∧ same (step.run.run s).2 (step'.run.run t).2

/-- From related states two steps come to the same end, up to positions. -/
def Coincide (place : Position → Position → Prop) (same : σ → τ → Prop) (rel : α → β → Prop)
    (step : ExceptT Fault (StateM σ) α) (step' : ExceptT Fault (StateM τ) β) : Prop :=
  ∀ s t, same s t → CoincideAt place same rel s t step step'

namespace Coincide

variable {same : σ → τ → Prop} {rel : α → β → Prop}

theorem pure {a : α} {b : β} (related : rel a b) : Coincide place same rel (Pure.pure a) (Pure.pure b) :=
  fun _ _ alike => ⟨.ok related, alike⟩

theorem throw {p q : Position} (cause : Cause) (placed : place p q) :
    Coincide place same rel (MonadExcept.throw ⟨cause, p⟩) (MonadExcept.throw ⟨cause, q⟩) :=
  fun _ _ alike => ⟨.fail cause placed, alike⟩

theorem fail {f g : Fault} (faults : f.Same place g) :
    Coincide place same rel (MonadExcept.throw f) (MonadExcept.throw g) :=
  fun _ _ alike => ⟨.error faults, alike⟩

theorem lift {first : Except Fault α} {second : Except Fault β} (concur : Concur place rel first second) :
    Coincide place same rel (liftM first) (liftM second) :=
  fun _ _ alike => ⟨concur, alike⟩

theorem change {f : σ → σ} {g : τ → τ} (kept : ∀ s t, same s t → same (f s) (g t)) :
    Coincide place same Eq (modify f) (modify g) :=
  fun s t alike => ⟨.ok rfl, kept s t alike⟩

theorem put {s : σ} {t : τ} (alike : same s t) : Coincide place same Eq (set s) (set t) :=
  fun _ _ _ => ⟨.ok rfl, alike⟩

variable {step : ExceptT Fault (StateM σ) α} {step' : ExceptT Fault (StateM τ) β}

variable {rel' : γ → δ → Prop} {next : α → ExceptT Fault (StateM σ) γ}

theorem bind_at {next' : β → ExceptT Fault (StateM τ) δ} {s : σ} {t : τ}
    (coincide : CoincideAt place same rel s t step step')
    (rest : ∀ a b, rel a b → Coincide place same rel' (next a) (next' b)) :
    CoincideAt place same rel' s t (step >>= next) (step' >>= next') := by
  obtain ⟨outcomes, states⟩ := coincide
  rw [CoincideAt, Fault.run_bind, Fault.run_bind]
  rcases ran : step.run.run s with ⟨outcome, u⟩
  rcases ran' : step'.run.run t with ⟨outcome', v⟩
  rw [ran, ran'] at outcomes states
  cases outcomes with
  | ok related => exact rest _ _ related u v states
  | error same => exact ⟨.error same, states⟩

theorem bind {next' : β → ExceptT Fault (StateM τ) δ} (coincide : Coincide place same rel step step')
    (rest : ∀ a b, rel a b → Coincide place same rel' (next a) (next' b)) :
    Coincide place same rel' (step >>= next) (step' >>= next') :=
  fun s t alike => bind_at (coincide s t alike) rest

theorem seq {step' : ExceptT Fault (StateM τ) α} {next' : α → ExceptT Fault (StateM τ) δ}
    (coincide : Coincide place same Eq step step') (rest : ∀ a, Coincide place same rel' (next a) (next' a)) :
    Coincide place same rel' (step >>= next) (step' >>= next') := by
  apply coincide.bind
  rintro a _ rfl
  exact rest a

theorem get_bind_at {next : σ → ExceptT Fault (StateM σ) γ} {next' : τ → ExceptT Fault (StateM τ) δ}
    {s : σ} {t : τ} (rest : CoincideAt place same rel' s t (next s) (next' t)) :
    CoincideAt place same rel' s t (get >>= next) (get >>= next') :=
  rest

theorem get_bind {next : σ → ExceptT Fault (StateM σ) γ} {next' : τ → ExceptT Fault (StateM τ) δ}
    (rest : ∀ s t, same s t → Coincide place same rel' (next s) (next' t)) :
    Coincide place same rel' (get >>= next) (get >>= next') :=
  fun s t alike => get_bind_at (rest s t alike s t alike)

end Coincide

end ScoreScript
