import ScoreScript.Compile.State

/-!
# Outcomes of steps

What a step of a compilation does to a state, read off its parts: the run of a sequence is the run
of its second part after its first. `Ends` says what holds after a step whatever becomes of it, what
holds of a result, and that the compiler is not to blame for a fault.
-/

namespace ScoreScript

variable {s : State}

def Blameless {α : Type} (outcome : Except Fault α) : Prop :=
  ∀ fault, outcome = .error fault → fault.kind ≠ .internal

variable {fault : Fault}

namespace Blameless

variable {α β : Type}

theorem ok (a : α) : Blameless (.ok a : Except Fault α) :=
  fun _ impossible => nomatch impossible

theorem error (kind : fault.kind ≠ .internal) : Blameless (.error fault : Except Fault α) := by
  rintro _ ⟨⟩
  exact kind

theorem bind {first : Except Fault α} {next : α → Except Fault β} (blameless : Blameless first)
    (rest : ∀ a, first = .ok a → Blameless (next a)) : Blameless (first >>= next) := by
  cases first with
  | error fault => exact error (blameless fault rfl)
  | ok a => exact rest a rfl

end Blameless

/-! ## Runs -/

namespace Fault

variable {σ α β : Type}

theorem run_bind (step : ExceptT Fault (StateM σ) α) (next : α → ExceptT Fault (StateM σ) β) (s : σ) :
    (step >>= next).run.run s =
      match step.run.run s with
      | (.ok a, t) => (next a).run.run t
      | (.error fault, t) => (.error fault, t) := by
  simp only [ExceptT.run_bind, StateT.run_bind]
  rcases StateT.run (ExceptT.run step) s with ⟨_ | _, t⟩ <;> rfl

theorem run_bind_ok {step : ExceptT Fault (StateM σ) α} {s t : σ} {a : α} (ran : step.run.run s = (.ok a, t))
    (next : α → ExceptT Fault (StateM σ) β) : (step >>= next).run.run s = (next a).run.run t := by
  rw [run_bind, ran]

theorem of_run_bind {step : ExceptT Fault (StateM σ) α} {next : α → ExceptT Fault (StateM σ) β}
    {s u : σ} {b : β} (ran : (step >>= next).run.run s = (.ok b, u)) :
    ∃ a t, step.run.run s = (.ok a, t) ∧ (next a).run.run t = (.ok b, u) := by
  rw [run_bind] at ran
  rcases first : step.run.run s with ⟨fault | a, t⟩
  · rw [first] at ran
    cases ran
  · rw [first] at ran
    exact ⟨a, t, rfl, ran⟩

theorem of_bind {outcome : Except Fault α} {next : α → Except Fault β} {b : β}
    (ran : outcome >>= next = .ok b) : ∃ a, outcome = .ok a ∧ next a = .ok b := by
  rcases outcome with fault | a
  · cases ran
  · exact ⟨a, rfl, ran⟩

theorem run_pure (a : α) (s : σ) : (pure a : ExceptT Fault (StateM σ) α).run.run s = (.ok a, s) := rfl

theorem run_get (s : σ) : (get : ExceptT Fault (StateM σ) σ).run.run s = (.ok s, s) := rfl

theorem run_set (s t : σ) : (set t : ExceptT Fault (StateM σ) PUnit).run.run s = (.ok (), t) := rfl

theorem run_modify (change : σ → σ) (s : σ) :
    (modify change : ExceptT Fault (StateM σ) PUnit).run.run s = (.ok (), change s) := rfl

theorem run_lift (outcome : Except Fault α) (s : σ) :
    (liftM outcome : ExceptT Fault (StateM σ) α).run.run s = (outcome, s) := rfl

end Fault

namespace Compile

variable {α β : Type}

@[simp]
theorem runFrom_pure (a : α) : (pure a : Compile α).runFrom s = (.ok a, s) := rfl

@[simp]
theorem runFrom_throw (fault : Fault) :
    (throw fault : Compile α).runFrom s = (.error fault, s) := rfl

@[simp]
theorem runFrom_get : (get : Compile State).runFrom s = (.ok s, s) := rfl

@[simp]
theorem runFrom_modify (change : State → State) :
    (modify change : Compile Unit).runFrom s = (.ok (), change s) := rfl

@[simp]
theorem runFrom_lift (outcome : Except Fault α) :
    (liftM outcome : Compile α).runFrom s = (outcome, s) := rfl

theorem runFrom_bind (step : Compile α) (next : α → Compile β) : (step >>= next).runFrom s =
      match step.runFrom s with
      | (.ok a, t) => (next a).runFrom t
      | (.error fault, t) => (.error fault, t) := by
  simp only [runFrom, Fault.run_bind]
  rcases StateT.run (ExceptT.run step) s with ⟨_ | _, t⟩ <;> rfl

variable {step : Compile α} {t : State}

theorem runFrom_bind_ok {s : State} {a : α} (ran : step.runFrom s = (.ok a, t))
    (next : α → Compile β) : (step >>= next).runFrom s = (next a).runFrom t := by
  rw [runFrom_bind, ran]

theorem runFrom_bind_error {s : State} (ran : step.runFrom s = (.error fault, t))
    (next : α → Compile β) : (step >>= next).runFrom s = (.error fault, t) := by
  rw [runFrom_bind, ran]

variable {next : α → Compile β}

theorem runFrom_bind_eq_ok {step : Compile α} {s u : State} {b : β} :
    (step >>= next).runFrom s = (.ok b, u) ↔ ∃ a t, step.runFrom s = (.ok a, t) ∧ (next a).runFrom t = (.ok b, u) := by
  rw [runFrom_bind]
  constructor
  · intro ran
    rcases first : step.runFrom s with ⟨fault | a, t⟩
    · rw [first] at ran
      cases ran
    · rw [first] at ran
      exact ⟨a, t, rfl, ran⟩
  · rintro ⟨a, t, first, second⟩
    rw [first]
    exact second

theorem runFrom_inScope {scope : ScopeId} (step : Compile α) : (inScope scope step).runFrom s =
      ((step.runFrom { s with current := scope }).1,
        { (step.runFrom { s with current := scope }).2 with current := s.current }) := rfl

theorem runFrom_attempt (step : Compile α) :
    (attempt step).runFrom s = (.ok (step.runFrom s).1, (step.runFrom s).2) := rfl

theorem runFrom_onScopes (edit : ScopeTree.Edit α) : (onScopes edit).runFrom s =
      ((edit.run.run s.scopes).1, { s with scopes := (edit.run.run s.scopes).2 }) := rfl

/-! ## What holds at the end -/

/-- The state after a step is one of those given, its result is as given, and its fault is one of
the script. -/
def Ends (step : Compile α) (s : State) (always : State → Prop) (post : α → State → Prop) : Prop :=
  always (step.runFrom s).2 ∧ Blameless (step.runFrom s).1 ∧ ∀ a, (step.runFrom s).1 = .ok a → post a (step.runFrom s).2

namespace Ends

variable {s : State} {always : State → Prop} {post : α → State → Prop} {step : Compile α}

theorem of_ok {a : α} (ran : step.runFrom s = (.ok a, t)) (holds : always t) (result : post a t) :
    Ends step s always post := by
  refine ⟨by rw [ran]; exact holds, ?_, ?_⟩
  · intro fault failed
    rw [ran] at failed
    cases failed
  · intro b succeeded
    rw [ran] at succeeded ⊢
    cases succeeded
    exact result

theorem of_error (ran : step.runFrom s = (.error fault, t)) (holds : always t)
    (blameless : fault.kind ≠ .internal) : Ends step s always post := by
  refine ⟨by rw [ran]; exact holds, ?_, ?_⟩
  · intro other failed
    rw [ran] at failed
    cases failed
    exact blameless
  · intro b succeeded
    rw [ran] at succeeded
    cases succeeded

theorem of_eq {s' : State} {step' : Compile α} (same : step.runFrom s = step'.runFrom s')
    (ends : Ends step' s' always post) : Ends step s always post := by
  rw [Ends, same]
  exact ends

theorem cases (ends : Ends step s always post) : (∃ a t, step.runFrom s = (.ok a, t) ∧ always t ∧ post a t) ∨
      ∃ fault t, step.runFrom s = (.error fault, t) ∧ always t ∧ fault.kind ≠ .internal := by
  obtain ⟨holds, blameless, result⟩ := ends
  rcases ran : step.runFrom s with ⟨fault | a, t⟩
  · rw [ran] at holds blameless
    exact .inr ⟨fault, t, rfl, holds, blameless fault rfl⟩
  · rw [ran] at holds result
    exact .inl ⟨a, t, rfl, holds, result a rfl⟩

theorem of_ran (ends : Ends step s always post) {a : α} (ran : step.runFrom s = (.ok a, t)) : always t ∧ post a t := by
  rw [Ends, ran] at ends
  exact ⟨ends.1, ends.2.2 a rfl⟩

theorem mono {always' : State → Prop} {post' : α → State → Prop} (ends : Ends step s always post)
    (states : ∀ t, always t → always' t) (results : ∀ a t, always t → post a t → post' a t) :
    Ends step s always' post' :=
  ⟨states _ ends.1, ends.2.1, fun a succeeded => results a _ ends.1 (ends.2.2 a succeeded)⟩

theorem pure {a : α} (holds : always s) (result : post a s) : Ends (Pure.pure a : Compile α) s always post :=
  of_ok rfl holds result

theorem throw (holds : always s) (blameless : fault.kind ≠ .internal) :
    Ends (MonadExcept.throw fault : Compile α) s always post :=
  of_error rfl holds blameless

theorem lift {outcome : Except Fault α} (holds : always s) (blameless : Blameless outcome)
    (result : ∀ a, outcome = .ok a → post a s) : Ends (liftM outcome : Compile α) s always post :=
  ⟨holds, blameless, result⟩

theorem bind {m : α → State → Prop} {post : β → State → Prop} (first : Ends step s always m)
    (rest : ∀ a t, always t → m a t → Ends (next a) t always post) : Ends (step >>= next) s always post := by
  rcases first.cases with ⟨a, t, ran, holds, result⟩ | ⟨fault, t, ran, holds, blameless⟩
  · rw [Ends, runFrom_bind_ok ran]
    exact rest a t holds result
  · exact of_error (runFrom_bind_error ran next) holds blameless

theorem ok_bind {post : β → State → Prop} {a : α} (ran : step.runFrom s = (.ok a, t))
    (rest : Ends (next a) t always post) : Ends (step >>= next) s always post := by
  rw [Ends, runFrom_bind_ok ran]
  exact rest

theorem get_bind {next : State → Compile β} {post : β → State → Prop}
    (rest : Ends (next s) s always post) : Ends (get >>= next) s always post :=
  ok_bind runFrom_get rest

theorem inScope {step : Compile α} {scope : ScopeId}
    (ends : Ends step { s with current := scope } (fun t => always { t with current := s.current })
      (fun a t => post a { t with current := s.current })) :
    Ends (Compile.inScope scope step) s always post :=
  ends

end Ends

end Compile

end ScoreScript
