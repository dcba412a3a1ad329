import ScoreScript.Proofs.Compile.Lasting

/-!
# Computing with values, whatever the positions

Two steps tally when they come to the same end from alike states, up to positions, and the first one
goes on fitting lines on strict terms. Everything that is composed of operations tallies with itself at
another position. A conversion and a list of parameters are tried, and what becomes of the trial depends
on the cause of its fault only.
-/

namespace ScoreScript

open List

variable {args : List VarId} {criterion id what : String} {target : VarId}

def State.Tally (f : Footing) (s t : State) : Prop :=
  s.Alike f t ∧ (f.strict → s.FitsLines)

namespace Compile

variable {f : Footing} {p q : Position} {α β γ δ : Type} {rel : α → β → Prop} {post : α → Prop}

/-- The steps come to the same end, up to positions, and on strict terms what they do fits lines. -/
def Tallies (f : Footing) (rel : α → β → Prop) (step : Compile α) (step' : Compile β) (post : α → Prop) : Prop :=
  Coincide f.place (State.Tally f) (fun a b => rel a b ∧ (f.strict → post a)) step step'

variable {step' : Compile β}

theorem Alike.tallies {step : Compile α} (alike : Alike f rel step step')
    (preserves : Preserves f.strict (fun s => f.strict → s.FitsLines) step post) : Tallies f rel step step' post := by
  intro s t states
  obtain ⟨outcomes, after⟩ := alike s t states.1
  obtain ⟨fits, results⟩ := preserves s states.2
  refine ⟨?_, after, fits⟩
  exact outcomes.known.mono (fun a b same => ⟨same.1, (results a same.2).2⟩)

namespace Tallies

variable {step : Compile α}

theorem bind {next : α → Compile γ} {next' : β → Compile δ} {rel' : γ → δ → Prop} {last : γ → Prop}
    (first : Tallies f rel step step' post)
    (rest : ∀ a b, rel a b → (f.strict → post a) → Tallies f rel' (next a) (next' b) last) :
    Tallies f rel' (step >>= next) (step' >>= next') last :=
  Coincide.bind first (fun a b same => rest a b same.1 same.2)

theorem seq {step' : Compile α} {next : α → Compile γ} {next' : α → Compile δ} {rel' : γ → δ → Prop} {last : γ → Prop}
    (first : Tallies f Eq step step' post) (rest : ∀ a, (f.strict → post a) → Tallies f rel' (next a) (next' a) last) :
    Tallies f rel' (step >>= next) (step' >>= next') last := by
  refine first.bind ?_
  rintro a _ rfl
  exact rest a

theorem result {a : α} (result : f.strict → post a) : Tallies f Eq (Pure.pure a) (Pure.pure a) post :=
  Coincide.pure ⟨rfl, result⟩

theorem pure (a : α) : Tallies f Eq (Pure.pure a) (Pure.pure a) (fun _ => True) :=
  .result (fun _ => trivial)

theorem throw (cause : Cause) (placed : f.place p q) :
    Tallies f rel (MonadExcept.throw ⟨cause, p⟩) (MonadExcept.throw ⟨cause, q⟩) post :=
  Coincide.throw cause placed

theorem inScope (tallies : Tallies f rel step step' post) (scope : ScopeId) :
    Tallies f rel (inScope scope step) (inScope scope step') post := by
  intro s t states
  have fits (isStrict : f.strict) : State.FitsLines { s with current := scope } :=
    { states.2 isStrict with }
  obtain ⟨outcomes, after, kept⟩ := tallies _ _ ⟨states.1.withCurrent scope, fits⟩
  refine ⟨outcomes, { after with current := states.1.current }, fun isStrict => ?_⟩
  exact { kept isStrict with }

theorem get_bind {next next' : State → Compile α} (rest : ∀ s t : State, s.Alike f t →
      (f.strict → s.FitsLines) → Tallies f Eq (next s) (next' t) post) :
    Tallies f Eq (get >>= next) (get >>= next') post :=
  Coincide.get_bind (fun s t states => rest s t states.1 states.2)

theorem var_bind (id : VarId) {next next' : Variable → Compile α} (rest : ∀ a b : Variable,
      a.Alike f.place b → (f.strict → a.FitsLine) → Tallies f Eq (next a) (next' b) post) :
    Tallies f Eq (var id >>= next) (var id >>= next') post :=
  (var_alike.tallies (State.lasting_fitsLines f.strict).var).bind rest

end Tallies

/-! ## Storing -/

theorem store_alike {src : Operand} (placed : f.place p q) :
    Alike f Eq (store src target p) (store src target q) := by
  apply var_alike.bind
  rintro owner _ ⟨pos, rfl, _⟩
  have bound (value : Value) : Alike f Eq (do setValue target value; return ([] : List Command))
      (do setValue target value; return ([] : List Command)) :=
    setValue_alike.seq (fun _ => .pure rfl)
  dsimp only
  cases owner.value with
  | register register =>
    cases normalize owner.type src with
    | constant score => exact .pure rfl
    | resident other => exact .pure rfl
  | unset =>
    cases normalize owner.type src with
    | constant score => exact bound _
    | resident other =>
      dsimp only
      split
      · exact .throw _ placed
      · exact bound _
  | int | text | objective => exact .throw _ placed

theorem storeText_alike {text : String} (placed : f.place p q) :
    Alike f Eq (storeText text target p) (storeText text target q) := by
  apply var_alike.bind
  rintro owner _ ⟨pos, rfl, _⟩
  dsimp only
  split
  · exact .throw _ placed
  split
  · exact .throw _ placed
  · exact setValue_alike

theorem bindObjective_alike (placed : f.place p q) :
    Alike f Eq (bindObjective target id criterion p) (bindObjective target id criterion q) := by
  apply var_alike.bind
  rintro owner _ ⟨pos, rfl, _⟩
  dsimp only
  split
  · exact .throw _ placed
  · simp only [Variable.member?]
    split
    · next field _ => exact setValue_alike.seq (fun _ => setValue_alike)
    · exact setValue_alike

theorem rebind_alike {src : VarId} (placed : f.place p q) :
    Alike f Eq (rebind src target p) (rebind src target q) := by
  apply var_alike.bind
  rintro owner _ ⟨pos, rfl, _⟩
  dsimp only
  split
  · exact .throw _ placed
  have refers : Alike f Eq (referent src p) (referent src q) := by
    apply var_alike.bind
    rintro other _ ⟨pos, rfl, _⟩
    cases other.value with
    | objective => exact .pure rfl
    | unset | int | register | text => exact .throw _ placed
  apply refers.seq
  rintro ⟨id, criterion⟩
  exact (bindObjective_alike placed).seq (fun _ => .pure rfl)

theorem create_alike (placed : f.place p q) : Alike f Eq (create id criterion p) (create id criterion q) := by
  apply (anonymous_alike placed).seq
  intro result
  apply (bindObjective_alike placed).seq
  intro _
  refine (modifyVar_alike result ?_).seq (fun _ => .pure rfl)
  rintro a _ ⟨pos, rfl, placed⟩
  exact ⟨pos, rfl, placed⟩

theorem claimNext_alike (placed : f.place p q) : Alike f Eq (claimNext p) (claimNext q) := by
  apply nextObjective_alike.seq
  intro id
  dsimp only
  split
  · exact .throw _ placed
  · exact (claimObjective_alike placed).seq (fun _ => .pure rfl)

/-! ## Parameters -/

section Parameters

variable (casts : ∀ pairs, Tallies f Eq (castAll p pairs) (castAll q pairs) (fun _ => True))
  (copies : ∀ src target, Tallies f Eq (copyTo src target p) (copyTo src target q) Command.AllFit)
  (placed : f.place p q)

include copies placed

theorem declareParams_tallies {pairs : List (Param × VarId)}
    (plain : f.strict → ∀ pair ∈ pairs, IsUnquoted pair.1.name) :
    Tallies f Eq (declareParams p pairs) (declareParams q pairs) (fun _ => True) := by
  have lasting := State.lasting_fitsLines f.strict
  induction pairs with
  | nil => exact .pure []
  | cons pair pairs ih =>
    have first (isStrict : f.strict) := (forall_mem_cons.mp (plain isStrict)).1
    have later (isStrict : f.strict) := (forall_mem_cons.mp (plain isStrict)).2
    refine ((declareInternal_alike placed).tallies (lasting.declareInternal first)).seq (fun id _ => ?_)
    refine (copies pair.2 id).seq (fun cmds fit => ?_)
    refine (emit_alike.tallies (lasting.emit fit)).seq (fun _ _ => ?_)
    exact (ih later).seq (fun ids _ => .pure (id :: ids))

include casts

theorem bindParams_tallies {params : List Param} (plain : f.strict → ∀ param ∈ params, IsUnquoted param.name) :
    Tallies f Eq (bindParams what params args p) (bindParams what params args q) (fun _ => True) := by
  unfold bindParams
  dsimp only
  split
  · exact .throw _ placed
  refine (casts _).seq (fun values _ => declareParams_tallies copies placed (fun isStrict pair mem => ?_))
  exact plain isStrict pair.1 (of_mem_zip mem).1

theorem tryOverloads_tallies {index : Nat} {fitting : Bool} {overloads : List (List Param × ScopeId)}
    (plain : f.strict → ∀ overload ∈ overloads, ∀ param ∈ overload.1, IsUnquoted param.name) :
    Tallies f Eq (tryOverloads what args p index fitting overloads) (tryOverloads what args q index fitting overloads)
      (fun _ => True) := by
  induction overloads generalizing index fitting with
  | nil => exact .pure (Sum.inl fitting)
  | cons overload rest ih =>
    obtain ⟨params, scope⟩ := overload
    have first (isStrict : f.strict) := (forall_mem_cons.mp (plain isStrict)).1
    have later (isStrict : f.strict) := (forall_mem_cons.mp (plain isStrict)).2
    have next (fitting : Bool) : Tallies f Eq
        (do onScopes (ScopeTree.discard scope); tryOverloads what args p (index + 1) fitting rest)
        (do onScopes (ScopeTree.discard scope); tryOverloads what args q (index + 1) fitting rest)
        (fun _ => True) :=
      ((onScopes_alike ScopeTree.discard_coincide).tallies
        (State.lasting_fitsLines f.strict).discard).seq (fun _ _ => ih later)
    refine Coincide.bind (attempt_coincide ((bindParams_tallies casts copies placed first).inScope scope)) ?_
    intro outcome outcome' concur
    cases concur with
    | ok same =>
      cases same.1
      exact .pure ⟨rfl, fun _ => trivial⟩
    | @error fault fault' same =>
      dsimp only
      rw [Fault.kind, Fault.kind, same.1]
      split
      · exact next fitting
      · exact next true
      · exact .fail same

theorem select_tallies {overloads : List (List Param)}
    (plain : f.strict → ∀ params ∈ overloads, ∀ param ∈ params, IsUnquoted param.name) :
    Tallies f Eq (select what overloads args p) (select what overloads args q) (fun _ => True) := by
  have describes (ids : List VarId) :
      Tallies f Eq (describeTypes ids) (describeTypes ids) (fun _ => True) := by
    induction ids with
    | nil => exact .pure []
    | cons id ids ih =>
      refine .var_bind id ?_
      rintro owner _ ⟨pos, rfl, _⟩ _
      exact ih.seq (fun _ _ => .pure _)
  refine (createChildren_alike.tallies (State.lasting_fitsLines f.strict).createChildren).seq (fun scopes _ => ?_)
  refine (tryOverloads_tallies casts copies placed (fun isStrict overload mem => ?_)).seq ?_
  · exact plain isStrict overload.1 (of_mem_zip mem).1
  rintro (fits | chosen) _
  · cases fits with
    | true => exact (describes args).seq (fun _ _ => .throw _ placed)
    | false => exact .throw _ placed
  · exact .pure chosen

end Parameters

/-! ## Steps made of operations -/

/-- Where the word stands that a step is made for changes positions only. -/
theorem Composed.tallies {step : Position → Compile α} (composed : Composed f step post)
    (placed : f.place p q) : Tallies f Eq (step p) (step q) post := by
  have lasting := State.lasting_fitsLines f.strict
  induction composed with
  | known outcome concur results =>
    exact Alike.tallies (.lift (concur placed)) (.known _ (fun isStrict => results isStrict p))
  | get_bind reads _ rest =>
    refine .get_bind (fun s t alike fits => ?_)
    rw [← reads q alike]
    exact rest s fits
  | var_bind id reads _ rest =>
    refine .var_bind id ?_
    rintro var _ ⟨pos, rfl, _⟩ fits
    rw [reads q var pos]
    exact rest var fits
  | bind _ _ first rest => exact first.seq rest
  | recover _ _ ok error tries falls =>
    refine Coincide.bind (attempt_coincide tries) (fun outcome outcome' concur => ?_)
    cases concur with
    | ok same =>
      cases same.1
      rw [ok, ok]
      exact .pure ⟨rfl, fun _ => trivial⟩
    | error same =>
      rw [error, error, Fault.kind, Fault.kind, same.1]
      split
      · exact falls
      · exact .fail same
  | declare typeName access usage name =>
    exact (declare_alike placed).tallies lasting.declare
  | anonymous typeName usage =>
    exact (anonymous_alike placed).tallies lasting.anonymous
  | bindRegister typeName fits =>
    exact (valued_alike placed).tallies (lasting.valued fits (by rintro _ _ ⟨⟩))
  | constant type fits plain =>
    exact (valued_alike placed).tallies (lasting.valued fits plain)
  | select what plain args _ _ casts copies => exact select_tallies casts copies placed plain
  | store fits target => exact (store_alike placed).tallies (lasting.store fits)
  | storeText text target =>
    exact (storeText_alike placed).tallies lasting.storeText
  | rebind src target => exact (rebind_alike placed).tallies lasting.rebind
  | create isLine criterion => exact (create_alike placed).tallies (lasting.create isLine)
  | claimNext => exact (claimNext_alike placed).tallies lasting.claimNext
  | claimObjective id => exact (claimObjective_alike placed).tallies lasting.claimObjective
  | emit fit => exact emit_alike.tallies (lasting.emit fit)

end Compile

end ScoreScript
