import ScoreScript.Proofs.Compile.Grows

/-!
# States in which something can be compiled

Between two expressions or statements more holds of a state than between two of its steps: every
score has a register by then, the guarded registers are those of generated names, and the names
that a script may use stand for other variables. Growing keeps all that. `Compile.Behaves` says of a step
that the state only grows, whatever becomes of the step.
-/

namespace ScoreScript

open ScopeTree

variable {id : Nat} {s : State} {name : String} {var : Variable}

namespace State

/-- A generated name was drawn before, and stands for a truth value in a register that can be used. -/
def StandsFree (isGuarded : Register → Prop) (s : State) (name : String) : Prop :=
  ∃ (n id : Nat) (var : Variable) (scope : Scope) (reg : Register),
    name = s.config.generatedName n ∧ s.scopes.scopes[s.current]? = some scope ∧ n < scope.drawn ∧
      s.resolve name = some id ∧ s.vars[id]? = some var ∧ var.value = .register reg ∧
      ¬ isGuarded reg ∧ var.type = .bool

def IsGeneratedRegister (s : State) (reg : Register) : Prop :=
  ∃ (id : Nat) (var : Variable), s.vars[id]? = some var ∧ s.config.isGenerated var.name = true ∧
    reg = s.registerAt var.scope var.name

structure Stable (terms : Terms) (s : State) : Prop where
  sound : s.Sound
  usable : s.config.Usable
  below : 0 < s.current
  /-- A score that is no constant has a register. -/
  allocated : ∀ (id : Nat) (var : Variable), s.vars[id]? = some var →
    (var.type = .int ∨ var.type = .bool) → var.usage ≠ .constant →
    ∃ reg, var.value = .register reg
  /-- What is guarded is the register of a generated name. -/
  shielded : ∀ reg, terms.isGuarded reg → s.IsGeneratedRegister reg
  names : ∀ name ∈ terms.names, s.StandsFree terms.isGuarded name

structure Ready (terms : Terms) (s : State) : Prop extends Stable terms s where
  making : terms.unitless = false
  unit : ∃ scope, s.scopes.scopes[s.current]? = some scope ∧ scope.isUnit = true

/-- What holds of a variable in a register that can be used: the register is not guarded, and the
variable is not one of a scope made inside the current one. Where something is guarded, generated
names of other scopes occur only in generated scripts. -/
structure Usable (terms : Terms) (s : State) (var : Variable) (reg : Register) : Prop where
  spared : ¬ terms.isGuarded reg
  place : var.scope ≤ s.current
  here : terms.Guards → terms.plain = false → s.config.isGenerated var.name = true → var.scope = s.current
  /-- A number is not in the register of a truth value. -/
  typed : terms.typed = true → var.type = .int → s.TakesAny reg

def Open (terms : Terms) (s : State) (var : Variable) : Prop :=
  ∀ reg, var.value = .register reg → Usable terms s var reg

def Clear (terms : Terms) (s : State) (id : Nat) : Prop :=
  ∃ var, s.vars[id]? = some var ∧ s.Open terms var

def Typed (terms : Terms) (s : State) (type : ValueType) (id : Nat) : Prop :=
  ∃ var, s.vars[id]? = some var ∧ var.type = type ∧ s.Open terms var

variable {type : ValueType} {terms : Terms}

theorem Typed.clear (typed : s.Typed terms type id) : s.Clear terms id := by
  obtain ⟨var, found, _, clear⟩ := typed
  exact ⟨var, found, clear⟩

theorem Clear.typed (clear : s.Clear terms id) (found : s.vars[id]? = some var) : s.Typed terms var.type id := by
  obtain ⟨other, isOther, clear⟩ := clear
  rw [found] at isOther
  cases isOther
  exact ⟨var, found, rfl, clear⟩

def IsVar (s : State) (type : ValueType) (id : Nat) : Prop :=
  ∃ var, s.vars[id]? = some var ∧ var.type = type

theorem Typed.isVar (typed : s.Typed terms type id) : s.IsVar type id := by
  obtain ⟨var, found, isType, _⟩ := typed
  exact ⟨var, found, isType⟩

/-! ## What growing keeps -/

variable {t : State}

theorem IsVar.grows (isVar : s.IsVar type id) (grows : Grows terms s t) : t.IsVar type id := by
  obtain ⟨var, found, isType⟩ := isVar
  obtain ⟨later, there, keeps⟩ := grows.vars id var found
  exact ⟨later, there, keeps.type.trans isType⟩

theorem Grows.resolve_eq (grows : Grows terms s t) (usable : s.config.Usable) (sound : s.Sound)
    (mem : terms.Keeps s.config name) : t.resolve name = s.resolve name := by
  have sound' := grows.sound usable sound
  -- The scopes around the current one are the same as before, so only its own names matter.
  have outer : ∀ id : Nat, id < s.current → t.scopes.resolve id name = s.scopes.resolve id name := by
    intro id
    induction id using Nat.strongRecOn with
    | ind id ih =>
      intro before
      obtain ⟨scope, found⟩ := exists_of_lt_size (Nat.lt_trans before sound.current)
      obtain ⟨scope', there, _, same⟩ := grows.scopes id scope found
      rw [same (Nat.ne_of_lt before)] at there
      rcases Nat.eq_zero_or_pos id with rfl | positive
      · rw [ScopeTree.resolve, ScopeTree.resolve, ancestry_root sound.rooted found, ancestry_root sound'.rooted there]
      · obtain ⟨around, parent, smaller⟩ := sound.rooted.parent id scope found positive
        rw [resolve_of_parent sound.rooted found parent smaller, resolve_of_parent sound'.rooted there parent smaller,
          ih around smaller (Nat.lt_trans smaller before)]
  obtain ⟨scope, found⟩ := exists_of_lt_size sound.current
  obtain ⟨scope', there, keeps, _⟩ := grows.scopes _ scope found
  have own : scope'.find? name = scope.find? name := by
    have names := grows.names name mem
    rwa [ScopeTree.lookup, ScopeTree.lookup, there, found] at names
  rw [State.resolve, State.resolve, grows.current]
  rcases Nat.eq_zero_or_pos s.current with root | positive
  · rw [root] at found there ⊢
    rw [ScopeTree.resolve, ScopeTree.resolve, ancestry_root sound.rooted found, ancestry_root sound'.rooted there]
    simp only [List.findSome?_cons, List.findSome?_nil, own]
  · obtain ⟨around, parent, smaller⟩ := sound.rooted.parent _ scope found positive
    rw [resolve_of_parent sound.rooted found parent smaller,
      resolve_of_parent sound'.rooted there (keeps.parent.trans parent) smaller,
      outer around smaller, own]

theorem IsGeneratedRegister.grows {reg : Register} (isRegister : s.IsGeneratedRegister reg)
    (grows : Grows terms s t) (usable : s.config.Usable) (sound : s.Sound) : t.IsGeneratedRegister reg := by
  obtain ⟨id, var, found, generated, rfl⟩ := isRegister
  obtain ⟨later, there, keeps⟩ := grows.vars id var found
  refine ⟨id, later, there, ?_, ?_⟩
  · rw [keeps.name, grows.config]
    exact generated
  · rw [keeps.scope, keeps.name, grows.registerAt_eq usable sound (sound.scopeOf found)]

theorem Stable.grows (stable : s.Stable terms) (grows : Grows terms s t) : t.Stable terms where
  sound := grows.sound stable.usable stable.sound
  usable := grows.config ▸ stable.usable
  below := grows.current ▸ stable.below
  allocated := by
    intro id var found type usage
    rcases Nat.lt_or_ge id s.vars.size with old | new
    · have there := Array.getElem?_eq_getElem old
      obtain ⟨later, found', keeps⟩ := grows.vars id _ there
      rw [found] at found'
      cases found'
      obtain ⟨reg, held⟩ :=
        stable.allocated id _ there (keeps.type ▸ type) (keeps.usage ▸ usage)
      exact ⟨reg, keeps.register reg held⟩
    · exact grows.allocated id var new found type usage
  shielded := fun reg guarded =>
    (stable.shielded reg guarded).grows grows stable.usable stable.sound
  names := by
    intro name mem
    obtain ⟨n, id, var, scope, reg, called, around, drawn, resolved, found, held, clear, isBool⟩ :=
      stable.names name mem
    obtain ⟨later, there, keeps⟩ := grows.vars id var found
    obtain ⟨scope', around', keeps', _⟩ := grows.scopes _ scope around
    refine ⟨n, id, later, scope', reg, ?_, ?_, Nat.lt_of_lt_of_le drawn keeps'.drawn, ?_, there,
      keeps.register reg held, clear, keeps.type.trans isBool⟩
    · rw [grows.config]
      exact called
    · rw [grows.current]
      exact around'
    · rw [grows.resolve_eq stable.usable stable.sound (.inl mem)]
      exact resolved

theorem Stable.move (stable : s.Stable terms) {scope : Nat} (inside : scope < s.scopes.size)
    (below : 0 < scope) :
    ({ s with current := scope } : State).Stable
      { terms with names := [], plain := true, still := false, unitless := true } where
  sound := stable.sound.move inside
  usable := stable.usable
  below := below
  allocated := stable.allocated
  shielded := stable.shielded
  names := fun _ mem => by cases mem

theorem Ready.grows (ready : s.Ready terms) (grows : Grows terms s t) : t.Ready terms := by
  refine { ready.toStable.grows grows with making := ready.making, unit := ?_ }
  obtain ⟨scope, found, unit⟩ := ready.unit
  obtain ⟨scope', there, keeps, _⟩ := grows.scopes _ scope found
  exact ⟨scope', by rw [grows.current]; exact there, keeps.isUnit.trans unit⟩

theorem Typed.grows (typed : s.Typed terms type id) (stable : s.Stable terms)
    (grows : Grows terms s t) : t.Typed terms type id := by
  obtain ⟨var, found, isType, clear⟩ := typed
  obtain ⟨later, there, keeps⟩ := grows.vars id var found
  refine ⟨later, there, keeps.type.trans isType, ?_⟩
  intro reg held
  have fits := (stable.grows grows).sound.fits id later there
  unfold Fits at fits
  rw [held] at fits
  obtain ⟨usage, isScore, _⟩ := fits
  obtain ⟨before, wasHeld⟩ :=
    stable.allocated id var found (keeps.type ▸ isScore) (keeps.usage ▸ usage)
  have same := keeps.register before wasHeld
  rw [held] at same
  cases same
  obtain ⟨spared, place, here, isNumber⟩ := clear reg wasHeld
  constructor
  · exact spared
  · rw [keeps.scope, grows.current]
    exact place
  · rw [keeps.scope, grows.current, keeps.name, grows.config]
    exact here
  · intro typed isInt
    rw [keeps.type] at isInt
    exact (isNumber typed isInt).keeps (grows.keepsTypes stable.usable stable.sound)

theorem Clear.grows (clear : s.Clear terms id) (stable : s.Stable terms) (grows : Grows terms s t) :
    t.Clear terms id := by
  obtain ⟨var, found, isClear⟩ := clear
  have typed : s.Typed terms var.type id := ⟨var, found, rfl, isClear⟩
  exact (typed.grows stable grows).clear

theorem Clear.move {terms' : Terms} (clear : s.Clear terms id) (same : terms'.isGuarded = terms.isGuarded)
    (sameTyped : terms'.typed = terms.typed) (plain : terms'.plain = true) {scope : Nat} (inner : s.current ≤ scope) :
    ({ s with current := scope } : State).Clear terms' id := by
  obtain ⟨var, found, isOpen⟩ := clear
  refine ⟨var, found, ?_⟩
  intro reg held
  obtain ⟨spared, place, _, isNumber⟩ := isOpen reg held
  refine ⟨same ▸ spared, Nat.le_trans place inner, fun _ impossible => ?_, fun typed isInt => ?_⟩
  · rw [plain] at impossible
    cases impossible
  · rw [sameTyped] at typed
    exact (isNumber typed isInt).keeps (.of_eq rfl rfl rfl)

theorem Sound.typed_of_not_score (sound : s.Sound) (found : s.vars[id]? = some var) (isType : var.type = type)
    (notScore : ¬ (type = .int ∨ type = .bool)) : s.Typed terms type id := by
  refine ⟨var, found, isType, ?_⟩
  intro reg held
  have fits := sound.fits id var found
  unfold Fits at fits
  rw [held, isType] at fits
  exact absurd fits.2.1 notScore

theorem Stable.new_clear (stable : s.Stable terms) (grows : Grows terms s t) (new : s.vars.size ≤ id)
    (found : t.vars[id]? = some var) : ¬ terms.isGuarded (t.registerAt var.scope var.name) := by
  intro guarded
  obtain ⟨old, owner, isOwner, _, reg⟩ := stable.shielded _ guarded
  have inside := (Array.getElem?_eq_some_iff.mp isOwner).1
  obtain ⟨later, there, keeps⟩ := grows.vars old owner isOwner
  have same : old = id := by
    refine (stable.grows grows).sound.register_injective (grows.config ▸ stable.usable) there found ?_
    rw [keeps.scope, keeps.name,
      grows.registerAt_eq stable.usable stable.sound (stable.sound.scopeOf isOwner), ← reg]
  omega

theorem Stable.foreign_clear (stable : s.Stable terms) {reg : Register}
    (foreign : reg.objective ≠ s.config.registerObjective) : ¬ terms.isGuarded reg := by
  intro guarded
  obtain ⟨_, _, _, _, rfl⟩ := stable.shielded _ guarded
  exact foreign rfl

theorem Stable.named_clear (stable : s.Stable terms) (found : s.vars[id]? = some var)
    (plain : s.config.isGenerated var.name = false) (place : var.scope ≤ s.current) : s.Clear terms id := by
  refine ⟨var, found, ?_⟩
  intro reg held
  have own : reg = s.registerAt var.scope var.name := by
    have fits := stable.sound.fits id var found
    unfold Fits at fits
    rw [held] at fits
    obtain ⟨_, _, own | ⟨_, result, _⟩⟩ := fits
    · exact own
    · rw [stable.sound.result id var found result] at plain
      cases plain
  refine ⟨?_, place, fun _ _ generated => ?_, fun _ isInt => .inr ⟨id, var, found, isInt, own⟩⟩
  · intro guarded
    obtain ⟨old, owner, isOwner, generated, isRegister⟩ := stable.shielded _ guarded
    have same : old = id :=
      stable.sound.register_injective stable.usable isOwner found (isRegister.symm.trans own)
    subst same
    rw [found] at isOwner
    cases isOwner
    rw [plain] at generated
    cases generated
  · rw [plain] at generated
    cases generated

theorem Sound.resolve_of_lookup (sound : s.Sound) (below : 0 < s.current) {id : VarId}
    (bound : s.scopes.lookup s.current name = some id) : s.resolve name = some id := by
  obtain ⟨scope, found⟩ := exists_of_lt_size sound.current
  obtain ⟨outer, parent, smaller⟩ := sound.rooted.parent _ scope found below
  rw [ScopeTree.lookup, found] at bound
  rw [State.resolve, resolve_of_parent sound.rooted found parent smaller,
    show scope.find? name = some id from bound]
  rfl

theorem Sound.resolve_found (sound : s.Sound) {id : VarId} (resolved : s.resolve name = some id) :
    ∃ var, s.vars[id]? = some var ∧ var.name = name ∧ var.scope ≤ s.current := by
  have around : ∀ scope : Nat, scope < s.scopes.size → s.scopes.resolve scope name = some id →
      ∃ place : Nat, place ≤ scope ∧ s.scopes.lookup place name = some id := by
    intro place
    induction place using Nat.strongRecOn with
    | ind place ih =>
      intro inside resolved
      obtain ⟨scope, found⟩ := exists_of_lt_size inside
      have here : ∀ {bound}, scope.find? name = some bound → s.scopes.lookup place name = some bound := by
        intro bound isBound
        rw [ScopeTree.lookup, found]
        exact isBound
      rcases Nat.eq_zero_or_pos place with rfl | positive
      · rw [ScopeTree.resolve, ancestry_root sound.rooted found, List.findSome?_cons,
          List.findSome?_nil] at resolved
        refine ⟨0, Nat.le_refl _, here ?_⟩
        cases own : scope.find? name with
        | none =>
          rw [own] at resolved
          cases resolved
        | some bound =>
          rw [own] at resolved
          exact resolved
      · obtain ⟨outer, parent, smaller⟩ := sound.rooted.parent _ scope found positive
        rw [resolve_of_parent sound.rooted found parent smaller] at resolved
        cases own : scope.find? name with
        | some bound =>
          rw [own] at resolved
          cases resolved
          exact ⟨place, Nat.le_refl _, here own⟩
        | none =>
          rw [own] at resolved
          obtain ⟨found, less, bound⟩ :=
            ih outer smaller (Nat.lt_trans smaller inside) resolved
          exact ⟨found, Nat.le_trans less (Nat.le_of_lt smaller), bound⟩
  obtain ⟨place, less, bound⟩ := around s.current sound.current resolved
  obtain ⟨var, found, rfl, called⟩ := sound.bound place id name bound
  exact ⟨var, found, called, less⟩

end State

/-! ## Steps that let a state grow -/

namespace Compile

variable {α β : Type}

def Behaves (terms : Terms) (s : State) (step : Compile α) (post : α → State → Prop) : Prop :=
  Ends step s (State.Grows terms s) (fun a t => s.Covers t ∧ post a t)

namespace Behaves

variable {terms : Terms} {s t : State} {step : Compile α} {post : α → State → Prop}

theorem of_ok {a : α} (ran : step.runFrom s = (.ok a, t)) (grows : State.Grows terms s t)
    (units : t.units = s.units) (result : post a t) : Behaves terms s step post :=
  Ends.of_ok ran grows ⟨.of_units units, result⟩

theorem of_same {a : α} (ran : step.runFrom s = (.ok a, s)) (result : post a s) : Behaves terms s step post :=
  of_ok ran (State.Grows.refl terms s) rfl result

theorem of_error {fault : Fault} (ran : step.runFrom s = (.error fault, s))
    (blameless : fault.kind ≠ .internal) : Behaves terms s step post :=
  Ends.of_error ran (State.Grows.refl terms s) blameless

theorem pure {a : α} (result : post a s) : Behaves terms s (Pure.pure a : Compile α) post :=
  of_same rfl result

theorem throw {fault : Fault} (blameless : fault.kind ≠ .internal) :
    Behaves terms s (MonadExcept.throw fault : Compile α) post :=
  of_error rfl blameless

theorem lift {outcome : Except Fault α} (blameless : Blameless outcome) (result : ∀ a, outcome = .ok a → post a s) :
    Behaves terms s (liftM outcome : Compile α) post :=
  Ends.lift (State.Grows.refl terms s) blameless (fun a ok => ⟨.of_units rfl, result a ok⟩)

theorem mono {post' : α → State → Prop} (behaves : Behaves terms s step post)
    (results : ∀ a t, State.Grows terms s t → post a t → post' a t) : Behaves terms s step post' :=
  Ends.mono behaves (fun _ grows => grows)
    (fun a t grows result => ⟨result.1, results a t grows result.2⟩)

theorem after (behaves : Behaves terms t step post) (grows : State.Grows terms s t) (covers : s.Covers t)
    (stable : s.Stable terms) : Ends step t (State.Grows terms s) (fun a u => s.Covers u ∧ post a u) := by
  refine ⟨grows.trans behaves.1 stable.usable stable.sound, behaves.2.1, fun a ok => ?_⟩
  obtain ⟨later, result⟩ := behaves.2.2 a ok
  exact ⟨covers.trans later grows.emits.kept behaves.1.emits.kept behaves.1.config, result⟩

variable {next : α → Compile β} {post : β → State → Prop}

theorem bind {m : α → State → Prop} (first : Behaves terms s step m) (stable : s.Stable terms)
    (rest : ∀ a t, t.Stable terms → State.Grows terms s t → m a t → Behaves terms t (next a) post) :
    Behaves terms s (step >>= next) post :=
  Ends.bind first (fun a t grows result =>
    (rest a t (stable.grows grows) grows result.2).after grows result.1 stable)

theorem seq {m : α → State → Prop} (first : Behaves terms s step m) (ready : s.Ready terms)
    (rest : ∀ a t, t.Ready terms → State.Grows terms s t → m a t → Behaves terms t (next a) post) :
    Behaves terms s (step >>= next) post :=
  Ends.bind first (fun a t grows result =>
    (rest a t (ready.grows grows) grows result.2).after grows result.1 ready.toStable)

theorem get_bind {next : State → Compile β} (rest : Behaves terms s (next s) post) :
    Behaves terms s (get >>= next) post :=
  Ends.get_bind rest

theorem ok_bind {a : α} (ran : step.runFrom s = (.ok a, s)) (rest : Behaves terms s (next a) post) :
    Behaves terms s (step >>= next) post :=
  Ends.ok_bind ran rest

theorem error_bind {fault : Fault} (ran : step.runFrom s = (.error fault, s))
    (blameless : fault.kind ≠ .internal) : Behaves terms s (step >>= next) post :=
  of_error (runFrom_bind_error ran next) blameless

end Behaves

end Compile

end ScoreScript
