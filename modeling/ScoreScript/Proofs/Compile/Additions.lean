import ScoreScript.Proofs.Compile.Declare

/-!
# What is added where names are free

A scope is roomy when the generated names that it has still to draw are free in it. There a step that
makes a variable cannot fail, and it leads to a state that is known: `State.Adds` says that variables
and commands were added to a state and nothing else was touched.
-/

namespace ScoreScript

open List

open ScopeTree

variable {position : Position} {value : Value}

theorem ScopeTree.segments_modifyScope (tree : ScopeTree) (id i : Nat) {change : Scope → Scope}
    (kept : ∀ scope, (change scope).name = scope.name ∧ (change scope).parent = scope.parent) :
    (tree.modifyScope id change).segments i = tree.segments i := by
  have climbs (bound i : Nat) : ((tree.modifyScope id change).ancestryUpTo bound i).map Scope.name =
      (tree.ancestryUpTo bound i).map Scope.name := by
    induction bound generalizing i with
    | zero => rfl
    | succ bound ih =>
      cases found : tree.scopes[i]? with
      | none =>
        have absent : (tree.modifyScope id change).scopes[i]? = none := by
          rw [scopes_modifyScope, found]
          split <;> rfl
        simp only [ancestryUpTo, found, absent]
      | some scope =>
        obtain ⟨later, there, name, parent⟩ := within_modifyScope tree id change
          (fun scope => (kept scope).1) (fun scope => (kept scope).2) i scope found
        simp only [ancestryUpTo, found, there, parent]
        cases scope.parent with
        | none => simp only [map_cons, name, map_nil]
        | some outer => simp only [map_cons, name, ih outer]
  rw [segments, segments, ancestry, ancestry, climbs]

namespace State

def linesOf (entries : List Entry) : List Command :=
  entries.flatMap (fun entry =>
    match entry.event with
    | .emitted emission => emission.activation
    | .declared _ => [])

theorem lookup_draw (s : State) (name : String) :
    s.draw.scopes.lookup s.draw.current name = s.scopes.lookup s.current name :=
  lookup_modifyScope _ _ _ _ _ (fun _ => rfl)

/-- The generated names that the current scope has still to draw are free in it. -/
def Roomy (s : State) : Prop :=
  ∃ scope, s.scopes.scopes[s.current]? = some scope ∧
    ∀ n, scope.drawn ≤ n → s.scopes.lookup s.current (s.config.generatedName n) = none

/-- Variables were made, under generated and chosen names in the current scope, and commands were
entered into it. Everything else is as it was. -/
structure Adds (chosen : List String) (s t : State) (lines : List Command) : Prop where
  config : t.config = s.config
  current : t.current = s.current
  units : t.units = s.units
  vars : ∀ (id : Nat) (var : Variable), s.vars[id]? = some var → t.vars[id]? = some var
  scopes : ∀ (id : Nat) (scope : Scope), s.scopes.scopes[id]? = some scope → id ≠ s.current →
    t.scopes.scopes[id]? = some scope
  rooted : s.scopes.Rooted → t.scopes.Rooted
  names : ∀ name, s.config.isGenerated name = false → name ∉ chosen →
    t.scopes.lookup s.current name = s.scopes.lookup s.current name
  roomy : s.Roomy → t.Roomy
  entries : ∃ added, t.scopes.log = s.scopes.log ++ added ∧ linesOf added = lines ∧
    ∀ entry ∈ added, entry.event.isEmission = true → entry.scope = s.current

namespace Adds

variable {chosen chosen' : List String} {s t u : State} {lines lines' : List Command}

theorem refl (s : State) : Adds [] s s [] where
  config := rfl
  current := rfl
  units := rfl
  vars := fun _ _ found => found
  scopes := fun _ _ found _ => found
  rooted := id
  names := fun _ _ _ => rfl
  roomy := id
  entries := ⟨[], (append_nil _).symm, rfl, fun _ mem => absurd mem not_mem_nil⟩

theorem trans (first : Adds chosen s t lines) (second : Adds chosen' t u lines') :
    Adds (chosen ++ chosen') s u (lines ++ lines') where
  config := second.config.trans first.config
  current := second.current.trans first.current
  units := second.units.trans first.units
  vars := fun id var found => second.vars id var (first.vars id var found)
  scopes := fun id scope found other =>
    second.scopes id scope (first.scopes id scope found other) (first.current ▸ other)
  rooted := fun rooted => second.rooted (first.rooted rooted)
  names := by
    intro name plain other
    rw [mem_append, not_or] at other
    have later := second.names name (first.config ▸ plain) other.2
    rw [first.current] at later
    exact later.trans (first.names name plain other.1)
  roomy := fun roomy => second.roomy (first.roomy roomy)
  entries := by
    obtain ⟨added, isLog, isLines, placed⟩ := first.entries
    obtain ⟨more, isLog', isLines', placed'⟩ := second.entries
    refine ⟨added ++ more, by rw [isLog', isLog, append_assoc], ?_, fun entry mem => ?_⟩
    · rw [linesOf, flatMap_append, ← linesOf, ← linesOf, isLines, isLines']
    · rcases mem_append.mp mem with old | new
      · exact placed entry old
      · exact fun emission => (placed' entry new emission).trans first.current

theorem mono (adds : Adds chosen s t lines) (more : chosen ⊆ chosen') : Adds chosen' s t lines :=
  { adds with names := fun name plain other => adds.names name plain (fun mem => other (more mem)) }

theorem emitted (adds : Adds chosen s t lines) : t.emitted = s.emitted ++ lines := by
  obtain ⟨added, isLog, isLines, _⟩ := adds.entries
  rw [State.emitted, isLog, flatMap_append, ← isLines]
  rfl

theorem draw (s : State) : Adds [] s s.draw [] where
  config := rfl
  current := rfl
  units := rfl
  vars := fun _ _ found => found
  scopes := by
    intro id scope found other
    rw [State.draw, scopes_draw, ScopeTree.scopes_modifyScope, if_neg (Ne.symm other), found]
  rooted := fun rooted => rooted_draw rooted _ _
  names := fun name _ _ => s.lookup_draw name
  roomy := by
    rintro ⟨scope, here, free⟩
    refine ⟨_, Compile.scope_draw here, fun n later => ?_⟩
    exact (s.lookup_draw _).trans (free n (Nat.le_of_succ_le later))
  entries := ⟨[], (append_nil _).symm, rfl, fun _ mem => absurd mem not_mem_nil⟩

theorem enterVar {scope : Scope} (here : s.scopes.scopes[s.current]? = some scope) {var : Variable}
    (known : s.config.isGenerated var.name = true ∨ var.name ∈ chosen)
    (apart : ∀ n, scope.drawn ≤ n → s.config.generatedName n ≠ var.name) : Adds chosen s (s.enterVar var) [] where
  config := rfl
  current := rfl
  units := rfl
  vars := fun _ _ found => var_enterVar_old var found
  scopes := by
    intro id scope found other
    obtain ⟨_, isScope, _, _, _, _, same⟩ := scope_enterVar var found
    rwa [same other] at isScope
  rooted := rooted_enterVar
  names := by
    intro name plain other
    have distinct : name ≠ var.name := by
      rintro rfl
      rcases known with generated | isChosen
      · exact absurd generated (Bool.eq_false_iff.mp plain)
      · exact other isChosen
    rw [lookup_enterVar (lt_size_of_getElem? here), if_pos rfl, if_neg distinct, Option.or_none]
  roomy := by
    rintro ⟨_, found, free⟩
    rw [here] at found
    cases found
    obtain ⟨later, isLater, _, _, drawn, _⟩ := scope_enterVar var here
    refine ⟨later, isLater, fun n enough => ?_⟩
    rw [drawn] at enough
    refine (lookup_enterVar (lt_size_of_getElem? here) var s.current (s.config.generatedName n)).trans ?_
    rw [if_pos rfl, if_neg (apart n enough), Option.or_none]
    exact free n enough
  entries := by
    refine ⟨_, rfl, rfl, fun entry mem => ?_⟩
    rw [mem_singleton.mp mem]
    rintro ⟨⟩

theorem log (s : State) (lines : List Command) : Adds [] s (s.log { activation := lines }) lines where
  config := rfl
  current := rfl
  units := rfl
  vars := fun _ _ found => found
  scopes := fun _ _ found _ => found
  rooted := fun rooted => ⟨rooted.root, rooted.parent⟩
  names := fun _ _ _ => rfl
  roomy := fun roomy => roomy
  entries := by
    refine ⟨_, rfl, append_nil _, fun entry mem _ => ?_⟩
    rw [mem_singleton.mp mem]

theorem onVar (adds : Adds chosen s t lines) {id : Nat} (new : s.vars.size ≤ id)
    (change : Variable → Variable) : Adds chosen s (t.onVar id change) lines :=
  { adds with
    vars := by
      intro other var found
      have distinct : id ≠ other := by
        have inside := (Array.getElem?_eq_some_iff.mp found).1
        omega
      rw [vars_onVar, if_neg distinct]
      exact adds.vars other var found }

theorem nest (adds : Adds chosen s t lines) {outer : Nat} {outerScope : Scope}
    (found : t.scopes.scopes[outer]? = some outerScope) (name : String) :
    Adds chosen s (t.nest outer outerScope name) lines :=
  { adds with
    scopes := fun id scope there other =>
      have kept := adds.scopes id scope there other
      (ScopeTree.getElem?_addScope_of_lt _ (lt_size_of_getElem? kept)).trans kept
    rooted := fun rooted =>
      rooted_addScope (adds.rooted rooted) rfl (lt_size_of_getElem? found)
    names := fun name plain other =>
      (lookup_addScope rfl name).trans (adds.names name plain other)
    roomy := by
      intro roomy
      obtain ⟨scope, here, free⟩ := adds.roomy roomy
      refine ⟨scope, ?_, fun n later => (lookup_addScope rfl _).trans (free n later)⟩
      exact (ScopeTree.getElem?_addScope_of_lt _ (lt_size_of_getElem? here)).trans here }

theorem inside (adds : Adds chosen s t lines) (here : s.current < s.scopes.size) {inner : Nat}
    (new : s.scopes.size ≤ inner) (there : inner < t.scopes.size) (var : Variable) : Adds chosen s
      { ({ t with current := inner } : State).enterVar var with current := t.current } lines := by
  have distinct : s.current ≠ inner := Nat.ne_of_lt (Nat.lt_of_lt_of_le here new)
  have lookup (name : String) : (t.scopes.bindName inner var.name t.vars.size).lookup s.current name =
      t.scopes.lookup s.current name := by
    rw [lookup_bindName _ _ _ _ _ _ there, if_neg distinct]
  have kept {id : Nat} {scope : Scope} (found : t.scopes.scopes[id]? = some scope) (old : id ≠ inner) :
      (({ t with current := inner } : State).enterVar var).scopes.scopes[id]? = some scope := by
    obtain ⟨_, isScope, _, _, _, _, same⟩ := scope_enterVar (s := { t with current := inner }) var found
    rwa [same old] at isScope
  refine { adds with vars := ?vars, scopes := ?scopes, rooted := ?rooted, names := ?names,
                     roomy := ?roomy, entries := ?entries }
  case vars => exact fun id other found => var_enterVar_old var (adds.vars id other found)
  case scopes =>
    intro id scope found other
    refine kept (adds.scopes id scope found other) ?_
    exact Nat.ne_of_lt (Nat.lt_of_lt_of_le (lt_size_of_getElem? found) new)
  case rooted =>
    intro rooted
    have bound := rooted_modifyScope (adds.rooted rooted) inner
      (fun scope => { scope with names := scope.names ++ [(var.name, t.vars.size)] })
      (fun _ => rfl) (fun _ => rfl)
    exact ⟨bound.root, bound.parent⟩
  case names => exact fun name plain other => (lookup name).trans (adds.names name plain other)
  case roomy =>
    intro roomy
    obtain ⟨scope, isHere, free⟩ := adds.roomy roomy
    rw [adds.current] at isHere free
    refine ⟨scope, ?_, fun n later => ?_⟩
    · dsimp only
      rw [adds.current]
      exact kept isHere distinct
    · dsimp only
      rw [adds.current]
      exact (lookup _).trans (free n later)
  case entries =>
    obtain ⟨added, isLog, isLines, placed⟩ := adds.entries
    refine ⟨added ++ [⟨t.scopes.nextSeq, inner, .declared t.vars.size⟩], ?_, ?_, ?_⟩
    · rw [← append_assoc, ← isLog]
      rfl
    · rw [linesOf, flatMap_append, ← linesOf, isLines]
      exact append_nil _
    · intro entry mem emission
      rcases mem_append.mp mem with old | isNew
      · exact placed entry old emission
      · rw [mem_singleton.mp isNew] at emission
        cases emission

end Adds

/-- A variable under the next generated name of the current scope. -/
def made (s : State) (drawn : Nat) (type : ValueType) (usage : Usage) (value : Value) (position : Position) : State :=
  s.draw.enterVar
    { type, access := .hidden, usage, name := s.config.generatedName drawn, scope := s.current, value
      position }

private theorem onVar_enterVar (s : State) (var : Variable) {change : Variable → Variable}
    (kept : (change var).name = var.name) : (s.enterVar var).onVar s.vars.size change = s.enterVar (change var) := by
  have vars : (s.vars.push var).modify s.vars.size change = s.vars.push (change var) := by
    refine Array.ext_getElem? (fun i => ?_)
    rw [Array.getElem?_modify, Array.getElem?_push, Array.getElem?_push]
    by_cases last : i = s.vars.size
    · simp [last]
    · rw [if_neg (Ne.symm last), if_neg last, if_neg last]
  rw [onVar, enterVar, enterVar, vars, kept]

variable {s : State} {scope : Scope}

theorem adds_made (here : s.scopes.scopes[s.current]? = some scope) (type : ValueType) (usage : Usage)
    (value : Value) (position : Position) : Adds [] s (s.made scope.drawn type usage value position) [] := by
  refine (Adds.draw s).trans (.enterVar (Compile.scope_draw here)
    (.inl (s.config.isGenerated_generatedName _)) (fun n later same => ?_))
  have := s.config.generatedName_injective same
  exact Nat.not_succ_le_self _ (this ▸ later)

theorem var_made (s : State) (drawn : Nat) (type : ValueType) (usage : Usage) (value : Value) (position : Position) :
    ∃ var, (s.made drawn type usage value position).vars[s.vars.size]? = some var ∧
      var.type = type ∧ var.usage = usage ∧ var.value = value :=
  ⟨_, var_enterVar_new s.draw _, rfl, rfl, rfl⟩

private theorem registerAt_draw_enterVar (s : State) (var : Variable) (scope : Nat) (name : String) :
    (s.draw.enterVar var).registerAt scope name = s.registerAt scope name := by
  have drawn : s.draw.scopes.segments scope = s.scopes.segments scope :=
    (segments_congr (scopes_draw ..) scope).trans
      (segments_modifyScope s.scopes s.current scope (fun _ => ⟨rfl, rfl⟩))
  have bound (tree : ScopeTree) (id : VarId) :
      (tree.bindName s.current var.name id).segments scope = tree.segments scope :=
    segments_modifyScope tree s.current scope (fun _ => ⟨rfl, rfl⟩)
  have same : (s.draw.enterVar var).scopes.scopes =
      (s.draw.scopes.bindName s.current var.name s.vars.size).scopes := rfl
  have segments := ((segments_congr same scope).trans (bound _ _)).trans drawn
  exact registerAt_eq (s := s) (t := s.draw.enterVar var) rfl segments name

def spare (s : State) (n : Nat) : Register :=
  s.registerAt s.current (s.config.generatedName n)

def withScore (s : State) (drawn : Nat) (type : ValueType) (position : Position) : State :=
  s.made drawn type .ordinary (.register (s.spare drawn)) position

theorem var_withScore (s : State) (drawn : Nat) (type : ValueType) (position : Position) :
    ∃ var, (s.withScore drawn type position).vars[s.vars.size]? = some var ∧ var.type = type ∧
      var.value = .register (s.spare drawn) :=
  ⟨_, var_enterVar_new s.draw _, rfl, rfl⟩

end State

namespace Compile

open State

variable {s : State} {scope : Scope}

def initially (s : State) (type : ValueType) (usage : Usage) (name : String) : Value :=
  match type with
  | .int | .bool => if usage = .constant then .unset else .register (s.registerAt s.current name)
  | .string | .objective => .unset

theorem runFrom_allocateScore_entered (var : Variable) (inside : var.scope < s.scopes.size)
    (unset : var.value = .unset) : (allocateScore s.vars.size).runFrom (s.enterVar var) = (.ok (), s.enterVar { var with
        value := if var.usage = .constant then .unset
          else .register ((s.enterVar var).registerAt var.scope var.name) }) := by
  have found := State.var_enterVar_new s var
  rw [allocateScore, runFrom_bind_ok (runFrom_var found)]
  split
  · rw [runFrom_pure, ← unset]
  · rw [runFrom_bind_ok (runFrom_registerFor (by rw [scopes_size_enterVar]; exact inside) _),
      runFrom_setValue found, onVar_enterVar s var rfl]

variable {type : ValueType}

section

variable (here : s.scopes.scopes[s.current]? = some scope)
  (free : s.scopes.lookup s.current (s.config.generatedName scope.drawn) = none)
include here free

private theorem runFrom_anonymous (memberless : type ≠ .objective) {usage : Usage} {position : Position}
    (admitted : checkModifiers type .hidden usage position = .ok ()) : (anonymous type.name usage position).runFrom s =
      (.ok s.vars.size, s.made scope.drawn type usage
        (initially s type usage (s.config.generatedName scope.drawn)) position) := by
  let var : Variable :=
    { type, access := .hidden, usage, name := s.config.generatedName scope.drawn,
      scope := s.current, position }
  have entered : (enterVariable type .hidden usage (s.config.generatedName scope.drawn)
      position).runFrom s.draw = (.ok s.vars.size, s.draw.enterVar var) :=
    runFrom_enterVariable (scope_draw here) admitted ((s.lookup_draw _).trans free)
  have score := runFrom_allocateScore_entered (s := s.draw) var (lt_size_of_getElem? (scope_draw here)) rfl
  rw [registerAt_draw_enterVar] at score
  have allocated : (allocate type s.vars.size).runFrom (s.draw.enterVar var) =
      (.ok (), s.made scope.drawn type usage (initially s type usage var.name) position) := by
    cases type with
    | int => exact score
    | bool => exact score
    | string => rfl
    | objective => exact absurd rfl memberless
  simp only [anonymous, declareInternal, typeNamed_name, runFrom_bind, runFrom_get,
    runFrom_nextAnonymous here, runFrom_lift, entered, allocated, runFrom_pure]
  rfl

theorem runFrom_temporary {type : ValueType} (isScore : type = .int ∨ type = .bool) :
    (temporary type.name position).runFrom s = (.ok s.vars.size, s.withScore scope.drawn type position) := by
  rcases isScore with rfl | rfl <;> exact runFrom_anonymous here free (by decide) rfl

theorem runFrom_valued (memberless : type ≠ .objective) {usage : Usage} {position : Position}
    (admitted : checkModifiers type .hidden usage position = .ok ()) :
    (do let id ← anonymous type.name usage position; setValue id value; return id).runFrom s =
      (.ok s.vars.size, s.made scope.drawn type usage value position) := by
  obtain ⟨var, found, _⟩ := s.var_made scope.drawn type usage
    (initially s type usage (s.config.generatedName scope.drawn)) position
  rw [runFrom_bind_ok (runFrom_anonymous here free memberless admitted),
    runFrom_bind_ok (runFrom_setValue found value), runFrom_pure]
  exact congrArg _ (onVar_enterVar s.draw _ rfl)

theorem runFrom_constant {type : ValueType} (memberless : type ≠ .objective) (value : Value) (position : Position) :
    (constant type value position).runFrom s = (.ok s.vars.size, s.made scope.drawn type .constant value position) :=
  runFrom_valued here free memberless (by cases type <;> rfl)

end

end Compile

end ScoreScript
