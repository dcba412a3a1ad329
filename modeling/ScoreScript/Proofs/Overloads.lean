import ScoreScript.Proofs.Compile.Arguments
import ScoreScript.Proofs.Flush
import ScoreScript.Proofs.Registration

/-!
# The first parameter list that takes the arguments

Parameter lists are tried in order, each in a scope of its own. What a try in vain has entered is
dropped again, so only the list that is chosen leaves commands behind.
-/

namespace ScoreScript

open List

open ScopeTree

variable {fault : Fault} {params : List Param} {pos : Position} {var : Variable}
  {scope : ScopeId}

namespace State

/-- Scopes are numbered from the root down, and what happened happened in scopes that are there. -/
structure Orderly (s : State) : Prop where
  rooted : s.scopes.Rooted
  placed : ∀ entry ∈ s.scopes.log, entry.scope < s.scopes.size

private theorem steady_orderly : Steady False Orderly where
  lines := False.elim
  aside := by
    intro s t orderly beside
    have size : t.scopes.size = s.scopes.size := congrArg Array.size beside.scopes
    refine ⟨⟨beside.scopes ▸ orderly.rooted.root, beside.scopes ▸ orderly.rooted.parent⟩, ?_⟩
    intro entry mem
    rw [size]
    exact (beside.placed entry mem).elim (orderly.placed entry) id
  scope := fun id _ kept orderly =>
    ⟨rooted_modifyScope orderly.rooted id _ (fun scope => (kept scope).1) (fun scope => (kept scope).2.1),
      fun entry mem => (size_modifyScope _ _ _).symm ▸ orderly.placed entry mem⟩
  nest := fun parent inside _ _ _ orderly =>
    ⟨rooted_addScope orderly.rooted parent inside, fun entry mem =>
      (size_addScope _ _).symm ▸ Nat.lt_succ_of_lt (orderly.placed entry mem)⟩
  unit := fun _ _ orderly =>
    ⟨rooted_modifyScope orderly.rooted _ _ (fun _ => rfl) (fun _ => rfl),
      fun entry mem => (size_modifyScope _ _ _).symm ▸ orderly.placed entry mem⟩
  enter := by
    intro s type access usage name pos inside _ _ orderly
    refine ⟨rooted_enterVar orderly.rooted, fun entry mem => ?_⟩
    rw [scopes_size_enterVar]
    rcases mem_append.mp mem with old | new
    · exact orderly.placed entry old
    · rw [mem_singleton.mp new]
      exact inside
  detail := fun _ _ _ orderly => ⟨orderly.rooted, orderly.placed⟩
  value := fun _ _ _ orderly => ⟨orderly.rooted, orderly.placed⟩
  refer := by
    intro s id owner objective criterion _ _ _ orderly
    unfold refresh
    split <;> exact ⟨orderly.rooted, orderly.placed⟩
  members := fun _ _ _ _ _ orderly => ⟨orderly.rooted, orderly.placed⟩

theorem Reachable.orderly {config : Config} {src : Nat} {s : State}
    (reachable : s.Reachable config src) : s.Orderly := by
  refine steady_orderly.lasting.reachable reachable ⟨⟨⟨_, rfl, rfl, rfl⟩, ?_⟩, ?_⟩
  · intro id scope found positive
    have inside := lt_size_of_getElem? found
    exact absurd inside (Nat.not_lt_of_le positive)
  · intro entry mem
    rw [mem_singleton.mp mem]
    exact Nat.one_pos

/-- Between two tries: the commands are those of the first state, and the scopes that are left are
empty. -/
structure Poised (s u : State) (scopes : List ScopeId) : Prop where
  config : u.config = s.config
  current : u.current = s.current
  vars : ∀ (id : Nat) (var : Variable), s.vars[id]? = some var → u.vars[id]? = some var
  rooted : u.scopes.Rooted
  emissions : u.scopes.log.filter (fun entry => entry.event.isEmission) =
    s.scopes.log.filter (fun entry => entry.event.isEmission)
  blank : ∀ id ∈ scopes, s.scopes.size ≤ id ∧ ∃ scope, u.scopes.scopes[id]? = some scope ∧ scope.names = []
  distinct : scopes.Nodup

private theorem linesOf_filter (entries : List Entry) :
    linesOf (entries.filter (fun entry => entry.event.isEmission)) = linesOf entries := by
  induction entries with
  | nil => rfl
  | cons entry entries ih =>
    obtain ⟨seq, scope, event⟩ := entry
    cases event with
    | declared id => exact ih
    | emitted emission => exact congrArg (emission.activation ++ ·) ih

variable {scopes : List ScopeId}

theorem Poised.emitted {s u : State} (poised : s.Poised u scopes) : u.emitted = s.emitted := by
  have same := congrArg linesOf poised.emissions
  rwa [linesOf_filter, linesOf_filter] at same

theorem Poised.lookup {s u : State} (poised : s.Poised u (scope :: scopes)) (name : String) :
    u.scopes.lookup scope name = none := by
  obtain ⟨_, blank, found, empty⟩ := poised.blank scope mem_cons_self
  rw [ScopeTree.lookup, found, Option.bind_some, Scope.find?, empty]
  rfl

theorem Poised.roomy {s u : State} (poised : s.Poised u (scope :: scopes)) :
    ({ u with current := scope } : State).Roomy := by
  obtain ⟨_, blank, found, _⟩ := poised.blank scope mem_cons_self
  exact ⟨blank, found, fun n _ => poised.lookup _⟩

end State

namespace Compile

open State

variable {s u : State} {scopes : List ScopeId}

private theorem discard_poised (orderly : s.Orderly) (poised : s.Poised u (scope :: scopes)) {t : State}
    {chosen : List String} {lines : List Command}
    (adds : ({ u with current := scope } : State).Adds chosen t lines) :
    ∃ v, (onScopes (ScopeTree.discard scope)).runFrom { t with current := u.current } = (.ok (), v) ∧
      s.Poised v scopes := by
  obtain ⟨here, isHere, _⟩ := adds.roomy poised.roomy
  rw [adds.current] at isHere
  have rooted := adds.rooted poised.rooted
  obtain ⟨added, isLog, _, placed⟩ := adds.entries
  have ran : (onScopes (ScopeTree.discard scope)).runFrom { t with current := u.current } = (.ok (),
      { t with
        current := u.current
        scopes := { t.scopes with log := t.scopes.log.filter (fun entry =>
          !(entry.event.isEmission && t.scopes.belongs scope entry.scope)) } }) := by
    simp only [runFrom_onScopes, ScopeTree.discard, Fault.run_bind, Fault.run_get, ScopeTree.scope,
      isHere, Fault.run_lift, Fault.run_set]
  refine ⟨_, ran, adds.config.trans poised.config, poised.current,
    fun id var found => adds.vars id var (poised.vars id var found), ⟨rooted.root, rooted.parent⟩, ?_, ?_,
    (nodup_cons.mp poised.distinct).2⟩
  · -- Commands from before the try lie in older scopes, which are not inside the scope of the try.
    rw [← poised.emissions, filter_filter, isLog, filter_append]
    have old : u.scopes.log.filter (fun entry => entry.event.isEmission &&
        !(entry.event.isEmission && t.scopes.belongs scope entry.scope)) =
        u.scopes.log.filter (fun entry => entry.event.isEmission) := by
      refine filter_congr (fun entry mem => ?_)
      cases emission : entry.event.isEmission with
      | false => rfl
      | true =>
        have inOld : entry ∈ s.scopes.log := by
          have listed : entry ∈ u.scopes.log.filter (fun entry => entry.event.isEmission) :=
            mem_filter.mpr ⟨mem, emission⟩
          rw [poised.emissions] at listed
          exact (mem_filter.mp listed).1
        have outside : t.scopes.belongs scope entry.scope = false := by
          rw [Bool.eq_false_iff]
          intro belongs
          have above := ((belongs_iff rooted).mp belongs).le rooted
          have below := orderly.placed entry inOld
          exact Nat.lt_irrefl _ (Nat.lt_of_lt_of_le below
            (Nat.le_trans (poised.blank scope mem_cons_self).1 above))
        rw [outside]
        rfl
    have new : added.filter (fun entry => entry.event.isEmission &&
        !(entry.event.isEmission && t.scopes.belongs scope entry.scope)) = [] := by
      rw [filter_eq_nil_iff]
      intro entry mem kept
      rw [Bool.and_eq_true] at kept
      have belongs : t.scopes.belongs scope entry.scope = true := by
        rw [placed entry mem kept.1]
        exact (belongs_iff rooted).mpr .here
      rw [belongs, kept.1] at kept
      cases kept.2
    rw [old, new, append_nil]
  · intro id mem
    obtain ⟨above, blank, found, empty⟩ := poised.blank id (mem_cons_of_mem _ mem)
    refine ⟨above, blank, adds.scopes id blank found ?_, empty⟩
    rintro rfl
    exact (nodup_cons.mp poised.distinct).1 mem

private theorem createChildren_poised (orderly : s.Orderly) (inside : s.current < s.scopes.size) (count : Nat) :
    ∃ t scopes, (createChildren count).runFrom s = (.ok scopes, t) ∧ scopes.length = count ∧ s.Poised t scopes := by
  have made (count : Nat) {u : State} {scope : Scope} (here : u.scopes.scopes[u.current]? = some scope) :
      ∃ t scopes, (onScopes (ScopeTree.createChildren u.current u.config.anonymousPrefix count)).runFrom u =
          (.ok scopes, t) ∧ u.Adds [] t [] ∧ t.scopes.log = u.scopes.log ∧ scopes.length = count ∧
        scopes.Nodup ∧ ∀ id ∈ scopes, u.scopes.size ≤ id ∧
          ∃ scope, t.scopes.scopes[id]? = some scope ∧ scope.names = [] := by
    induction count generalizing u scope with
    | zero =>
      exact ⟨u, [], rfl, .refl u, rfl, rfl, nodup_nil, fun _ mem => absurd mem not_mem_nil⟩
    | succ count ih =>
      have adds : u.Adds [] (nested u scope) [] := (Adds.draw u).nest (scope_draw here) _
      have size : (nested u scope).scopes.size = u.scopes.size + 1 :=
        (size_addScope _ _).trans (congrArg Nat.succ (size_modifyScope _ _ _))
      have inside := lt_size_of_getElem? (scope_draw here)
      have later : (nested u scope).scopes.scopes[u.current]? = _ :=
        (ScopeTree.getElem?_addScope_of_lt _ inside).trans (scope_draw here)
      obtain ⟨t, scopes, ran, more, log, length, distinct, blank⟩ := ih later
      have child : t.scopes.scopes[u.scopes.size]? = _ :=
        more.scopes _ _ (scope_nested u scope) (Nat.ne_of_gt (lt_size_of_getElem? here))
      have beyond (id : ScopeId) (mem : id ∈ scopes) : u.scopes.size < id :=
        Nat.lt_of_lt_of_le (by rw [size]; exact Nat.lt_succ_self _) (blank id mem).1
      refine ⟨t, u.scopes.size :: scopes, ?_, adds.trans more, log, congrArg Nat.succ length, ?_, ?_⟩
      · have nests := runFrom_nested here
        rw [runFrom_bind_ok (runFrom_nextAnonymous here)] at nests
        rw [ScopeTree.createChildren, runFrom_onScopes_bind,
          runFrom_bind_ok (runFrom_nextAnonymous here), runFrom_onScopes_bind,
          runFrom_bind_ok nests, runFrom_onScopes_bind]
        exact runFrom_bind_ok ran _
      · exact nodup_cons.mpr ⟨fun mem => Nat.lt_irrefl _ (beyond _ mem), distinct⟩
      · rintro id (_ | ⟨_, mem⟩)
        · exact ⟨Nat.le_refl _, _, child, rfl⟩
        · exact ⟨Nat.le_of_lt (beyond id mem), (blank id mem).2⟩
  obtain ⟨scope, here⟩ := exists_of_lt_size inside
  obtain ⟨t, scopes, ran, adds, log, length, distinct, blank⟩ := made count here
  refine ⟨t, scopes, (runFrom_bind_ok runFrom_get _).trans ran, length, ?_⟩
  exact ⟨adds.config, adds.current, adds.vars, adds.rooted orderly.rooted, by rw [log], blank, distinct⟩

/-- The parameters have types of the language and different names, none of which could be generated. -/
structure IsProper (config : Config) (params : List Param) : Prop where
  typed : ∀ param ∈ params, (ValueType.ofName? param.type).isSome = true
  plain : ∀ param ∈ params, config.isGenerated param.name = false
  distinct : (params.map Param.name).Nodup

def IsSkipped (fault : Fault) : Prop :=
  fault.kind = .wrongArgumentCount ∨ fault.kind = .cannotCast

private theorem scoreFault?_not_skipped (isFault : var.scoreFault? pos = some fault) : ¬ IsSkipped fault := by
  rw [Variable.scoreFault?.eq_def] at isFault
  cases held : var.value with
  | int | register => simp [held] at isFault
  | unset | text | objective =>
    simp only [held, Option.some.injEq] at isFault
    subst isFault
    rintro (other | other) <;> cases other

private theorem readFault?_not_skipped (isFault : var.readFault? pos = some fault) : ¬ IsSkipped fault := by
  cases isType : var.type with
  | int => exact scoreFault?_not_skipped (Variable.readFault?_of_score (.inl isType) _ ▸ isFault)
  | bool => exact scoreFault?_not_skipped (Variable.readFault?_of_score (.inr isType) _ ▸ isFault)
  | string | objective =>
    rw [Variable.readFault?.eq_def, isType] at isFault
    cases held : var.value <;> simp only [held, Option.some.injEq, reduceCtorEq] at isFault
    all_goals
      subst isFault
      rintro (other | other) <;> cases other

private theorem conversionFault?_kind {target : String} (isFault : var.conversionFault? target pos = some fault) :
    fault.kind ≠ .wrongArgumentCount := by
  have score (isFault : var.scoreFault? pos = some fault) : fault.kind ≠ .wrongArgumentCount :=
    fun kind => scoreFault?_not_skipped isFault (.inl kind)
  unfold Variable.conversionFault? at isFault
  repeat' split at isFault
  all_goals first
    | exact score isFault
    | cases isFault
  all_goals rintro ⟨⟩

private theorem bindFault?_skipped {what : String} {vars : List Variable}
    (isFault : bindFault? what params vars pos = some fault) (skipped : IsSkipped fault) :
    fault.kind = .wrongArgumentCount ∧ params.length ≠ vars.length ∨
      fault.kind = .cannotCast ∧ params.length = vars.length ∧ ∃ pair ∈ params.zip vars,
        pair.2.conversionFault? pair.1.type pos = some fault := by
  unfold bindFault? at isFault
  dsimp only at isFault
  split at isFault
  · next other =>
      cases isFault
      exact .inl ⟨rfl, other⟩
  · next same =>
      right
      rcases Option.or_eq_some_iff.mp isFault with converted | ⟨_, read⟩
      · obtain ⟨pair, mem, isFault⟩ := exists_of_findSome?_eq_some converted
        exact ⟨skipped.resolve_left (conversionFault?_kind isFault), Decidable.not_not.mp same, pair, mem, isFault⟩
      · obtain ⟨pair, _, isFault⟩ := exists_of_findSome?_eq_some read
        exact absurd skipped (readFault?_not_skipped isFault)

section

variable {args : List VarId} {vars : List Variable}
  (found : List.Forall₂ (fun id var => s.vars[id]? = some var) args vars)

include found

private theorem bind_poised (poised : s.Poised u (scope :: scopes)) (proper : IsProper s.config params)
    (what : String) (pos : Position) :
    Concludes { u with current := scope } (bindParams what params args pos)
      (bindFault? what params vars pos) (params.map Param.name)
      (fun ids t => List.Forall₂ (t.IsParam scope) params ids) := by
  refine bindParams_concludes poised.roomy ?_ ?_ (fun _ _ => poised.lookup _) proper.distinct ?_
  · intro param mem
    obtain ⟨type, isType⟩ := Option.isSome_iff_exists.mp (proper.typed param mem)
    have same := find?_some isType
    exact ⟨type, (beq_iff_eq.mp same).symm⟩
  · intro param mem
    exact poised.config ▸ proper.plain param mem
  · exact found.imp (fun id var isVar => poised.vars id var isVar)

/-- Lists are passed over until one takes the arguments or fails in another way. -/
private theorem tryOverloads_poised (orderly : s.Orderly) {overloads : List (List Param)}
    (poised : s.Poised u scopes) (same : scopes.length = overloads.length)
    (proper : ∀ params ∈ overloads, IsProper s.config params) (what : String) (pos : Position)
    (index : Nat) (fitting : Bool) :
    (∃ t, (tryOverloads what args pos index fitting (overloads.zip scopes)).runFrom u =
        (.ok (.inl (fitting || overloads.any (fun params => params.length = vars.length))), t) ∧
      s.Poised t [] ∧ ∀ params ∈ overloads, ∃ fault,
        bindFault? what params vars pos = some fault ∧ IsSkipped fault) ∨
    ∃ before params after scope v, overloads = before ++ params :: after ∧
      (∀ other ∈ before, ∃ fault, bindFault? what other vars pos = some fault ∧ IsSkipped fault) ∧
      (∀ fault, bindFault? what params vars pos = some fault → ¬ IsSkipped fault) ∧ s.Poised v [scope] ∧
      (tryOverloads what args pos index fitting (overloads.zip scopes)).runFrom u =
        match (inScope scope (bindParams what params args pos)).runFrom v with
        | (.ok ids, t) => (.ok (.inr (index + before.length, ids)), t)
        | (.error fault, t) => (.error fault, t) := by
  induction overloads generalizing u scopes index fitting with
  | nil =>
    cases scopes with
    | cons => cases same
    | nil =>
      refine .inl ⟨u, ?_, poised, fun _ mem => absurd mem not_mem_nil⟩
      rw [any_nil, Bool.or_false]
      rfl
  | cons params overloads ih =>
    cases scopes with
    | nil => cases same
    | cons scope scopes =>
      have tried := bind_poised found poised (proper params mem_cons_self) what pos
      obtain ⟨t, lines, adds, outcome⟩ := tried
      rw [zip_cons_cons]
      by_cases skips : ∃ fault, bindFault? what params vars pos = some fault ∧ IsSkipped fault
      · obtain ⟨fault, isFault, skipped⟩ := skips
        rw [isFault] at outcome
        obtain ⟨v, dropped, later⟩ := discard_poised orderly poised adds
        have next : (tryOverloads what args pos index fitting
            ((params, scope) :: overloads.zip scopes)).runFrom u =
            (tryOverloads what args pos (index + 1)
              (fitting || decide (params.length = vars.length)) (overloads.zip scopes)).runFrom v := by
          have tried : (attempt (inScope scope (bindParams what params args pos))).runFrom u =
              (.ok (.error fault), { t with current := u.current }) := by
            rw [runFrom_attempt, runFrom_inScope, outcome]
          rw [tryOverloads, runFrom_bind_ok tried]
          rcases bindFault?_skipped isFault skipped with ⟨kind, length⟩ | ⟨kind, length, _⟩
          · simp only [kind, length, decide_false, Bool.or_false]
            exact runFrom_bind_ok dropped _
          · simp only [kind, length, decide_true, Bool.or_true]
            exact runFrom_bind_ok dropped _
        rw [next]
        rcases ih later (Nat.succ.inj same) (fun params mem =>
            proper params (mem_cons_of_mem _ mem)) (index + 1)
            (fitting || decide (params.length = vars.length)) with
          ⟨last, ran, isLast, all⟩ | ⟨before, chosen, after, place, last, split, all, taken, isLast, ran⟩
        · refine .inl ⟨last, ?_, isLast, ?_⟩
          · rw [ran, any_cons, Bool.or_assoc]
          · rintro other (_ | ⟨_, mem⟩)
            · exact ⟨fault, isFault, skipped⟩
            · exact all other mem
        · refine .inr ⟨params :: before, chosen, after, place, last, by rw [split]; rfl, ?_, taken, isLast, ?_⟩
          · rintro other (_ | ⟨_, mem⟩)
            · exact ⟨fault, isFault, skipped⟩
            · exact all other mem
          · rw [ran, length_cons, Nat.add_right_comm, Nat.add_assoc]
      · refine .inr ⟨[], params, overloads, scope, u, rfl, fun _ mem => absurd mem not_mem_nil,
          fun fault isFault skipped => skips ⟨fault, isFault, skipped⟩,
          { poised with
            blank := fun id mem => poised.blank id (by
              rw [mem_singleton.mp mem]
              exact mem_cons_self)
            distinct := nodup_singleton _ }, ?_⟩
        rw [tryOverloads, runFrom_bind, runFrom_attempt, runFrom_inScope]
        cases isFault : bindFault? what params vars pos with
        | none =>
          rw [isFault] at outcome
          obtain ⟨ids, ran, _⟩ := outcome
          rw [ran]
          rfl
        | some fault =>
          rw [isFault] at outcome
          rw [outcome]
          have other : ¬ IsSkipped fault := fun skipped => skips ⟨fault, isFault, skipped⟩
          dsimp only
          split
          · next kind => exact absurd (.inl kind) other
          · next kind => exact absurd (.inr kind) other
          · rfl

theorem describeTypes_ok (vars : ∀ (id : Nat) (var : Variable), s.vars[id]? = some var → u.vars[id]? = some var) :
    ∃ types, (describeTypes args).runFrom u = (.ok types, u) := by
  induction found with
  | nil => exact ⟨[], rfl⟩
  | cons isVar _ ih =>
    obtain ⟨types, ran⟩ := ih
    exact ⟨_, (runFrom_bind_ok (runFrom_var (vars _ _ isVar)) _).trans (runFrom_bind_ok ran _)⟩

/-- What becomes of a choice: no list takes the arguments, or the first that is not passed over does, or
it fails. -/
private theorem select_cases (orderly : s.Orderly) (inside : s.current < s.scopes.size) {overloads : List (List Param)}
    (proper : ∀ params ∈ overloads, IsProper s.config params) (what : String) (pos : Position) :
    (∃ fault t, (select what overloads args pos).runFrom s = (.error fault, t) ∧ t.emitted = s.emitted ∧
      fault.kind = (if overloads.any (fun params => params.length = vars.length) then .cannotCast
        else .wrongArgumentCount) ∧ ∀ params ∈ overloads, ∃ fault, bindFault? what params vars pos = some fault ∧
        IsSkipped fault) ∨ ∃ before params after scope u t lines, overloads = before ++ params :: after ∧
      (∀ other ∈ before, ∃ fault, bindFault? what other vars pos = some fault ∧ IsSkipped fault) ∧
      u.emitted = s.emitted ∧ t.emitted = s.emitted ++ lines ∧
      ((∃ fault, bindFault? what params vars pos = some fault ∧ ¬ IsSkipped fault ∧
        (select what overloads args pos).runFrom s = (.error fault, t)) ∨
      ∃ ids, bindFault? what params vars pos = none ∧
        (select what overloads args pos).runFrom s = (.ok (before.length, ids), t) ∧
        (inScope scope (bindParams what params args pos)).runFrom u = (.ok ids, t) ∧
        List.Forall₂ (t.IsParam scope) params ids) := by
  obtain ⟨opened, scopes, made, length, poised⟩ := createChildren_poised orderly inside overloads.length
  rcases tryOverloads_poised found orderly poised length proper what pos 0 false with
    ⟨t, tried, later, all⟩ | ⟨before, params, after, scope, u, split, all, taken, later, tried⟩
  · left
    rw [select, runFrom_bind_ok made, runFrom_bind_ok tried, Bool.false_or]
    cases fits : overloads.any (fun params => params.length = vars.length) with
    | true =>
      obtain ⟨types, ran⟩ := describeTypes_ok found later.vars
      exact ⟨_, t, runFrom_bind_ok ran _, later.emitted, rfl, all⟩
    | false => exact ⟨_, t, rfl, later.emitted, rfl, all⟩
  · right
    have mem : params ∈ overloads := split ▸ mem_append_right _ mem_cons_self
    obtain ⟨t, lines, adds, outcome⟩ := bind_poised found later (proper params mem) what pos
    have emitted : ({ t with current := u.current } : State).emitted = s.emitted ++ lines :=
      later.emitted ▸ adds.emitted
    refine ⟨before, params, after, scope, u, { t with current := u.current }, lines, split, all,
      later.emitted, emitted, ?_⟩
    rw [select, runFrom_bind_ok made, runFrom_inScope]
    rw [runFrom_inScope] at tried
    cases isFault : bindFault? what params vars pos with
    | some fault =>
      rw [isFault] at outcome
      rw [outcome] at tried
      exact .inl ⟨fault, rfl, taken fault isFault, runFrom_bind_error tried _⟩
    | none =>
      rw [isFault] at outcome
      obtain ⟨ids, ran, isParam⟩ := outcome
      rw [ran, Nat.zero_add] at tried
      rw [ran]
      exact .inr ⟨ids, rfl, runFrom_bind_ok tried _, rfl, isParam⟩

end

def Converts (params : List Param) (vars : List Variable) (pos : Position) : Prop :=
  ∀ pair ∈ params.zip vars, pair.2.conversionFault? pair.1.type pos = none

private theorem converts_of_bindFault? {what : String} {vars : List Variable}
    (free : bindFault? what params vars pos = none) :
    params.length = vars.length ∧ Converts params vars pos := by
  unfold bindFault? at free
  dsimp only at free
  split at free
  · cases free
  · next same =>
      rw [Option.or_eq_none_iff] at free
      exact ⟨Decidable.not_not.mp same, findSome?_eq_none_iff.mp free.1⟩

/-- What choosing among parameter lists in `s` comes to. -/
structure SelectsFirst (s : State) (what : String) (overloads : List (List Param)) (args : List VarId)
    (vars : List Variable) (pos : Position) (ran : Except Fault (Nat × List VarId) × State) : Prop where
  /-- The list chosen is the first that fits, and only what was entered for it is there. -/
  chosen : ∀ i ids, ran.1 = .ok (i, ids) → ∃ params scope u lines,
    overloads[i]? = some params ∧
    params.length = vars.length ∧
    Converts params vars pos ∧
    (∀ j < i, ∀ other, overloads[j]? = some other → other.length = vars.length → ¬ Converts other vars pos) ∧
    u.emitted = s.emitted ∧
    (inScope scope (bindParams what params args pos)).runFrom u = (.ok ids, ran.2) ∧
    ran.2.emitted = s.emitted ++ lines ∧
    List.Forall₂ (ran.2.IsParam scope) params ids
  noneLong : (∃ fault, ran.1 = .error fault ∧ fault.kind = .wrongArgumentCount) ↔
    ∀ params ∈ overloads, params.length ≠ vars.length
  noneConverts : (∃ fault, ran.1 = .error fault ∧ fault.kind = .cannotCast) ↔
    (∃ params ∈ overloads, params.length = vars.length) ∧
    ∀ params ∈ overloads, params.length = vars.length →
      ∃ fault, bindFault? what params vars pos = some fault ∧ fault.kind = .cannotCast
  undone : ∀ fault, ran.1 = .error fault → IsSkipped fault → ran.2.emitted = s.emitted
  /-- Another fault is that of the first list that is not passed over. -/
  blocked : ∀ fault, ran.1 = .error fault → ¬ IsSkipped fault → ∃ (i : Nat) (params : List Param),
    overloads[i]? = some params ∧
    params.length = vars.length ∧
    bindFault? what params vars pos = some fault ∧
    ∀ j < i, ∀ other, overloads[j]? = some other → other.length = vars.length →
      ∃ skipped, bindFault? what other vars pos = some skipped ∧ skipped.kind = .cannotCast

/-- Arguments are bound to the first parameter list that has as many parameters and whose types they
can be converted to, and what was entered for other lists is gone. There is no such list exactly when
the choice fails for the number or the types of the arguments, and then nothing was entered; any other
fault is that of the first list that is not passed over. -/
theorem select_first_match {config : Config} {src : Nat} (reachable : s.Reachable config src)
    (inside : s.current < s.scopes.size) {overloads : List (List Param)}
    (proper : ∀ params ∈ overloads, IsProper s.config params) {args : List VarId} {vars : List Variable}
    (found : List.Forall₂ (fun id var => s.vars[id]? = some var) args vars) (what : String) (pos : Position) :
    SelectsFirst s what overloads args vars pos ((select what overloads args pos).runFrom s) := by
  rcases select_cases found reachable.orderly inside proper what pos with
    ⟨fault, t, isRan, emitted, kind, all⟩ |
      ⟨before, params, after, scope, u, t, lines, split, all, untouched, emitted, outcome⟩
  · have skipped : IsSkipped fault := by
      rw [IsSkipped, kind]
      split <;> simp
    have fits : overloads.any (fun params => params.length = vars.length) = true ↔
        ∃ params ∈ overloads, params.length = vars.length := by simp
    rw [isRan]
    refine ⟨by rintro _ _ ⟨⟩, ?_, ?_, fun _ _ _ => emitted, ?_⟩
    · constructor
      · rintro ⟨_, ⟨⟩, isKind⟩ params mem same
        rw [kind, if_pos (fits.mpr ⟨params, mem, same⟩)] at isKind
        cases isKind
      · intro none
        refine ⟨fault, rfl, ?_⟩
        rw [kind, if_neg (fun some => ?_)]
        obtain ⟨params, mem, same⟩ := fits.mp some
        exact none params mem same
    · constructor
      · rintro ⟨_, ⟨⟩, isKind⟩
        refine ⟨fits.mp (Decidable.byContradiction (fun none => ?_)), fun params mem same => ?_⟩
        · rw [kind, if_neg none] at isKind
          cases isKind
        · obtain ⟨other, isFault, skipped⟩ := all params mem
          rcases bindFault?_skipped isFault skipped with ⟨_, unlike⟩ | ⟨isKind, _⟩
          · exact absurd same unlike
          · exact ⟨other, isFault, isKind⟩
      · rintro ⟨some, _⟩
        exact ⟨fault, rfl, by rw [kind, if_pos (fits.mpr some)]⟩
    · rintro _ ⟨⟩ other
      exact absurd skipped other
  · have first : overloads[before.length]? = some params := by rw [split]; simp
    have earlier (j : Nat) (small : j < before.length) (other : List Param)
        (isOther : overloads[j]? = some other) (same : other.length = vars.length) :
        ∃ fault, bindFault? what other vars pos = some fault ∧ fault.kind = .cannotCast ∧
          ¬ Converts other vars pos := by
      rw [split, getElem?_append_left small] at isOther
      obtain ⟨fault, isFault, skipped⟩ := all other (mem_of_getElem? isOther)
      rcases bindFault?_skipped isFault skipped with ⟨_, unlike⟩ | ⟨kind, _, pair, mem, bad⟩
      · exact absurd same unlike
      · refine ⟨fault, isFault, kind, fun converts => ?_⟩
        rw [converts pair mem] at bad
        cases bad
    have mem := mem_of_getElem? first
    rcases outcome with ⟨fault, isFault, other, isRan⟩ | ⟨ids, free, isRan, bound, isParam⟩
    · have same : params.length = vars.length := by
        by_contra unlike
        cases isFault.symm.trans (if_pos unlike)
        exact other (.inl rfl)
      rw [isRan]
      refine ⟨by rintro _ _ ⟨⟩, ⟨?_, fun none => absurd same (none params mem)⟩, ⟨?_, ?_⟩, ?_, ?_⟩
      · rintro ⟨_, ⟨⟩, isKind⟩
        exact absurd (.inl isKind) other
      · rintro ⟨_, ⟨⟩, isKind⟩
        exact absurd (.inr isKind) other
      · rintro ⟨_, casts⟩
        obtain ⟨_, given, isKind⟩ := casts params mem same
        cases isFault.symm.trans given
        exact absurd (.inr isKind) other
      · rintro _ ⟨⟩ skipped
        exact absurd skipped other
      · rintro _ ⟨⟩ _
        refine ⟨before.length, params, first, same, isFault, fun j small list isList length => ?_⟩
        obtain ⟨skipped, isSkipped, kind, _⟩ := earlier j small list isList length
        exact ⟨skipped, isSkipped, kind⟩
    · obtain ⟨same, converts⟩ := converts_of_bindFault? free
      rw [isRan]
      refine ⟨?_, ⟨by rintro ⟨_, ⟨⟩, _⟩, fun none => absurd same (none params mem)⟩,
        ⟨by rintro ⟨_, ⟨⟩, _⟩, ?_⟩, by rintro _ ⟨⟩, by rintro _ ⟨⟩⟩
      · rintro _ _ ⟨⟩
        refine ⟨params, scope, u, lines, first, same, converts, fun j small list isList length => ?_,
          untouched, bound, emitted, isParam⟩
        obtain ⟨_, _, _, unlike⟩ := earlier j small list isList length
        exact unlike
      · rintro ⟨_, casts⟩
        obtain ⟨_, given, _⟩ := casts params mem same
        rw [free] at given
        cases given

/-- The number is made a truth value for the first list and then cannot be made a text, so what was
entered for it is dropped and entered again for the second list. -/
theorem select_first_match_retried :
    let opened := (openEntry.runFrom (State.start {} 0)).2
    let declared := ((declareInternal "int" .hidden .ordinary "n" default).runFrom opened).2
    let overloads : List (List Param) :=
      [[⟨"bool", "b"⟩, ⟨"string", "t"⟩], [⟨"bool", "b"⟩, ⟨"int", "k"⟩]]
    let ran := (select "f" overloads [0, 0] default).runFrom declared
    declared.Reachable {} 0 ∧ ran.1 = .ok (1, [3, 4]) ∧ ∃ params lines, overloads[1]? = some params ∧
      ran.2.emitted = declared.emitted ++ lines := by
  intro opened declared overloads ran
  have reachable : declared.Reachable {} 0 :=
    (State.LeadsTo.refl.act .openEntry).act (.declareInternal _ _ _ _ _)
  have proper : ∀ params ∈ overloads, IsProper declared.config params := by
    intro params mem
    rcases mem_pair.mp mem with rfl | rfl
    · exact ⟨by decide, by decide +kernel, by decide⟩
    · exact ⟨by decide, by decide +kernel, by decide⟩
  have isVar : (0 : Nat) < declared.vars.size := by decide +kernel
  have chosen : ran.1 = .ok (1, [3, 4]) := by decide +kernel
  have found := Array.getElem?_eq_getElem isVar
  obtain ⟨params, _, _, lines, isParams, _, _, _, _, _, emitted, _⟩ :=
    (select_first_match reachable (by decide +kernel) proper (.cons found (.cons found .nil)) "f"
      default).chosen 1 [3, 4] chosen
  exact ⟨reachable, chosen, params, lines, isParams, emitted⟩

end Compile

end ScoreScript
