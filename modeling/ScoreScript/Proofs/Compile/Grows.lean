import ScoreScript.Proofs.Compile.Primitives
import ScoreScript.Proofs.Compile.Typing

/-!
# How a state grows

While an expression or a statement is compiled, everything that is there stays there: only the
current scope and scopes made meanwhile get new names and new commands, variables keep what holds
their score, and a call always goes to a unit made meanwhile. `State.Grows` says so of two states.
It is relative to registers that are not to be written and to names that are not to be bound again.
-/

namespace ScoreScript

open List

open ScopeTree

variable {id : Nat} {s t u : State} {var : Variable} {callee : String × String}

namespace Command

def callee? : Command → Option (String × String)
  | call nameSpace path => some (nameSpace, path)
  | guarded _ _ cmd => cmd.callee?
  | _ => none

theorem WellTyped.of_callee {cmd : Command} (calls : cmd.callee? = some callee) : cmd.WellTyped s := by
  induction cmd with
  | call nameSpace path => exact .call
  | guarded holds cond cmd ih => exact .guarded (ih calls)
  | _ => cases calls

/-- The command changes scores only, and none that is guarded. An operation is one that a machine
knows. Only setting a score and a call depend on a condition, the call on whether a score is zero. -/
def Spares (isGuarded : Register → Prop) : Command → Prop
  | set target _ | add target _ | remove target _ => ¬ isGuarded target
  | copy target _ => ¬ isGuarded target
  | operate target op _ => op.kind = .arithmetic ∧ ¬ isGuarded target
  | reset target => ¬ isGuarded target
  | guarded _ _ (set target _) => ¬ isGuarded target
  | guarded _ cond (call ..) => ∃ reg, cond = .inRange reg (.exactly 0)
  | guarded .. => False
  | call .. | showObjective .. => True
  | addObjective .. | removeObjective _ | verbatim _ => False

theorem Spares.unguarded {isGuarded : Register → Prop} {holds : Bool} {cond : Condition}
    {cmd : Command} (spares : (guarded holds cond cmd).Spares isGuarded) : cmd.Spares isGuarded := by
  cases cmd with
  | set target score => exact spares
  | call nameSpace path => trivial
  | _ => exact spares.elim

end Command

/-- What the event enters runs with the function of its scope, and at no other time. -/
def Event.IsActivation : Event → Prop
  | declared _ => True
  | emitted emission => emission.setup = [] ∧ emission.teardown = []

/-- A variable later: it is called the same, and its score is where it was. -/
structure Variable.Keeps (var later : Variable) : Prop where
  type : later.type = var.type
  usage : later.usage = var.usage
  name : later.name = var.name
  scope : later.scope = var.scope
  register : ∀ reg, var.value = .register reg → later.value = .register reg
  score : ∀ score, var.value = .int score → later.value = .int score

theorem Variable.Keeps.refl (var : Variable) : var.Keeps var :=
  ⟨rfl, rfl, rfl, rfl, fun _ => id, fun _ => id⟩

theorem Variable.Keeps.of_value {later : Variable} (type : later.type = var.type)
    (usage : later.usage = var.usage) (name : later.name = var.name) (scope : later.scope = var.scope)
    (value : later.value = var.value) : var.Keeps later :=
  ⟨type, usage, name, scope, fun _ => value.trans, fun _ => value.trans⟩

theorem Variable.Keeps.trans {a b c : Variable} (first : a.Keeps b) (second : b.Keeps c) : a.Keeps c where
  type := second.type.trans first.type
  usage := second.usage.trans first.usage
  name := second.name.trans first.name
  scope := second.scope.trans first.scope
  register := fun reg held => second.register reg (first.register reg held)
  score := fun score held => second.score score (first.score score held)

/-- A scope later: it stands where it stood, and goes on counting. -/
structure Scope.Keeps (scope later : Scope) : Prop where
  name : later.name = scope.name
  parent : later.parent = scope.parent
  isUnit : later.isUnit = scope.isUnit
  drawn : scope.drawn ≤ later.drawn

theorem Scope.Keeps.refl (scope : Scope) : scope.Keeps scope :=
  ⟨rfl, rfl, rfl, Nat.le_refl _⟩

theorem Scope.Keeps.trans {a b c : Scope} (first : a.Keeps b) (second : b.Keeps c) : a.Keeps c :=
  ⟨second.name.trans first.name, second.parent.trans first.parent,
    second.isUnit.trans first.isUnit, Nat.le_trans first.drawn second.drawn⟩

structure Terms where
  isGuarded : Register → Prop
  /-- The generated names that a script may use, which must go on standing for the same variables. -/
  names : List String
  /-- Whether no operation on truth values occurs, so that no script is made up. -/
  plain : Bool
  /-- Whether nothing is declared, so that every name of a script goes on standing for the same
  variable. -/
  still : Bool
  unitless : Bool := false
  /-- Whether commands keep to the types of registers. -/
  typed : Bool := false

def Terms.Guards (terms : Terms) : Prop :=
  terms.typed = true ∨ ∃ reg, terms.isGuarded reg

def Terms.Keeps (terms : Terms) (config : Config) (name : String) : Prop :=
  name ∈ terms.names ∨ (terms.still = true ∧ config.isGenerated name = false)

theorem Terms.not_keeps {terms : Terms} (unnamed : terms.names = []) (changing : terms.still = false)
    (config : Config) (name : String) : ¬ terms.Keeps config name := by
  simp [Terms.Keeps, unnamed, changing]

namespace State

/-- The commands entered so far for when functions run, with the scopes they were entered into. -/
def emissions (s : State) : List (Nat × List Command) :=
  s.scopes.log.filterMap (fun entry =>
    match entry.event with
    | .emitted emission => some (entry.scope, emission.activation)
    | .declared _ => none)

def since (s t : State) : List (Nat × List Command) :=
  t.emissions.drop s.emissions.length

def pathAt (s : State) (scope : Nat) : String :=
  "/".intercalate (s.scopes.segments scope)

def callees (added : List (Nat × List Command)) : List (String × String) :=
  added.flatMap (fun entry => entry.2.filterMap Command.callee?)

/-- The call goes to a unit inside the scope it is made from, which was made after the first `old`
scopes. -/
def CallsUnit (s : State) (old : Nat) (place : Nat) (callee : String × String) : Prop :=
  ∃ (unit : Nat) (scope : Scope), old ≤ unit ∧ s.scopes.scopes[unit]? = some scope ∧
    scope.isUnit = true ∧ scope.parent = some place ∧ callee = (s.config.nameSpace, s.pathAt unit)

structure Emits (terms : Terms) (s t : State) : Prop where
  kept : s.emissions <+: t.emissions
  place : ∀ entry ∈ s.since t, entry.1 = s.current ∨ s.scopes.size ≤ entry.1
  spares : ∀ entry ∈ s.since t, ∀ cmd ∈ entry.2, cmd.Spares terms.isGuarded
  calls : ∀ entry ∈ s.since t, ∀ cmd ∈ entry.2, ∀ callee, cmd.callee? = some callee →
    t.CallsUnit s.scopes.size entry.1 callee
  once : (callees (s.since t)).Nodup
  typed : terms.typed = true → ∀ entry ∈ s.since t, ∀ cmd ∈ entry.2, cmd.WellTyped t
  phases : ∀ entry ∈ t.scopes.log, entry ∈ s.scopes.log ∨ entry.event.IsActivation

def Covers (s t : State) : Prop :=
  ∀ unit ∈ t.units, unit ∈ s.units ∨ (t.config.nameSpace, unit.path) ∈ callees (s.since t)

/-- The state `t` has everything that `s` has, and what it has besides was made in the current scope
or in scopes of its own. -/
structure Grows (terms : Terms) (s t : State) : Prop where
  steps : Steps s t
  current : t.current = s.current
  scopes : ∀ (id : Nat) (scope : Scope), s.scopes.scopes[id]? = some scope →
    ∃ scope', t.scopes.scopes[id]? = some scope' ∧ scope.Keeps scope' ∧ (id ≠ s.current → scope' = scope)
  names : ∀ name, terms.Keeps s.config name → t.scopes.lookup s.current name = s.scopes.lookup s.current name
  vars : ∀ (id : Nat) (var : Variable), s.vars[id]? = some var → ∃ var', t.vars[id]? = some var' ∧ var.Keeps var'
  /-- A new score that is no constant has a register. -/
  allocated : ∀ (id : Nat) (var : Variable), s.vars.size ≤ id → t.vars[id]? = some var →
    (var.type = .int ∨ var.type = .bool) → var.usage ≠ .constant →
    ∃ reg, var.value = .register reg
  units : terms.unitless = true → t.units = s.units
  emits : Emits terms s t

/-! ## Commands entered meanwhile -/

private theorem since_self (s : State) : s.since s = [] := by
  simp [since]

theorem emissions_eq (kept : s.emissions <+: t.emissions) : t.emissions = s.emissions ++ s.since t := by
  obtain ⟨added, appended⟩ := kept
  rw [since, ← appended, drop_left]

theorem since_eq {added : List (Nat × List Command)} (appended : t.emissions = s.emissions ++ added) :
    s.since t = added := by
  rw [since, appended, drop_left]

theorem since_trans (first : s.emissions <+: t.emissions) (second : t.emissions <+: u.emissions) :
    s.since u = s.since t ++ t.since u := by
  refine since_eq ?_
  rw [emissions_eq second, emissions_eq first, append_assoc]

theorem callees_append (left right : List (Nat × List Command)) :
    callees (left ++ right) = callees left ++ callees right := by
  simp [callees]

theorem mem_callees {added : List (Nat × List Command)} : callee ∈ callees added ↔
      ∃ entry ∈ added, ∃ cmd ∈ entry.2, cmd.callee? = some callee := by
  simp only [callees, mem_flatMap, mem_filterMap]

/-! ## Growing in steps -/

namespace Grows

variable {terms : Terms} {s t u : State}

section

variable (grows : Grows terms s t)
include grows

theorem config : t.config = s.config :=
  Steps.config grows.steps

theorem sound (usable : s.config.Usable) (sound : s.Sound) : t.Sound :=
  Steps.sound grows.steps usable sound

theorem within : s.scopes.Within t.scopes := by
  intro id scope found
  obtain ⟨scope', there, keeps, _⟩ := grows.scopes id scope found
  exact ⟨scope', there, keeps.name, keeps.parent⟩

theorem size_le : s.scopes.size ≤ t.scopes.size :=
  grows.within.size_le

theorem segments_eq (usable : s.config.Usable) (sound : s.Sound) (inside : id < s.scopes.size) :
    t.scopes.segments id = s.scopes.segments id :=
  grows.within.segments_eq sound.rooted (grows.sound usable sound).rooted inside

theorem pathAt_eq (usable : s.config.Usable) (sound : s.Sound) (inside : id < s.scopes.size) :
    t.pathAt id = s.pathAt id := by
  rw [pathAt, pathAt, grows.segments_eq usable sound inside]

theorem registerAt_eq (usable : s.config.Usable) (sound : s.Sound) {scope : Nat} (inside : scope < s.scopes.size)
    (name : String) : t.registerAt scope name = s.registerAt scope name :=
  State.registerAt_eq grows.config (grows.segments_eq usable sound inside) name

theorem serves (usable : s.config.Usable) (sound : s.Sound) {reg : Register}
    (serves : s.Serves reg) : t.Serves reg := by
  refine serves.of_eq grows.config (fun id var found => ?_)
  obtain ⟨later, there, keeps⟩ := grows.vars id var found
  refine ⟨later, there, ?_⟩
  rw [keeps.scope, keeps.name, grows.registerAt_eq usable sound (sound.scopeOf found)]

theorem keepsTypes (usable : s.config.Usable) (sound : s.Sound) : KeepsTypes s t := by
  apply KeepsTypes.of_vars grows.config
  intro id var found
  obtain ⟨later, there, keeps⟩ := grows.vars id var found
  refine ⟨later, there, keeps.type, ?_, fun _ => keeps.register⟩
  rw [keeps.scope, keeps.name]
  exact grows.registerAt_eq usable sound (sound.scopeOf found) var.name

private theorem callsUnit (usable : s.config.Usable) (sound : s.Sound) {old place : Nat}
    (calls : s.CallsUnit old place callee) : t.CallsUnit old place callee := by
  obtain ⟨unit, scope, later, found, isUnit, parent, called⟩ := calls
  obtain ⟨scope', there, keeps, _⟩ := grows.scopes unit scope found
  refine ⟨unit, scope', later, there, keeps.isUnit.trans isUnit, keeps.parent.trans parent, ?_⟩
  rw [called, grows.config, grows.pathAt_eq usable sound (lt_size_of_getElem? found)]

end

private theorem allocated_of_size (size : t.vars.size ≤ s.vars.size) (id : Nat) (var : Variable)
    (new : s.vars.size ≤ id) (found : t.vars[id]? = some var) (_ : var.type = .int ∨ var.type = .bool)
    (_ : var.usage ≠ .constant) : ∃ reg, var.value = .register reg := by
  have inside := (Array.getElem?_eq_some_iff.mp found).1
  exact absurd (Nat.le_trans size new) (Nat.not_le_of_lt inside)

theorem refl (terms : Terms) (s : State) : Grows terms s s where
  steps := .refl
  current := rfl
  scopes := fun _ scope found => ⟨scope, found, .refl scope, fun _ => rfl⟩
  names := fun _ _ => rfl
  vars := fun _ var found => ⟨var, found, .refl var⟩
  allocated := allocated_of_size (Nat.le_refl _)
  units := fun _ => rfl
  emits := by
    constructor <;> simp +contextual [since_self, callees]

end Grows

theorem CallsUnit.congr {old place : Nat} (calls : s.CallsUnit old place callee) (config : t.config = s.config)
    (scopes : t.scopes.scopes = s.scopes.scopes) : t.CallsUnit old place callee := by
  obtain ⟨unit, scope, later, found, isUnit, parent, called⟩ := calls
  refine ⟨unit, scope, later, scopes ▸ found, isUnit, parent, ?_⟩
  rw [called, config, pathAt, pathAt, segments_congr scopes]

variable {terms : Terms}

theorem Grows.once_append (grows : Grows terms t u) (usable : t.config.Usable) (sound : t.Sound)
    {left right : List (Nat × List Command)} (leftOnce : (callees left).Nodup) (rightOnce : (callees right).Nodup)
    (before : ∀ callee ∈ callees left, ∃ old place, t.CallsUnit old place callee)
    (after : ∀ callee ∈ callees right, ∃ place, u.CallsUnit t.scopes.size place callee) :
    (callees (left ++ right)).Nodup := by
  rw [callees_append, nodup_append]
  refine ⟨leftOnce, rightOnce, ?_⟩
  intro callee isLeft other isRight
  obtain ⟨_, _, unit, scope, _, found, _, parent, rfl⟩ := before callee isLeft
  obtain ⟨_, unit', scope', later, found', _, _, rfl⟩ := after other isRight
  have inside := lt_size_of_getElem? found
  have positive : 0 < unit := Nat.zero_lt_of_lt (sound.rooted.lt_of_parent found parent)
  rw [← grows.pathAt_eq usable sound inside]
  intro same
  have equal := (grows.sound usable sound).path_injective (grows.config ▸ usable)
    (Nat.lt_of_lt_of_le inside grows.size_le) (lt_size_of_getElem? found') positive
    (by omega) (Prod.mk.inj same).2
  omega

/-- What happens next, in the same scope or in one that was made meanwhile, happens to the state as a whole. -/
theorem Grows.inside {inner : Terms} (grows : Grows terms s t) (usable : s.config.Usable)
    (sound : s.Sound) {scope : Nat} (place : s.scopes.size ≤ scope ∨ scope = t.current ∧ inner = terms)
    (there : scope < t.scopes.size)
    (within : Grows inner { t with current := scope } u) (same : inner.isGuarded = terms.isGuarded)
    (sameTyped : inner.typed = terms.typed)
    (unitless : terms.unitless = true → inner.unitless = true) :
    Grows terms s { u with current := t.current } := by
  have usable' : t.config.Usable := grows.config ▸ usable
  have sound' := grows.sound usable sound
  have moved : ({ t with current := scope } : State).Sound := sound'.move there
  have inside : t.current < u.scopes.size :=
    Nat.lt_of_lt_of_le sound'.current within.size_le
  have apart : ∀ {id : Nat}, id < s.scopes.size → id ≠ s.current → id ≠ scope := by
    rintro id below other rfl
    rcases place with new | ⟨here, _⟩
    · exact absurd below (Nat.not_lt_of_le new)
    · exact other (here.trans grows.current)
  have kept : s.emissions <+: u.emissions := grows.emits.kept.trans within.emits.kept
  have since : s.since u = s.since t ++ t.since u := since_trans grows.emits.kept within.emits.kept
  have sameSince : t.since u = State.since { t with current := scope } u := rfl
  have callsUnit : ∀ {old place : Nat} {callee : String × String},
      t.CallsUnit old place callee → u.CallsUnit old place callee :=
    fun calls => within.callsUnit usable' moved calls
  refine
    { steps := ((grows.steps.tail (.move there)).trans within.steps).tail (.move inside)
      current := grows.current
      scopes := ?scopes, names := ?names, vars := ?vars, allocated := ?allocated
      units := fun none => (within.units (unitless none)).trans (grows.units none)
      emits := ⟨kept, ?place, ?spares, ?calls, ?once, ?typed, ?phases⟩ }
  case scopes =>
    intro id before found
    obtain ⟨middle, isMiddle, keeps, rest⟩ := grows.scopes id before found
    obtain ⟨last, isLast, keeps', rest'⟩ := within.scopes id middle isMiddle
    refine ⟨last, isLast, keeps.trans keeps', ?_⟩
    intro other
    rw [rest' (apart (lt_size_of_getElem? found) other), rest other]
  case names =>
    intro name mem
    rw [← grows.names name mem]
    rcases place with new | ⟨here, rfl⟩
    · obtain ⟨before, found⟩ := exists_of_lt_size sound.current
      obtain ⟨middle, isMiddle, _⟩ := grows.scopes _ _ found
      obtain ⟨last, isLast, _, rest⟩ := within.scopes _ _ isMiddle
      simp only [ScopeTree.lookup]
      rw [isLast, isMiddle, rest (Nat.ne_of_lt (Nat.lt_of_lt_of_le sound.current new))]
    · have kept := within.names name (grows.config ▸ mem)
      rwa [here, grows.current] at kept
  case vars =>
    intro id var found
    obtain ⟨middle, isMiddle, keeps⟩ := grows.vars id var found
    obtain ⟨last, isLast, keeps'⟩ := within.vars id middle isMiddle
    exact ⟨last, isLast, keeps.trans keeps'⟩
  case allocated =>
    intro id var later found type usage
    rcases Nat.lt_or_ge id t.vars.size with before | after
    · have isMiddle := Array.getElem?_eq_getElem before
      obtain ⟨last, isLast, keeps⟩ := within.vars id _ isMiddle
      rw [found] at isLast
      cases isLast
      obtain ⟨reg, held⟩ :=
        grows.allocated id _ later isMiddle (keeps.type ▸ type) (keeps.usage ▸ usage)
      exact ⟨reg, keeps.register reg held⟩
    · exact within.allocated id var after found type usage
  case place =>
    intro entry mem
    rcases mem_append.mp (since ▸ mem) with before | after
    · exact grows.emits.place entry before
    · rcases within.emits.place entry after with here | later
      · refine place.symm.imp (fun current => ?_) (fun new => here ▸ new)
        exact here.trans (current.1.trans grows.current)
      · exact .inr (Nat.le_trans grows.size_le later)
  case spares =>
    intro entry mem
    rcases mem_append.mp (since ▸ mem) with before | after
    · exact grows.emits.spares entry before
    · exact same ▸ within.emits.spares entry after
  case calls =>
    intro entry mem cmd isCommand callee isCallee
    rcases mem_append.mp (since ▸ mem) with before | after
    · exact callsUnit (grows.emits.calls entry before cmd isCommand callee isCallee)
    · obtain ⟨unit, unitScope, later, rest⟩ :=
        within.emits.calls entry after cmd isCommand callee isCallee
      exact ⟨unit, unitScope, Nat.le_trans grows.size_le later, rest⟩
  case once =>
    show (callees (s.since u)).Nodup
    rw [since]
    refine within.once_append usable' moved grows.emits.once within.emits.once ?_ ?_
    · intro callee isCallee
      obtain ⟨entry, mem, cmd, isCommand, called⟩ := mem_callees.mp isCallee
      exact ⟨_, _, grows.emits.calls entry mem cmd isCommand callee called⟩
    · intro callee isCallee
      obtain ⟨entry, mem, cmd, isCommand, called⟩ := mem_callees.mp isCallee
      exact ⟨_, within.emits.calls entry mem cmd isCommand callee called⟩
  case typed =>
    intro isTyped entry mem cmd isCommand
    have enters : KeepsTypes t { t with current := scope } := .of_eq rfl rfl rfl
    have leaves : KeepsTypes u { u with current := t.current } := .of_eq rfl rfl rfl
    rcases mem_append.mp (since ▸ mem) with before | after
    · have entered := (grows.emits.typed isTyped entry before cmd isCommand).keeps enters
      exact (entered.keeps (within.keepsTypes usable' moved)).keeps leaves
    · exact (within.emits.typed (sameTyped.trans isTyped) entry after cmd isCommand).keeps leaves
  case phases =>
    intro entry mem
    exact (within.emits.phases entry mem).elim (grows.emits.phases entry) .inr

theorem Grows.trans (first : Grows terms s t) (second : Grows terms t u) (usable : s.config.Usable)
    (sound : s.Sound) : Grows terms s u := by
  have there := (first.sound usable sound).current
  have both := first.inside usable sound (.inr ⟨rfl, rfl⟩) there second rfl rfl id
  rwa [← second.current] at both

/-! ## Calls of the units made meanwhile -/

theorem Covers.of_units (same : t.units = s.units) : s.Covers t :=
  fun _ mem => .inl (same ▸ mem)

theorem Covers.trans (first : s.Covers t) (second : t.Covers u) (kept : s.emissions <+: t.emissions)
    (kept' : t.emissions <+: u.emissions) (config : u.config = t.config) : s.Covers u := by
  intro unit mem
  rw [since_trans kept kept', callees_append]
  rcases second unit mem with old | called
  · refine (first unit old).imp_right (fun called => mem_append_left _ ?_)
    rw [config]
    exact called
  · exact .inr (mem_append_right _ called)

/-! ## Single changes -/

private theorem emits_of_eq (same : t.emissions = s.emissions)
    (phases : ∀ entry ∈ t.scopes.log, entry ∈ s.scopes.log ∨ entry.event.IsActivation) : Emits terms s t := by
  have none : s.since t = [] := by simp [since, same]
  refine ⟨?_, ?_, ?_, ?_, ?_, ?_, phases⟩ <;> simp [none, same, callees]

theorem emits_of_log (same : t.scopes.log = s.scopes.log) : Emits terms s t :=
  emits_of_eq (by rw [emissions, emissions, same]) (fun _ mem => .inl (same ▸ mem))

private theorem emits_enterVar (log : t.scopes.log = (s.enterVar var).scopes.log) : Emits terms s t := by
  have entered : t.scopes.log = s.scopes.log ++ [⟨s.scopes.nextSeq, s.current, .declared s.vars.size⟩] := log
  refine emits_of_eq (by simp [emissions, entered]) ?_
  intro entry mem
  rw [entered] at mem
  refine (mem_append.mp mem).imp_right (fun new => ?_)
  rw [mem_singleton.mp new]
  trivial

namespace Grows

variable {terms : Terms} {s t : State}

private theorem onVars (steps : Steps s t) (scopes : t.scopes = s.scopes) (current : t.current = s.current)
    (size : t.vars.size = s.vars.size) (units : t.units = s.units)
    (vars : ∀ (id : Nat) (var : Variable), s.vars[id]? = some var →
      ∃ var', t.vars[id]? = some var' ∧ var.Keeps var') : Grows terms s t where
  steps := steps
  current := current
  scopes := by
    intro id scope found
    rw [scopes]
    exact ⟨scope, found, .refl scope, fun _ => rfl⟩
  names := by
    intro name _
    rw [scopes]
  vars := vars
  allocated := allocated_of_size (Nat.le_of_eq size)
  units := fun _ => units
  emits := emits_of_log (by rw [scopes])

theorem aside (steps : Steps s t) (scopes : t.scopes = s.scopes) (current : t.current = s.current)
    (vars : t.vars = s.vars) (units : t.units = s.units) : Grows terms s t :=
  onVars steps scopes current (by rw [vars]) units (fun _ var found => ⟨var, vars ▸ found, .refl var⟩)

theorem onVar {change : Variable → Variable} (step : Step s (s.onVar id change))
    (kept : ∀ var, s.vars[id]? = some var → var.Keeps (change var)) : Grows terms s (s.onVar id change) := by
  refine onVars (.single step) rfl rfl Array.size_modify rfl ?_
  intro i var found
  rw [vars_onVar]
  split
  · next here =>
      subst here
      exact ⟨change var, by rw [found]; rfl, kept var found⟩
  · exact ⟨var, found, .refl var⟩

theorem draw : Grows terms s s.draw where
  steps := .single .draw
  current := rfl
  scopes := by
    intro id scope found
    by_cases here : s.current = id
    · refine ⟨{ scope with drawn := scope.drawn + 1 }, by simp [State.draw, here, found],
        ⟨rfl, rfl, rfl, Nat.le_succ _⟩, ?_⟩
      intro other
      exact absurd here.symm other
    · exact ⟨scope, by simp [State.draw, here, found], .refl scope, fun _ => rfl⟩
  names := fun name _ => lookup_modifyScope _ _ _
    (fun scope => { scope with drawn := scope.drawn + 1 }) name (fun _ => rfl)
  vars := fun _ var found => ⟨var, found, .refl var⟩
  allocated := allocated_of_size (Nat.le_refl _)
  units := fun _ => rfl
  emits := emits_of_log rfl

theorem addScopes (steps : Steps s t) (sound : s.Sound) (current : t.current = s.current)
    (log : t.scopes.log = s.scopes.log) (units : t.units = s.units) (size : t.vars.size = s.vars.size)
    (vars : ∀ (id : Nat) (var : Variable), s.vars[id]? = some var → ∃ var', t.vars[id]? = some var' ∧ var.Keeps var')
    (scopes : ∀ (id : Nat) (scope : Scope), s.scopes.scopes[id]? = some scope →
      t.scopes.scopes[id]? = some scope) : Grows terms s t where
  steps := steps
  current := current
  scopes := fun id scope found => ⟨scope, scopes id scope found, .refl scope, fun _ => rfl⟩
  names := by
    intro name _
    obtain ⟨scope, found⟩ := exists_of_lt_size sound.current
    rw [ScopeTree.lookup, ScopeTree.lookup, found, scopes _ _ found]
  vars := vars
  allocated := allocated_of_size (Nat.le_of_eq size)
  units := fun _ => units
  emits := emits_of_log log

theorem nested (sound : s.Sound) (usable : s.config.Usable) {scope : Scope} (below : 0 < s.current)
    (found : s.scopes.scopes[s.current]? = some scope) : Grows terms s (Compile.nested s scope) := by
  have drawn := sound.draw
  have made : Grows terms s.draw (Compile.nested s scope) := by
    refine addScopes (.single (.block below (Compile.scope_draw found) (Nat.lt_succ_self _)
      (sound.unused_draw below found))) drawn rfl rfl rfl rfl
      (fun _ var found => ⟨var, found, .refl var⟩) ?_
    intro id old there
    exact (ScopeTree.getElem?_addScope_of_lt _ (lt_size_of_getElem? there)).trans there
  exact draw.trans made usable sound

theorem opened (sound : s.Sound) (usable : s.config.Usable) (making : terms.unitless = false)
    {scope : Scope} (below : 0 < s.current) (found : s.scopes.scopes[s.current]? = some scope) (pos : Position) :
    Grows terms s (Compile.opened s scope pos) := by
  have grown : Grows terms s (Compile.nested s scope) := nested sound usable below found
  have other : ∀ id, id < s.scopes.size → (Compile.opened s scope pos).scopes.scopes[id]? =
        (Compile.nested s scope).scopes.scopes[id]? := by
    intro id inside
    have distinct : s.scopes.size ≠ id := Nat.ne_of_gt inside
    simp [Compile.opened, State.addUnit, distinct]
  refine
    { steps := Compile.steps_opened sound below found pos
      current := rfl, scopes := ?_, names := ?_, vars := grown.vars
      allocated := allocated_of_size (Nat.le_refl _), units := by simp [making]
      emits := emits_of_log rfl }
  · intro id old there
    rw [other id (lt_size_of_getElem? there)]
    exact grown.scopes id old there
  · intro name mem
    rw [ScopeTree.lookup, other _ sound.current]
    exact grown.names name mem

theorem enterVar (sound : s.Sound) {type : ValueType} {access : Access} {usage : Usage}
    {name : String} {pos : Position}
    (step : Step s (s.enterVar { type, access, usage, name, scope := s.current, position := pos }))
    (unnamed : ¬ terms.Keeps s.config name) (held : type = .int ∨ type = .bool → usage = .constant) :
    Grows terms s (s.enterVar { type, access, usage, name, scope := s.current, position := pos }) where
  steps := .single step
  current := rfl
  scopes := by
    intro id scope found
    obtain ⟨scope', there, called, parent, drawn, isUnit, same⟩ := scope_enterVar
      { type, access, usage, name, scope := s.current, position := pos } found
    exact ⟨scope', there, ⟨called, parent, isUnit, Nat.le_of_eq drawn.symm⟩, same⟩
  names := by
    intro other mem
    have distinct : other ≠ name := fun same => unnamed (same ▸ mem)
    simp [lookup_enterVar sound.current, distinct]
  vars := fun _ var found => ⟨var, var_enterVar_old _ found, .refl var⟩
  allocated := by
    intro id var new found isScore
    rcases var_enterVar_elim found with old | ⟨_, rfl⟩
    · have := (Array.getElem?_eq_some_iff.mp old).1
      omega
    · exact fun changing => absurd (held isScore) changing
  units := fun _ => rfl
  emits := emits_enterVar rfl

end Grows

theorem registerAt_enterVar (sound : s.Sound) (usable : s.config.Usable)
    (step : Step s (s.enterVar var)) {scope : Nat} (inside : scope < s.scopes.size) (name : String) :
    (s.enterVar var).registerAt scope name = s.registerAt scope name := by
  refine State.registerAt_eq (s := s) (t := s.enterVar var) rfl ?_ name
  refine ScopeTree.Within.segments_eq ?_ sound.rooted (step.sound usable sound).rooted inside
  intro i old found
  obtain ⟨scope, there, called, parent, _⟩ := scope_enterVar var found
  exact ⟨scope, there, called, parent⟩

/-- The state after a score was entered into the current scope and got its register. -/
def enterScore (s : State) (var : Variable) : State :=
  (s.enterVar var).onVar s.vars.size
    (fun entered => { entered with value := .register (s.registerAt var.scope var.name) })

private theorem var_enterScore_old (var : Variable) {i : Nat} {other : Variable}
    (found : s.vars[i]? = some other) : (s.enterScore var).vars[i]? = some other := by
  have inside := (Array.getElem?_eq_some_iff.mp found).1
  rw [enterScore, vars_onVar, if_neg (Nat.ne_of_gt inside), var_enterVar_old var found]

theorem var_enterScore_new (s : State) (var : Variable) : (s.enterScore var).vars[s.vars.size]? =
      some { var with value := .register (s.registerAt var.scope var.name) } := by
  rw [enterScore, vars_onVar, if_pos rfl, var_enterVar_new]
  rfl

private theorem var_enterScore_elim {i : Nat} {other : Variable} (found : (s.enterScore var).vars[i]? = some other) :
    s.vars[i]? = some other ∨
      i = s.vars.size ∧ other = { var with value := .register (s.registerAt var.scope var.name) } := by
  obtain ⟨old, there, changed⟩ := vars_onVar_elim found
  rcases var_enterVar_elim there with wasThere | ⟨here, rfl⟩
  · rcases changed with ⟨_, rfl⟩ | ⟨same, _⟩
    · exact .inl wasThere
    · have := (Array.getElem?_eq_some_iff.mp wasThere).1
      omega
  · rcases changed with ⟨distinct, _⟩ | ⟨_, rfl⟩
    · exact absurd here.symm distinct
    · exact .inr ⟨here, rfl⟩

theorem Grows.enterScore (sound : s.Sound) (usable : s.config.Usable) {type : ValueType}
    {access : Access} {usage : Usage} {name : String} {pos : Position}
    (step : Step s (s.enterVar { type, access, usage, name, scope := s.current, position := pos }))
    (unnamed : ¬ terms.Keeps s.config name) (isScore : type = .int ∨ type = .bool)
    (changing : usage ≠ .constant) :
    Grows terms s (s.enterScore { type, access, usage, name, scope := s.current, position := pos }) := by
  let var : Variable := { type, access, usage, name, scope := s.current, position := pos }
  have reg := registerAt_enterVar sound usable step sound.current name
  have fits : (s.enterVar var).Fits { var with value := .register (s.registerAt s.current name) } :=
    ⟨changing, isScore, .inl reg.symm⟩
  exact
    { steps := (Relation.ReflTransGen.single step).tail
        (.value (var_enterVar_new s var) (fun constant => absurd constant changing) fits)
      current := rfl
      scopes := by
        intro id scope found
        obtain ⟨scope', there, called, parent, drawn, isUnit, same⟩ := scope_enterVar var found
        exact ⟨scope', there, ⟨called, parent, isUnit, Nat.le_of_eq drawn.symm⟩, same⟩
      names := by
        intro other mem
        have distinct : other ≠ name := fun same => unnamed (same ▸ mem)
        refine (lookup_enterVar sound.current var s.current other).trans ?_
        simp [var, distinct]
      vars := fun _ var found => ⟨var, var_enterScore_old _ found, .refl var⟩
      allocated := by
        intro id other new found _ _
        rcases var_enterScore_elim found with old | ⟨_, rfl⟩
        · have := (Array.getElem?_eq_some_iff.mp old).1
          omega
        · exact ⟨_, rfl⟩
      units := fun _ => rfl
      emits := emits_enterVar rfl }

/-! ## Changes that need their history -/

theorem Grows.moveNew (grows : Grows terms s t) {reg : Register} {owner : Variable}
    (new : s.vars.size ≤ id) (isOwner : t.vars[id]? = some owner) (isInt : owner.type = .int)
    (step : Step t (t.onVar id (fun var => { var with value := .register reg }))) :
    Grows terms s (t.onVar id (fun var => { var with value := .register reg })) where
  steps := grows.steps.tail step
  current := grows.current
  scopes := grows.scopes
  names := grows.names
  vars := by
    intro i var found
    obtain ⟨var', there, keeps⟩ := grows.vars i var found
    have inside := (Array.getElem?_eq_some_iff.mp found).1
    refine ⟨var', ?_, keeps⟩
    rw [vars_onVar, if_neg (by omega), there]
  allocated := by
    intro i var later found type usage
    obtain ⟨old, there, ⟨_, rfl⟩ | ⟨_, rfl⟩⟩ := vars_onVar_elim found
    · exact grows.allocated i var later there type usage
    · exact ⟨reg, rfl⟩
  units := grows.units
  emits := by
    refine { grows.emits with typed := ?_ }
    intro isTyped entry mem cmd isCommand
    refine (grows.emits.typed isTyped entry mem cmd isCommand).keeps (.of_vars rfl ?_)
    intro i var found
    rw [vars_onVar, found]
    split
    · next here =>
        subst here
        rw [isOwner] at found
        cases found
        refine ⟨_, rfl, rfl, rfl, fun isBool => ?_⟩
        rw [isInt] at isBool
        cases isBool
    · exact ⟨var, rfl, rfl, rfl, fun _ _ held => held⟩

theorem emissions_log (s : State) (emission : Emission) :
    (s.log emission).emissions = s.emissions ++ [(s.current, emission.activation)] := by
  simp [emissions, State.log, ScopeTree.enter]

theorem since_log (grows : Grows terms s t) (emission : Emission) :
    s.since (t.log emission) = s.since t ++ [(s.current, emission.activation)] := by
  refine since_eq ?_
  rw [emissions_log, emissions_eq grows.emits.kept, append_assoc, grows.current]

/-- Commands are entered into the current scope; a call among them goes to a unit that was made
meanwhile and that nothing calls yet. -/
theorem Grows.log {terms : Terms} {s t : State} (grows : Grows terms s t) {scope : Scope}
    (found : t.scopes.scopes[t.current]? = some scope) (unit : scope.isUnit = true)
    {cmds : List Command} (spares : ∀ cmd ∈ cmds, cmd.Spares terms.isGuarded)
    (calls : ∀ cmd ∈ cmds, ∀ callee, cmd.callee? = some callee →
      t.CallsUnit s.scopes.size s.current callee ∧ callee ∉ callees (s.since t))
    (once : (cmds.filterMap Command.callee?).Nodup)
    (typed : terms.typed = true → ∀ cmd ∈ cmds, cmd.WellTyped t) :
    Grows terms s (t.log { activation := cmds }) where
  steps := grows.steps.tail (.log found unit)
  current := grows.current
  scopes := grows.scopes
  names := grows.names
  vars := grows.vars
  allocated := grows.allocated
  units := grows.units
  emits := by
    have since := since_log grows { activation := cmds }
    refine ⟨?kept, ?place, ?spares, ?calls, ?once, ?typed, ?phases⟩
    case kept =>
      rw [emissions_log]
      exact grows.emits.kept.trans (prefix_append _ _)
    case place =>
      intro entry mem
      rw [since] at mem
      rcases mem_append.mp mem with old | new
      · exact grows.emits.place entry old
      · rw [mem_singleton.mp new]
        exact .inl rfl
    case spares =>
      intro entry mem
      rw [since] at mem
      rcases mem_append.mp mem with old | new
      · exact grows.emits.spares entry old
      · rw [mem_singleton.mp new]
        exact spares
    case calls =>
      intro entry mem
      rw [since] at mem
      rcases mem_append.mp mem with old | new
      · exact fun cmd isCommand callee isCallee =>
          (grows.emits.calls entry old cmd isCommand callee isCallee).congr rfl rfl
      · rw [mem_singleton.mp new]
        exact fun cmd isCommand callee isCallee =>
          (calls cmd isCommand callee isCallee).1.congr rfl rfl
    case once =>
      rw [since, callees_append, nodup_append]
      refine ⟨grows.emits.once, by simpa [callees] using once, ?_⟩
      intro callee isOld other isNew same
      obtain ⟨entry, mem, cmd, isCommand, isCallee⟩ := mem_callees.mp isNew
      rw [mem_singleton.mp mem] at isCommand
      exact (calls cmd isCommand other isCallee).2 (same ▸ isOld)
    case typed =>
      intro isTyped entry mem cmd isCommand
      have keeps : KeepsTypes t (t.log { activation := cmds }) := .of_eq rfl rfl rfl
      rw [since] at mem
      rcases mem_append.mp mem with old | new
      · exact (grows.emits.typed isTyped entry old cmd isCommand).keeps keeps
      · rw [mem_singleton.mp new] at isCommand
        exact (typed isTyped cmd isCommand).keeps keeps
    case phases =>
      intro entry mem
      rcases mem_append.mp mem with old | new
      · exact grows.emits.phases entry old
      · rw [mem_singleton.mp new]
        exact .inr ⟨rfl, rfl⟩

theorem Grows.emit {scope : Scope} (found : s.scopes.scopes[s.current]? = some scope) (unit : scope.isUnit = true)
    {cmds : List Command} (spares : ∀ cmd ∈ cmds, cmd.Spares terms.isGuarded)
    (callFree : ∀ cmd ∈ cmds, cmd.callee? = none)
    (typed : terms.typed = true → ∀ cmd ∈ cmds, cmd.WellTyped s) :
    Grows terms s (s.log { activation := cmds }) := by
  refine (Grows.refl terms s).log found unit spares ?_ ?_ typed
  · intro cmd mem callee isCallee
    rw [callFree cmd mem] at isCallee
    cases isCallee
  · have none : cmds.filterMap Command.callee? = [] :=
      filterMap_eq_nil_iff.mpr callFree
    simp [none]

end State

end ScoreScript
