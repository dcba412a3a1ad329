import Mathlib.Logic.Relation
import ScoreScript.Compile.Storage
import ScoreScript.Proofs.ScopeTree

/-!
# Sound states

What holds of the scopes, variables and objectives of a compilation between any two of its steps. A
`Step` is one change of the state, with what the compiler knows when it makes it; a state is sound
when it is reached from the start by steps.
-/

namespace ScoreScript

open ScopeTree

variable {i id : Nat} {scope : Scope} {s t : State} {var : Variable}

namespace State

def registerAt (s : State) (scope : Nat) (name : String) : Register :=
  let path := "/".intercalate (s.scopes.segments scope)
  let dotted := String.ofList (path.toList.map (fun c => if c = '/' then '.' else c))
  ⟨if path.isEmpty then name else dotted ++ "." ++ name, s.config.registerObjective⟩

/-- The register is of another objective, or that of a variable. -/
def Serves (s : State) (register : Register) : Prop :=
  register.objective ≠ s.config.registerObjective ∨
    ∃ (id : Nat) (var : Variable), s.vars[id]? = some var ∧ register = s.registerAt var.scope var.name

/-- What a variable may hold: a score is a constant, or lives in the register of its variable; only
a result may live in another one. -/
def Fits (s : State) (var : Variable) : Prop :=
  match var.value with
  | .unset => True
  | .int score =>
    var.usage = .constant ∧ (var.type = .int ∨ var.type = .bool ∧ (score = 0 ∨ score = 1))
  | .text _ => var.type = .string
  | .register register =>
    var.usage ≠ .constant ∧ (var.type = .int ∨ var.type = .bool) ∧ (register = s.registerAt var.scope var.name ∨
        var.type = .int ∧ var.usage = .result ∧ s.Serves register)
  | .objective id _ =>
    var.type = .objective ∧ id ∈ s.objectives ∧ id ≠ s.config.registerObjective

/-- No scope inside the current one has the name, and no variable of it that has a register or
members. -/
structure Unused (s : State) (name : String) : Prop where
  scopes : ∀ (id : Nat) (scope : Scope), s.scopes.scopes[id]? = some scope →
    scope.parent = some s.current → scope.name ≠ name
  vars : ∀ (id : Nat) (var : Variable), s.vars[id]? = some var → var.scope = s.current →
    var.type ≠ .string → var.name ≠ name

/-- The scope with a number was made for the members of a variable. -/
def IsMemberScope (s : State) (id : Nat) (scope : Scope) : Prop :=
  ∃ (owner : Nat) (var : Variable), s.vars[owner]? = some var ∧ var.inner = some id ∧
    scope.parent = some var.scope ∧ scope.name = var.name

/-- The scope with a number was made under a generated name, which no variable beside it has that
could have a register or members. -/
def IsBlockScope (s : State) (scope : Scope) (outer : Nat) (outerScope : Scope) : Prop :=
  (∃ n, n < outerScope.drawn ∧ scope.name = s.config.generatedName n) ∧
    ∀ (id : Nat) (var : Variable), s.vars[id]? = some var → var.scope = outer →
      var.type ≠ .string → var.name ≠ scope.name

def IsField (vars : Array Variable) (id : Nat) : Prop :=
  ∃ var, vars[id]? = some var ∧ var.type = .string ∧ var.usage ≠ .constant

/-- What an entry of the log refers to is there. Commands are entered into the root and into units
only. -/
structure Recorded (tree : ScopeTree) (vars : Nat) (entry : Entry) : Prop where
  place : ∃ scope, tree.scopes[entry.scope]? = some scope ∧
    (entry.event.isEmission = true → entry.scope = 0 ∨ scope.isUnit = true)
  declared : ∀ var : Nat, entry.event = .declared var → var < vars

/-- What holds between the steps of a compilation. -/
structure Sound (s : State) : Prop where
  rooted : s.scopes.Rooted
  current : s.current < s.scopes.size
  entry : ∀ (id : Nat) (scope : Scope), s.scopes.scopes[id]? = some scope →
    scope.parent = some 0 → id = 1 ∧ scope.name = s.config.entry
  segment : ∀ (id outer : Nat) (scope : Scope), s.scopes.scopes[id]? = some scope →
    scope.parent = some outer → 0 < outer → IsSegment scope.name
  siblings : ∀ (a b : Nat) (left right : Scope), s.scopes.scopes[a]? = some left →
    s.scopes.scopes[b]? = some right → left.parent = right.parent → left.name = right.name → a = b
  child : ∀ (id outer : Nat) (scope outerScope : Scope), s.scopes.scopes[id]? = some scope →
    scope.parent = some outer → 0 < outer → s.scopes.scopes[outer]? = some outerScope →
    s.IsMemberScope id scope ∨ s.IsBlockScope scope outer outerScope
  /-- A name of a scope is the name of a variable of that scope. -/
  bound : ∀ (id var : Nat) (name : String), s.scopes.lookup id name = some var →
    ∃ owner, s.vars[var]? = some owner ∧ owner.scope = id ∧ owner.name = name
  declared : ∀ (id : Nat) (var : Variable), s.vars[id]? = some var →
    0 < var.scope ∧ IsSegment var.name ∧ s.scopes.lookup var.scope var.name = some id
  drawn : ∀ (id : Nat) (var : Variable) (scope : Scope), s.vars[id]? = some var →
    var.type ≠ .string → s.scopes.scopes[var.scope]? = some scope →
    s.config.isGenerated var.name = true → ∃ n, n < scope.drawn ∧ var.name = s.config.generatedName n
  inner : ∀ (id inner : Nat) (var : Variable), s.vars[id]? = some var → var.inner = some inner →
    var.type = .objective ∧ ∃ scope, s.scopes.scopes[inner]? = some scope ∧
      scope.parent = some var.scope ∧ scope.name = var.name
  fits : ∀ (id : Nat) (var : Variable), s.vars[id]? = some var → s.Fits var
  result : ∀ (id : Nat) (var : Variable), s.vars[id]? = some var → var.usage = .result →
    s.config.isGenerated var.name = true
  members : ∀ (id : Nat) (var : Variable), s.vars[id]? = some var → var.members = [] ∨
    ∃ field, var.members = Compile.objectiveMembers field ∧ IsField s.vars field
  log : ∀ entry ∈ s.scopes.log, Recorded s.scopes s.vars.size entry
  /-- The output units are the scopes that are marked as such, each once. -/
  units : ∀ unit ∈ s.units, ∃ scope, s.scopes.scopes[unit.scope]? = some scope ∧
    scope.isUnit = true ∧ unit.path = "/".intercalate (s.scopes.segments unit.scope)
  unitsOnce : (s.units.map OutputUnit.scope).Nodup
  unitsAll : ∀ (id : Nat) (scope : Scope), s.scopes.scopes[id]? = some scope →
    scope.isUnit = true → id ∈ s.units.map OutputUnit.scope
  objective : s.config.registerObjective ∈ s.objectives

/-! ## Single changes -/

def draw (s : State) : State :=
  { s with
    scopes := s.scopes.draw s.current
      (s.config.generatedName ((s.scopes.scopes[s.current]?.map Scope.drawn).getD 0)) }

def nest (s : State) (outer : Nat) (outerScope : Scope) (name : String) : State :=
  { s with scopes := s.scopes.addScope { name, parent := some outer, drawn := outerScope.drawn } }

def addUnit (s : State) (scope : Nat) (pos : Position) : State :=
  { s with
    scopes := s.scopes.modifyScope scope (fun scope => { scope with isUnit := true })
    units := s.units ++ [⟨"/".intercalate (s.scopes.segments scope), scope, pos⟩] }

def enterVar (s : State) (var : Variable) : State :=
  { s with
    scopes := (s.scopes.bindName s.current var.name s.vars.size).enter s.current
      (.declared s.vars.size)
    vars := s.vars.push var }

def onVar (s : State) (id : Nat) (change : Variable → Variable) : State :=
  { s with vars := s.vars.modify id change }

def log (s : State) (emission : Emission) : State :=
  { s with scopes := s.scopes.enter s.current (.emitted emission) }

inductive Step : State → State → Prop where
  | move {s : State} {scope : Nat} (inside : scope < s.scopes.size) :
      Step s { s with current := scope }
  | draw {s : State} : Step s s.draw
  | entry {s : State} {root : Scope} (first : s.scopes.size = 1)
      (found : s.scopes.scopes[0]? = some root) : Step s (s.nest 0 root s.config.entry)
  | block {s : State} {outer : Scope} {n : Nat} (below : 0 < s.current)
      (found : s.scopes.scopes[s.current]? = some outer) (old : n < outer.drawn)
      (unused : s.Unused (s.config.generatedName n)) :
      Step s (s.nest s.current outer (s.config.generatedName n))
  | member {s : State} {id : Nat} {var : Variable} {outer : Scope} (found : s.vars[id]? = some var)
      (around : s.scopes.scopes[var.scope]? = some outer) (type : var.type = .objective)
      (first : var.inner = none) :
      Step s ((s.nest var.scope outer var.name).onVar id (fun var => { var with inner := some s.scopes.size }))
  | unit {s : State} {id : Nat} {scope : Scope} {pos : Position}
      (found : s.scopes.scopes[id]? = some scope) (first : scope.isUnit = false) :
      Step s (s.addUnit id pos)
  | enter {s : State} {type : ValueType} {access : Access} {usage : Usage} {name : String}
      {pos : Position} {scope : Scope} (below : 0 < s.current)
      (found : s.scopes.scopes[s.current]? = some scope) (segment : IsSegment name)
      (free : s.scopes.lookup s.current name = none)
      (unused : type ≠ .string → s.Unused name ∧ (s.config.isGenerated name = true →
        ∃ n, n < scope.drawn ∧ name = s.config.generatedName n))
      (result : usage = .result → s.config.isGenerated name = true) :
      Step s (s.enterVar { type, access, usage, name, scope := s.current, position := pos })
  | value {s : State} {id : Nat} {var : Variable} {value : Value} (found : s.vars[id]? = some var)
      (once : var.usage = .constant → var.value = .unset) (fits : s.Fits { var with value }) :
      Step s (s.onVar id (fun var => { var with value }))
  | members {s : State} {id field : Nat} (isField : IsField s.vars field) :
      Step s (s.onVar id (fun var => { var with members := Compile.objectiveMembers field }))
  | constructed {s : State} {id : Nat} : Step s (s.onVar id (fun var => { var with constructed := true }))
  | log {s : State} {emission : Emission} {scope : Scope}
      (found : s.scopes.scopes[s.current]? = some scope) (unit : scope.isUnit = true) :
      Step s (s.log emission)
  | claim {s : State} {id : String} (fresh : id ∉ s.objectives) :
      Step s { s with objectives := s.objectives ++ [id] }
  | count {s : State} {n : UInt64} : Step s { s with nextObjective := n }

/-! ## Steps keep states sound -/

theorem registerAt_eq (objective : t.config = s.config) {scope : Nat}
    (segments : t.scopes.segments scope = s.scopes.segments scope) (name : String) :
    t.registerAt scope name = s.registerAt scope name := by
  simp [registerAt, objective, segments]

theorem Sound.scopeOf (sound : s.Sound) (found : s.vars[id]? = some var) : var.scope < s.scopes.size :=
  lt_size_of_lookup (sound.declared id var found).2.2

theorem Serves.of_eq {register : Register} (serves : s.Serves register) (config : t.config = s.config)
    (vars : ∀ (id : Nat) (var : Variable), s.vars[id]? = some var → ∃ later, t.vars[id]? = some later ∧
      t.registerAt later.scope later.name = s.registerAt var.scope var.name) : t.Serves register := by
  rcases serves with foreign | ⟨id, var, found, rfl⟩
  · exact .inl (config ▸ foreign)
  · obtain ⟨later, there, same⟩ := vars id var found
    exact .inr ⟨id, later, there, same.symm⟩

theorem Fits.of_eq (fits : s.Fits var) (config : t.config = s.config) (objectives : s.objectives ⊆ t.objectives)
    (register : t.registerAt var.scope var.name = s.registerAt var.scope var.name)
    (serves : ∀ register, s.Serves register → t.Serves register) : t.Fits var := by
  unfold Fits at fits ⊢
  cases value : var.value with
  | unset => trivial
  | int score => simpa only [value] using fits
  | text text => simpa only [value] using fits
  | register other =>
    simp only [value, register] at fits ⊢
    exact ⟨fits.1, fits.2.1, fits.2.2.imp_right (fun result => ⟨result.1, result.2.1, serves _ result.2.2⟩)⟩
  | objective id criterion =>
    simp only [value] at fits ⊢
    exact ⟨fits.1, objectives fits.2.1, config ▸ fits.2.2⟩

theorem Recorded.mono {tree later : ScopeTree} {vars vars' : Nat} {entry : Entry}
    (recorded : Recorded tree vars entry) (more : vars ≤ vars')
    (kept : ∀ (i : Nat) (scope : Scope), tree.scopes[i]? = some scope →
      ∃ scope', later.scopes[i]? = some scope' ∧ (scope.isUnit = true → scope'.isUnit = true)) :
    Recorded later vars' entry := by
  obtain ⟨scope, found, unit⟩ := recorded.place
  obtain ⟨scope', there, keeps⟩ := kept entry.scope scope found
  exact ⟨⟨scope', there, fun emission => (unit emission).imp_right keeps⟩,
    fun var isDeclared => Nat.lt_of_lt_of_le (recorded.declared var isDeclared) more⟩

theorem Sound.move (sound : s.Sound) {scope : Nat} (inside : scope < s.scopes.size) :
    ({ s with current := scope } : State).Sound :=
  { sound with current := inside }

/-- Everything that is there stays there, under the same name in the same place. -/
structure Carries (s t : State) : Prop where
  config : t.config = s.config
  scopes : ∀ (i : Nat) (scope : Scope), s.scopes.scopes[i]? = some scope →
    ∃ scope', t.scopes.scopes[i]? = some scope' ∧ scope'.name = scope.name ∧ scope'.parent = scope.parent ∧
      scope.drawn ≤ scope'.drawn ∧ (scope.isUnit = true → scope'.isUnit = true)
  vars : ∀ (i : Nat) (var : Variable), s.vars[i]? = some var →
    ∃ var', t.vars[i]? = some var' ∧ var'.type = var.type ∧ var'.usage = var.usage ∧ var'.name = var.name ∧
      var'.scope = var.scope ∧ ∀ inner, var.inner = some inner → var'.inner = some inner
  lookups : ∀ (i id : Nat) (name : String), s.scopes.lookup i name = some id → t.scopes.lookup i name = some id
  rooted : s.scopes.Rooted → t.scopes.Rooted

/-- What a scope meets that was not there before. -/
structure NewScope (s : State) (id : Nat) (scope : Scope) : Prop where
  entry : scope.parent = some 0 → id = 1 ∧ scope.name = s.config.entry
  segment : ∀ outer, scope.parent = some outer → 0 < outer → IsSegment scope.name
  alone : ∀ (other : Nat) (sibling : Scope), s.scopes.scopes[other]? = some sibling →
    sibling.parent = scope.parent → sibling.name = scope.name → other = id
  child : ∀ (outer : Nat) (outerScope : Scope), scope.parent = some outer → 0 < outer →
    s.scopes.scopes[outer]? = some outerScope → s.IsMemberScope id scope ∨ s.IsBlockScope scope outer outerScope

/-- What a variable meets that was not there before. -/
structure NewVar (s : State) (id : Nat) (var : Variable) : Prop where
  declared : 0 < var.scope ∧ IsSegment var.name ∧ s.scopes.lookup var.scope var.name = some id
  apart : ∀ (i : Nat) (scope : Scope), s.scopes.scopes[i]? = some scope → scope.parent = some var.scope →
    var.type ≠ .string → var.name ≠ scope.name
  drawn : ∀ scope : Scope, s.scopes.scopes[var.scope]? = some scope → var.type ≠ .string →
    s.config.isGenerated var.name = true → ∃ n, n < scope.drawn ∧ var.name = s.config.generatedName n
  result : var.usage = .result → s.config.isGenerated var.name = true

/-- What is new has a name that is new where it stands. -/
structure Names (s t : State) : Prop extends Carries s t where
  newScopes : ∀ (id : Nat) (scope : Scope), t.scopes.scopes[id]? = some scope → s.scopes.size ≤ id →
    t.NewScope id scope
  newVars : ∀ (id : Nat) (var : Variable), t.vars[id]? = some var → s.vars.size ≤ id → t.NewVar id var
  bound : ∀ (id var : Nat) (name : String), t.scopes.lookup id name = some var →
    s.scopes.lookup id name = some var ∨ ∃ owner, t.vars[var]? = some owner ∧ owner.scope = id ∧ owner.name = name
  inner : ∀ (id inner : Nat) (var : Variable), t.vars[id]? = some var → var.inner = some inner →
    (∃ old, s.vars[id]? = some old ∧ old.inner = some inner) ∨
      var.type = .objective ∧ ∃ scope, t.scopes.scopes[inner]? = some scope ∧
        scope.parent = some var.scope ∧ scope.name = var.name

/-- What variables hold, what is entered and what is output is as before, or fits. -/
structure Fills (s t : State) : Prop where
  current : t.current < t.scopes.size
  fits : ∀ (id : Nat) (var : Variable), t.vars[id]? = some var →
    (∃ old, s.vars[id]? = some old ∧ var.value = old.value) ∨ t.Fits var
  members : ∀ (id : Nat) (var : Variable), t.vars[id]? = some var →
    (∃ old, s.vars[id]? = some old ∧ var.members = old.members) ∨ var.members = [] ∨
      ∃ field, var.members = Compile.objectiveMembers field ∧ IsField t.vars field
  log : ∀ entry ∈ t.scopes.log, entry ∈ s.scopes.log ∨ Recorded t.scopes t.vars.size entry
  units : ∀ unit ∈ t.units, unit ∈ s.units ∨ ∃ scope, t.scopes.scopes[unit.scope]? = some scope ∧
    scope.isUnit = true ∧ unit.path = "/".intercalate (t.scopes.segments unit.scope)
  unitsOnce : (t.units.map OutputUnit.scope).Nodup
  unitsAll : ∀ (id : Nat) (scope : Scope), t.scopes.scopes[id]? = some scope →
    scope.isUnit = true → id ∈ t.units.map OutputUnit.scope
  objectives : s.objectives ⊆ t.objectives

namespace Carries

variable {s t : State} (carries : Carries s t)
include carries

private theorem oldScope {scope' : Scope} (found : t.scopes.scopes[i]? = some scope') (inside : i < s.scopes.size) :
    ∃ scope, s.scopes.scopes[i]? = some scope ∧ scope'.name = scope.name ∧ scope'.parent = scope.parent ∧
      scope.drawn ≤ scope'.drawn := by
  obtain ⟨scope, there⟩ := exists_of_lt_size inside
  obtain ⟨_, found', name, parent, drawn, _⟩ := carries.scopes i scope there
  cases found.symm.trans found'
  exact ⟨scope, there, name, parent, drawn⟩

private theorem oldVar {var' : Variable} (found : t.vars[i]? = some var') (inside : i < s.vars.size) :
    ∃ var, s.vars[i]? = some var ∧ var'.type = var.type ∧ var'.usage = var.usage ∧ var'.name = var.name ∧
      var'.scope = var.scope := by
  have there := Array.getElem?_eq_getElem inside
  obtain ⟨_, found', type, usage, name, place, _⟩ := carries.vars i _ there
  cases found.symm.trans found'
  exact ⟨_, there, type, usage, name, place⟩

theorem segments_eq (rooted : s.scopes.Rooted) (inside : i < s.scopes.size) :
    t.scopes.segments i = s.scopes.segments i := by
  refine Within.segments_eq (fun i scope found => ?_) rooted (carries.rooted rooted) inside
  obtain ⟨scope', there, name, parent, _⟩ := carries.scopes i scope found
  exact ⟨scope', there, name, parent⟩

theorem registerAt_eq (sound : s.Sound) (isVar : s.vars[i]? = some var) :
    t.registerAt var.scope var.name = s.registerAt var.scope var.name :=
  State.registerAt_eq carries.config (carries.segments_eq sound.rooted (sound.scopeOf isVar)) var.name

theorem serves (sound : s.Sound) (register : Register) (serves : s.Serves register) : t.Serves register := by
  refine serves.of_eq carries.config (fun id var found => ?_)
  obtain ⟨later, there, _, _, name, place, _⟩ := carries.vars id var found
  exact ⟨later, there, by rw [name, place, carries.registerAt_eq sound found]⟩

theorem isField (field : IsField s.vars id) : IsField t.vars id := by
  obtain ⟨owner, found, type, usage⟩ := field
  obtain ⟨owner', there, type', usage', _⟩ := carries.vars id owner found
  exact ⟨owner', there, type'.trans type, usage' ▸ usage⟩

private theorem vars_size_le : s.vars.size ≤ t.vars.size := by
  refine size_le_of_getElem? (fun id var found => ?_)
  obtain ⟨_, there, _⟩ := carries.vars id var found
  exact ⟨_, there⟩

theorem isMemberScope {scope scope' : Scope} (name : scope'.name = scope.name) (parent : scope'.parent = scope.parent)
    (isMember : s.IsMemberScope id scope) : t.IsMemberScope id scope' := by
  obtain ⟨owner, var, isVar, inner, place, called⟩ := isMember
  obtain ⟨var', isVar', _, _, varName, varScope, keeps⟩ := carries.vars owner var isVar
  refine ⟨owner, var', isVar', keeps id inner, ?_, ?_⟩
  · rw [parent, place, varScope]
  · rw [name, called, varName]

/-- Nothing is new where nothing was added. -/
theorem names (size : t.scopes.size = s.scopes.size) (varsSize : t.vars.size = s.vars.size)
    (bound : ∀ (i : Nat) (name : String), t.scopes.lookup i name = s.scopes.lookup i name)
    (inner : ∀ (i : Nat) (var : Variable), t.vars[i]? = some var → ∃ old, s.vars[i]? = some old ∧
      old.inner = var.inner) : Names s t where
  toCarries := carries
  newScopes := fun _ _ found new => absurd (size ▸ lt_size_of_getElem? found) (Nat.not_lt.mpr new)
  newVars := fun _ _ found new =>
    absurd (varsSize ▸ (Array.getElem?_eq_some_iff.mp found).1) (Nat.not_lt.mpr new)
  bound := fun id var name found => .inl (bound id name ▸ found)
  inner := by
    intro id number var found isInner
    obtain ⟨old, wasThere, same⟩ := inner id var found
    exact .inl ⟨old, wasThere, same.trans isInner⟩

end Carries

/-- A state stays sound when what is new in it has its own name and what it holds fits. -/
theorem Names.sound {s t : State} (names : Names s t) (fills : Fills s t) (sound : s.Sound) : t.Sound := by
  have carries := names.toCarries
  refine
    { rooted := names.rooted sound.rooted
      current := fills.current, unitsOnce := fills.unitsOnce, unitsAll := fills.unitsAll
      entry := ?entry, segment := ?segment, siblings := ?siblings
      child := ?child, bound := ?bound, declared := ?declared, drawn := ?drawn, inner := ?inner
      fits := ?fits, result := ?result, members := ?members, log := ?log, units := ?units
      objective := names.config ▸ fills.objectives sound.objective }
  case entry =>
    intro id scope' found first
    rcases Nat.lt_or_ge id s.scopes.size with inside | new
    · obtain ⟨scope, there, name, parent, _⟩ := carries.oldScope found inside
      rw [name, names.config]
      exact sound.entry id scope there (parent ▸ first)
    · exact (names.newScopes id scope' found new).entry first
  case segment =>
    intro id outer scope' found isInside positive
    rcases Nat.lt_or_ge id s.scopes.size with inside | new
    · obtain ⟨scope, there, name, parent, _⟩ := carries.oldScope found inside
      rw [name]
      exact sound.segment id outer scope there (parent ▸ isInside) positive
    · exact (names.newScopes id scope' found new).segment outer isInside positive
  case siblings =>
    intro a b left right foundLeft foundRight parents called
    rcases Nat.lt_or_ge a s.scopes.size with insideLeft | new
    · rcases Nat.lt_or_ge b s.scopes.size with insideRight | new
      · obtain ⟨_, thereLeft, nameLeft, parentLeft, _⟩ := carries.oldScope foundLeft insideLeft
        obtain ⟨_, thereRight, nameRight, parentRight, _⟩ := carries.oldScope foundRight insideRight
        rw [parentLeft, parentRight] at parents
        rw [nameLeft, nameRight] at called
        exact sound.siblings a b _ _ thereLeft thereRight parents called
      · exact (names.newScopes b right foundRight new).alone a left foundLeft parents called
    · exact ((names.newScopes a left foundLeft new).alone b right foundRight parents.symm called.symm).symm
  case child =>
    intro id outer scope' outerScope' found isInside positive around
    rcases Nat.lt_or_ge id s.scopes.size with inside | new
    · obtain ⟨scope, there, name, parent, _⟩ := carries.oldScope found inside
      rw [parent] at isInside
      have below := Nat.lt_trans (sound.rooted.lt_of_parent there isInside) inside
      obtain ⟨outerScope, aroundThere, _, _, drawn⟩ := carries.oldScope around below
      rcases sound.child id outer scope outerScope there isInside positive aroundThere with
        isMember | ⟨⟨n, old, called⟩, others⟩
      · exact .inl (carries.isMemberScope name parent isMember)
      · refine .inr ⟨⟨n, Nat.lt_of_lt_of_le old drawn, by rw [name, called, names.config]⟩, ?_⟩
        intro i var' isVar' place type
        rcases Nat.lt_or_ge i s.vars.size with inside | new
        · obtain ⟨var, isVar, varType, _, varName, varScope⟩ := carries.oldVar isVar' inside
          rw [varName, name]
          exact others i var isVar (varScope ▸ place) (varType ▸ type)
        · exact (names.newVars i var' isVar' new).apart id scope' found (by rw [parent, isInside, place]) type
    · exact (names.newScopes id scope' found new).child outer outerScope' isInside positive around
  case bound =>
    intro id var name found
    rcases names.bound id var name found with wasFound | new
    · obtain ⟨owner, isVar, place, called⟩ := sound.bound id var name wasFound
      obtain ⟨owner', isVar', _, _, varName, varScope, _⟩ := carries.vars var owner isVar
      exact ⟨owner', isVar', varScope.trans place, varName.trans called⟩
    · exact new
  case declared =>
    intro id var' found
    rcases Nat.lt_or_ge id s.vars.size with inside | new
    · obtain ⟨var, isVar, _, _, varName, varScope⟩ := carries.oldVar found inside
      obtain ⟨positive, isSegment, lookup⟩ := sound.declared id var isVar
      rw [varName, varScope]
      exact ⟨positive, isSegment, names.lookups _ _ _ lookup⟩
    · exact (names.newVars id var' found new).declared
  case drawn =>
    intro id var' scope' found type around generated
    rcases Nat.lt_or_ge id s.vars.size with inside | new
    · obtain ⟨var, isVar, varType, _, varName, varScope⟩ := carries.oldVar found inside
      rw [varScope] at around
      rw [varName, names.config] at generated ⊢
      obtain ⟨scope, there, _, _, drawn⟩ := carries.oldScope around (sound.scopeOf isVar)
      obtain ⟨n, old, called⟩ := sound.drawn id var scope isVar (varType ▸ type) there generated
      exact ⟨n, Nat.lt_of_lt_of_le old drawn, called⟩
    · exact (names.newVars id var' found new).drawn scope' around type generated
  case inner =>
    intro id inner var' found isInner
    rcases names.inner id inner var' found isInner with ⟨var, isVar, wasInner⟩ | new
    · obtain ⟨type, scope, there, parent, name⟩ := sound.inner id inner var isVar wasInner
      obtain ⟨_, found', varType, _, varName, varScope, _⟩ := carries.vars id var isVar
      cases found.symm.trans found'
      obtain ⟨scope', there', sameName, sameParent, _⟩ := carries.scopes inner scope there
      refine ⟨varType.trans type, scope', there', ?_, ?_⟩
      · rw [sameParent, parent, varScope]
      · rw [sameName, name, varName]
    · exact new
  case fits =>
    intro id var' found
    rcases fills.fits id var' found with ⟨var, isVar, value⟩ | fits
    · obtain ⟨_, found', type, usage, name, place, _⟩ := carries.vars id var isVar
      cases found.symm.trans found'
      have fits := (sound.fits id var isVar).of_eq carries.config fills.objectives (carries.registerAt_eq sound isVar)
        (carries.serves sound)
      unfold Fits at fits ⊢
      rwa [value, type, usage, name, place]
    · exact fits
  case result =>
    intro id var' found usage'
    rcases Nat.lt_or_ge id s.vars.size with inside | new
    · obtain ⟨var, isVar, _, usage, name, _⟩ := carries.oldVar found inside
      rw [name, names.config]
      exact sound.result id var isVar (usage ▸ usage')
    · exact (names.newVars id var' found new).result usage'
  case members =>
    intro id var' found
    rcases fills.members id var' found with ⟨var, isVar, members⟩ | listed
    · rw [members]
      refine (sound.members id var isVar).imp_right ?_
      rintro ⟨field, listed, isField⟩
      exact ⟨field, listed, carries.isField isField⟩
    · exact listed
  case log =>
    intro entry mem
    rcases fills.log entry mem with old | new
    · refine (sound.log entry old).mono carries.vars_size_le ?_
      intro i scope found
      obtain ⟨scope', there, _, _, _, isUnit⟩ := carries.scopes i scope found
      exact ⟨scope', there, isUnit⟩
    · exact new
  case units =>
    intro unit mem
    rcases fills.units unit mem with old | new
    · obtain ⟨scope, there, isUnit, path⟩ := sound.units unit old
      obtain ⟨scope', there', _, _, _, keeps⟩ := carries.scopes unit.scope scope there
      refine ⟨scope', there', keeps isUnit, ?_⟩
      rw [path, carries.segments_eq sound.rooted (lt_size_of_getElem? there)]
    · exact new

private theorem names_modifyScope (s : State) (id : Nat) (change : Scope → Scope)
    (name : ∀ scope, (change scope).name = scope.name) (parent : ∀ scope, (change scope).parent = scope.parent)
    (drawn : ∀ scope : Scope, scope.drawn ≤ (change scope).drawn)
    (isUnit : ∀ scope : Scope, scope.isUnit = true → (change scope).isUnit = true)
    (names : ∀ scope, (change scope).names = scope.names) (units : List OutputUnit) (draws : List Draw) :
    Names s { s with scopes := { s.scopes.modifyScope id change with draws }, units } := by
  refine Carries.names ⟨rfl, ?_, fun _ var found => ⟨var, found, rfl, rfl, rfl, rfl, fun _ isInner => isInner⟩, ?_, ?_⟩
    (size_modifyScope _ _ _) rfl (fun i other => lookup_modifyScope _ _ _ _ _ names)
      (fun _ var found => ⟨var, found, rfl⟩)
  · intro i scope found
    by_cases here : id = i
    · exact ⟨change scope, by simp [here, found], name scope, parent scope, drawn scope, isUnit scope⟩
    · exact ⟨scope, by simp [here, found], rfl, rfl, Nat.le_refl _, fun marked => marked⟩
  · exact fun i var other found => (lookup_modifyScope _ _ _ _ _ names).trans found
  · intro rooted
    have modified := rooted_modifyScope rooted id change name parent
    exact ⟨modified.root, modified.parent⟩

theorem names_mark (s : State) (id : Nat) (units : List OutputUnit) :
    Names s { s with scopes := s.scopes.modifyScope id (fun scope => { scope with isUnit := true }), units } :=
  names_modifyScope s id (fun scope => { scope with isUnit := true }) (fun _ => rfl) (fun _ => rfl)
    (fun scope => Nat.le_refl scope.drawn) (fun _ _ => rfl) (fun _ => rfl) units s.scopes.draws

private theorem names_aside (config : t.config = s.config) (scopes : t.scopes.scopes = s.scopes.scopes)
    (vars : t.vars = s.vars) : Names s t := by
  have lookups (i : Nat) (name : String) : t.scopes.lookup i name = s.scopes.lookup i name := by
    rw [lookup, scopes, lookup]
  refine Carries.names ⟨config, ?_, ?_, fun i id name found => (lookups i name).trans found, ?_⟩
    (congrArg Array.size scopes) (congrArg Array.size vars) lookups (fun _ var found => ⟨var, vars ▸ found, rfl⟩)
  · exact fun i scope found => ⟨scope, scopes ▸ found, rfl, rfl, Nat.le_refl _, fun marked => marked⟩
  · exact fun i var found => ⟨var, vars ▸ found, rfl, rfl, rfl, rfl, fun _ isInner => isInner⟩
  · exact fun rooted => ⟨scopes ▸ rooted.root, scopes ▸ rooted.parent⟩

/-- What is held stays the same where variables, entries and units do. -/
theorem Sound.fills (sound : s.Sound) (current : t.current < t.scopes.size) (vars : t.vars = s.vars)
    (log : t.scopes.log = s.scopes.log) (units : t.units = s.units)
    (unitsAll : ∀ (id : Nat) (scope : Scope), t.scopes.scopes[id]? = some scope →
      scope.isUnit = true → id ∈ s.units.map OutputUnit.scope)
    (objectives : s.objectives ⊆ t.objectives) : Fills s t where
  current := current
  fits := fun _ var found => .inl ⟨var, vars ▸ found, rfl⟩
  members := fun _ var found => .inl ⟨var, vars ▸ found, rfl⟩
  log := fun _ mem => .inl (log ▸ mem)
  units := fun _ mem => .inl (units ▸ mem)
  unitsOnce := units ▸ sound.unitsOnce
  unitsAll := units ▸ unitsAll
  objectives := objectives

theorem Sound.draw {s : State} (sound : s.Sound) : s.draw.Sound := by
  have names : Names s s.draw := names_modifyScope s s.current (fun scope => { scope with drawn := scope.drawn + 1 })
    (fun _ => rfl) (fun _ => rfl) (fun scope => Nat.le_succ scope.drawn) (fun _ => id) (fun _ => rfl) s.units _
  have current : s.current < s.draw.scopes.size := (size_modifyScope ..).symm ▸ sound.current
  refine names.sound (sound.fills current rfl rfl rfl ?_ (List.Subset.refl _)) sound
  intro id scope found isUnit
  obtain ⟨old, there, rfl | ⟨_, rfl⟩⟩ := ScopeTree.getElem?_modifyScope_elim found
  · exact sound.unitsAll id _ there isUnit
  · exact sound.unitsAll id old there isUnit

theorem Sound.addUnit {s : State} (sound : s.Sound) {id : Nat} {scope : Scope}
    (found : s.scopes.scopes[id]? = some scope) (first : scope.isUnit = false)
    (pos : Position) : (s.addUnit id pos).Sound := by
  have names : Names s (s.addUnit id pos) := names_mark s id _
  have appended : (s.addUnit id pos).units.map OutputUnit.scope = s.units.map OutputUnit.scope ++ [id] := by
    simp [State.addUnit]
  refine names.sound { current := ?current, units := ?units, unitsOnce := ?unitsOnce, unitsAll := ?unitsAll
                       fits := fun _ var found => .inl ⟨var, found, rfl⟩
                       members := fun _ var found => .inl ⟨var, found, rfl⟩
                       log := fun _ => .inl, objectives := List.Subset.refl _ } sound
  case current => exact (size_modifyScope ..).symm ▸ sound.current
  case units =>
    intro unit mem
    refine (List.mem_append.mp mem).imp_right (fun new => ?_)
    rw [List.mem_singleton.mp new]
    refine ⟨{ scope with isUnit := true }, by simp [State.addUnit, found], rfl, ?_⟩
    rw [names.segments_eq sound.rooted (lt_size_of_getElem? found)]
  case unitsOnce =>
    rw [appended, List.nodup_append]
    refine ⟨sound.unitsOnce, by simp, ?_⟩
    intro a mem b single same
    rw [List.mem_singleton.mp single] at same
    obtain ⟨unit, isMember, isScope⟩ := List.mem_map.mp (same ▸ mem)
    obtain ⟨scope', there, isUnit, _⟩ := sound.units unit isMember
    rw [isScope, found] at there
    cases there
    simp [first] at isUnit
  case unitsAll =>
    intro i scope' there isUnit
    rw [appended]
    obtain ⟨old, wasThere, rfl | ⟨rfl, _⟩⟩ := ScopeTree.getElem?_modifyScope_elim there
    · exact List.mem_append_left _ (sound.unitsAll i _ wasThere isUnit)
    · simp

theorem vars_onVar (s : State) (id i : Nat) (change : Variable → Variable) :
    (s.onVar id change).vars[i]? = if id = i then s.vars[i]?.map change else s.vars[i]? :=
  Array.getElem?_modify

theorem vars_onVar_elim {change : Variable → Variable} (found : (s.onVar id change).vars[i]? = some var) :
    ∃ old, s.vars[i]? = some old ∧ (id ≠ i ∧ var = old ∨ id = i ∧ var = change old) := by
  rw [vars_onVar] at found
  split at found
  · next same =>
      obtain ⟨old, there, rfl⟩ := Option.map_eq_some_iff.mp found
      exact ⟨old, there, .inr ⟨same, rfl⟩⟩
  · next distinct => exact ⟨var, found, .inl ⟨distinct, rfl⟩⟩

theorem Sound.onVar {s : State} (sound : s.Sound) {id : Nat} {change : Variable → Variable}
    (kept : ∀ var, (change var).type = var.type ∧ (change var).usage = var.usage ∧
      (change var).name = var.name ∧ (change var).scope = var.scope ∧ (change var).inner = var.inner)
    (fits : ∀ var, s.vars[id]? = some var → s.Fits (change var))
    (members : ∀ var, s.vars[id]? = some var → (change var).members = var.members ∨
      ∃ field, (change var).members = Compile.objectiveMembers field ∧ IsField s.vars field) :
    (s.onVar id change).Sound := by
  have carries : Carries s (s.onVar id change) := by
    refine ⟨rfl, fun _ scope found => ⟨scope, found, rfl, rfl, Nat.le_refl _, fun marked => marked⟩, ?_,
      fun _ _ _ found => found, fun rooted => rooted⟩
    intro i var found
    by_cases here : id = i
    · obtain ⟨type, usage, name, place, inner⟩ := kept var
      exact ⟨change var, by rw [vars_onVar, if_pos here, found]; rfl, type, usage, name, place, fun _ => inner.trans⟩
    · exact ⟨var, by rw [vars_onVar, if_neg here, found], rfl, rfl, rfl, rfl, fun _ isInner => isInner⟩
  refine (carries.names rfl Array.size_modify (fun _ _ => rfl) ?inner).sound
    { current := sound.current, fits := ?fits, members := ?members, log := fun _ => .inl, units := fun _ => .inl
      unitsOnce := sound.unitsOnce, unitsAll := sound.unitsAll, objectives := List.Subset.refl _ } sound
  case inner =>
    intro i var found
    obtain ⟨old, there, ⟨_, rfl⟩ | ⟨_, rfl⟩⟩ := vars_onVar_elim found
    · exact ⟨var, there, rfl⟩
    · exact ⟨old, there, (kept old).2.2.2.2.symm⟩
  case fits =>
    intro i var found
    obtain ⟨old, there, ⟨_, rfl⟩ | ⟨rfl, rfl⟩⟩ := vars_onVar_elim found
    · exact .inl ⟨var, there, rfl⟩
    · have register := carries.registerAt_eq sound there
      rw [← (kept old).2.2.2.1, ← (kept old).2.2.1] at register
      exact .inr ((fits old there).of_eq rfl (List.Subset.refl _) register (carries.serves sound))
  case members =>
    intro i var found
    obtain ⟨old, there, ⟨_, rfl⟩ | ⟨rfl, rfl⟩⟩ := vars_onVar_elim found
    · exact .inl ⟨var, there, rfl⟩
    · refine (members old there).imp (fun same => ⟨old, there, same⟩) ?_
      rintro ⟨field, listed, isField⟩
      exact .inr ⟨field, listed, carries.isField isField⟩

theorem Sound.emit (sound : s.Sound) (found : s.scopes.scopes[s.current]? = some scope)
    (unit : scope.isUnit = true) (emission : Emission) : (s.log emission).Sound := by
  have names : Names s (s.log emission) := names_aside rfl rfl rfl
  refine names.sound { current := sound.current, log := ?log
                       fits := fun _ var found => .inl ⟨var, found, rfl⟩
                       members := fun _ var found => .inl ⟨var, found, rfl⟩
                       units := fun _ => .inl, unitsOnce := sound.unitsOnce, unitsAll := sound.unitsAll
                       objectives := List.Subset.refl _ } sound
  intro entry mem
  refine (List.mem_append.mp mem).imp_right (fun new => ?_)
  rw [List.mem_singleton.mp new]
  exact ⟨⟨scope, found, fun _ => .inr unit⟩, fun var impossible => by cases impossible⟩

theorem Sound.claim (sound : s.Sound) (id : String) :
    ({ s with objectives := s.objectives ++ [id] } : State).Sound := by
  have names : Names s { s with objectives := s.objectives ++ [id] } := names_aside rfl rfl rfl
  exact names.sound (sound.fills sound.current rfl rfl rfl sound.unitsAll (List.subset_append_left _ _)) sound

/-- A scope keeps the state sound when its name is new where it is made. It may be noted as the scope of the
members of a variable. -/
theorem Sound.nest {s t : State} (sound : s.Sound) {outer : Nat} {outerScope : Scope} {name : String}
    {vars : Array Variable} (around : s.scopes.scopes[outer]? = some outerScope)
    (isNested : t = { s.nest outer outerScope name with vars })
    (kept : ∀ i : Nat, vars[i]? = s.vars[i]? ∨ ∃ var, s.vars[i]? = some var ∧
      vars[i]? = some { var with inner := some s.scopes.size } ∧ var.inner = none ∧ var.type = .objective ∧
      var.scope = outer ∧ var.name = name)
    (entry : outer = 0 → s.scopes.size = 1 ∧ name = s.config.entry) (segment : 0 < outer → IsSegment name)
    (siblings : ∀ (i : Nat) (scope : Scope), s.scopes.scopes[i]? = some scope →
      scope.parent = some outer → scope.name ≠ name)
    (made : 0 < outer → t.IsMemberScope s.scopes.size { name, parent := some outer, drawn := outerScope.drawn } ∨
      t.IsBlockScope { name, parent := some outer, drawn := outerScope.drawn } outer outerScope) : t.Sound := by
  subst isNested
  let added : Scope := { name, parent := some outer, drawn := outerScope.drawn }
  have old {i : Nat} {scope : Scope} (found : s.scopes.scopes[i]? = some scope) :
      (s.scopes.addScope added).scopes[i]? = some scope := by
    rw [getElem?_addScope_of_lt added (lt_size_of_getElem? found), found]
  have held {i : Nat} {var : Variable} (found : vars[i]? = some var) :
      ∃ before, s.vars[i]? = some before ∧ var.value = before.value ∧ var.members = before.members := by
    rcases kept i with same | ⟨before, wasThere, there, _⟩
    · exact ⟨var, same ▸ found, rfl, rfl⟩
    · cases found.symm.trans there
      exact ⟨before, wasThere, rfl, rfl⟩
  have carries : Carries s { s.nest outer outerScope name with vars } := by
    refine ⟨rfl, fun _ scope found => ⟨scope, old found, rfl, rfl, Nat.le_refl _, fun marked => marked⟩, ?_,
      fun _ _ _ => (lookup_addScope rfl _).trans, fun rooted => rooted_addScope rooted rfl (lt_size_of_getElem? around)⟩
    intro i var found
    rcases kept i with same | ⟨before, wasThere, there, unset, _⟩
    · exact ⟨var, same.trans found, rfl, rfl, rfl, rfl, fun _ isInner => isInner⟩
    · cases found.symm.trans wasThere
      refine ⟨_, there, rfl, rfl, rfl, rfl, fun inner isInner => ?_⟩
      rw [unset] at isInner
      cases isInner
  refine Names.sound { toCarries := carries, newScopes := ?newScopes, newVars := ?newVars, bound := ?bound, inner :=
    ?inner }
    { current := ?current, unitsAll := ?unitsAll, unitsOnce := sound.unitsOnce, objectives := List.Subset.refl _
      log := fun _ => .inl, units := fun _ => .inl, fits := ?fits, members := ?members } sound
  case newScopes =>
    intro id scope found new
    rcases getElem?_addScope_elim found with wasThere | ⟨rfl, rfl⟩
    · exact absurd (lt_size_of_getElem? wasThere) (Nat.not_lt.mpr new)
    refine ⟨fun first => entry (Option.some.inj first), ?_, ?_, ?_⟩
    · rintro _ ⟨⟩ positive
      exact segment positive
    · intro other sibling there parent called
      rcases getElem?_addScope_elim there with wasThere | ⟨rfl, _⟩
      · exact absurd called (siblings other sibling wasThere parent)
      · rfl
    · rintro _ outerScope' ⟨⟩ positive around'
      cases around'.symm.trans (old around)
      exact made positive
  case newVars =>
    intro id var found new
    obtain ⟨before, wasThere, _⟩ := held found
    exact absurd (Array.getElem?_eq_some_iff.mp wasThere).1 (Nat.not_lt.mpr new)
  case bound => exact fun id var other found => .inl ((lookup_addScope rfl _).symm.trans found)
  case inner =>
    intro id inner var found isInner
    rcases kept id with same | ⟨before, _, there, _, type, rfl, rfl⟩
    · exact .inl ⟨var, same ▸ found, isInner⟩
    · cases found.symm.trans there
      cases isInner
      exact .inr ⟨type, added, getElem?_addScope_size s.scopes added, rfl, rfl⟩
  case current => exact (size_addScope s.scopes added).symm ▸ Nat.lt_succ_of_lt sound.current
  case unitsAll =>
    intro id scope found isUnit
    rcases getElem?_addScope_elim found with wasThere | ⟨_, rfl⟩
    · exact sound.unitsAll id scope wasThere isUnit
    · cases isUnit
  case fits =>
    intro id var found
    obtain ⟨before, wasThere, value, _⟩ := held found
    exact .inl ⟨before, wasThere, value⟩
  case members =>
    intro id var found
    obtain ⟨before, wasThere, _, members⟩ := held found
    exact .inl ⟨before, wasThere, members⟩

theorem Sound.entryScope (sound : s.Sound) {root : Scope} (first : s.scopes.size = 1)
    (found : s.scopes.scopes[0]? = some root) : (s.nest 0 root s.config.entry).Sound := by
  refine sound.nest found rfl (fun _ => .inl rfl) (fun _ => ⟨first, rfl⟩) (fun impossible => ?_) ?_
    (fun impossible => ?_)
  · exact absurd impossible (Nat.lt_irrefl 0)
  · intro i scope there parent
    have below := sound.rooted.lt_of_parent there parent
    have inside := lt_size_of_getElem? there
    omega
  · exact absurd impossible (Nat.lt_irrefl 0)

theorem Sound.block (sound : s.Sound) (usable : s.config.Usable) {outer : Scope} {n : Nat}
    (below : 0 < s.current) (found : s.scopes.scopes[s.current]? = some outer) (old : n < outer.drawn)
    (unused : s.Unused (s.config.generatedName n)) : (s.nest s.current outer (s.config.generatedName n)).Sound := by
  refine sound.nest found rfl (fun _ => .inl rfl) (fun root => ?_)
    (fun _ => s.config.isSegment_generatedName usable n) unused.scopes (fun _ => .inr ⟨⟨n, old, rfl⟩, ?_⟩)
  · exact absurd root (Nat.ne_of_gt below)
  · exact unused.vars

theorem Sound.member (sound : s.Sound) {outer : Scope} (found : s.vars[id]? = some var)
    (around : s.scopes.scopes[var.scope]? = some outer) (type : var.type = .objective) (first : var.inner = none) :
    ((s.nest var.scope outer var.name).onVar id (fun var => { var with inner := some s.scopes.size })).Sound := by
  obtain ⟨positive, segment, lookup⟩ := sound.declared id var found
  have owner : (s.onVar id (fun var => { var with inner := some s.scopes.size })).vars[id]? =
      some { var with inner := some s.scopes.size } := by
    simp [vars_onVar, found]
  refine sound.nest around rfl (fun i => ?_) (fun root => absurd root (Nat.ne_of_gt positive)) (fun _ => segment) ?_
    (fun _ => .inl ⟨id, _, owner, rfl, rfl, rfl⟩)
  · by_cases here : id = i
    · subst here
      exact .inr ⟨var, found, owner, first, type, rfl, rfl⟩
    · exact .inl ((vars_onVar s id i _).trans (if_neg here))
  intro i scope there parent sameName
  rcases sound.child i var.scope scope outer there parent positive around with
    ⟨other, otherVar, isVar, inner, place, called⟩ | ⟨_, others⟩
  · -- A scope of the same name would be the one of this variable, which has none yet.
    obtain ⟨_, _, otherLookup⟩ := sound.declared other otherVar isVar
    have samePlace : otherVar.scope = var.scope := Option.some.inj (place.symm.trans parent)
    rw [samePlace, ← called, sameName, lookup] at otherLookup
    cases otherLookup
    rw [found] at isVar
    cases isVar
    rw [first] at inner
    cases inner
  · refine others id var found rfl ?_ sameName.symm
    rw [type]
    decide

theorem lookup_enterVar (inside : s.current < s.scopes.size) (var : Variable) (i : Nat) (name : String) :
    (s.enterVar var).scopes.lookup i name = if i = s.current then (s.scopes.lookup i name).or
        (if name = var.name then some s.vars.size else none) else s.scopes.lookup i name :=
  lookup_bindName s.scopes s.current i var.name name s.vars.size inside

theorem lookup_enterVar_elim {name : String} (inside : s.current < s.scopes.size)
    (found : (s.enterVar var).scopes.lookup i name = some id) :
    s.scopes.lookup i name = some id ∨ i = s.current ∧ name = var.name ∧ id = s.vars.size := by
  rw [lookup_enterVar inside] at found
  split at found
  · next here =>
      refine (Option.or_eq_some_iff.mp found).imp_right (fun new => ?_)
      obtain ⟨called, same⟩ := Option.ite_none_right_eq_some.mp new.2
      exact ⟨here, called, (Option.some.inj same).symm⟩
  · exact .inl found

theorem lookup_enterVar_old {name : String} (inside : s.current < s.scopes.size)
    (found : s.scopes.lookup i name = some id) : (s.enterVar var).scopes.lookup i name = some id := by
  rw [lookup_enterVar inside, found, Option.some_or, ite_self]

theorem rooted_enterVar (rooted : s.scopes.Rooted) : (s.enterVar var).scopes.Rooted := by
  have bound : (s.scopes.bindName s.current var.name s.vars.size).Rooted :=
    rooted_modifyScope rooted s.current _ (fun _ => rfl) (fun _ => rfl)
  exact ⟨bound.root, bound.parent⟩

theorem scope_enterVar (var : Variable) {old : Scope} (found : s.scopes.scopes[i]? = some old) :
    ∃ scope, (s.enterVar var).scopes.scopes[i]? = some scope ∧ scope.name = old.name ∧
      scope.parent = old.parent ∧ scope.drawn = old.drawn ∧ scope.isUnit = old.isUnit ∧
      (i ≠ s.current → scope = old) := by
  by_cases here : s.current = i
  · refine ⟨{ old with names := old.names ++ [(var.name, s.vars.size)] }, ?_, rfl, rfl, rfl, rfl, ?_⟩
    · simp [State.enterVar, ScopeTree.enter, bindName, here, found]
    · exact fun other => absurd here.symm other
  · refine ⟨old, ?_, rfl, rfl, rfl, rfl, fun _ => rfl⟩
    simp [State.enterVar, ScopeTree.enter, bindName, here, found]

theorem var_enterVar_old {s : State} (var : Variable) {i : Nat} {other : Variable}
    (found : s.vars[i]? = some other) : (s.enterVar var).vars[i]? = some other := by
  have inside := (Array.getElem?_eq_some_iff.mp found).1
  simp only [State.enterVar, Array.getElem?_push]
  rw [if_neg (Nat.ne_of_lt inside), found]

theorem var_enterVar_new (s : State) (var : Variable) : (s.enterVar var).vars[s.vars.size]? = some var := by
  simp [State.enterVar]

theorem var_enterVar_elim {other : Variable} (found : (s.enterVar var).vars[i]? = some other) :
    s.vars[i]? = some other ∨ i = s.vars.size ∧ other = var := by
  simp only [State.enterVar, Array.getElem?_push] at found
  split at found
  · next here => exact .inr ⟨here, (Option.some.inj found).symm⟩
  · exact .inl found

private theorem vars_size_enterVar (s : State) (var : Variable) : (s.enterVar var).vars.size = s.vars.size + 1 := by
  simp [State.enterVar]

theorem scopes_size_enterVar (s : State) (var : Variable) : (s.enterVar var).scopes.size = s.scopes.size :=
  size_modifyScope _ _ _

theorem Sound.enterVar {s : State} (sound : s.Sound) {var : Variable} {scope : Scope} (below : 0 < s.current)
    (found : s.scopes.scopes[s.current]? = some scope) (place : var.scope = s.current) (segment : IsSegment var.name)
    (free : s.scopes.lookup s.current var.name = none)
    (unused : var.type ≠ .string → s.Unused var.name ∧ (s.config.isGenerated var.name = true →
      ∃ n, n < scope.drawn ∧ var.name = s.config.generatedName n))
    (result : var.usage = .result → s.config.isGenerated var.name = true) (unset : var.value = .unset)
    (memberless : var.members = []) (innerless : var.inner = none) : (s.enterVar var).Sound := by
  have size := scopes_size_enterVar s var
  have carries : Carries s (s.enterVar var) := by
    refine ⟨rfl, ?_, ?_, fun _ _ _ => lookup_enterVar_old sound.current, rooted_enterVar⟩
    · intro i old wasThere
      obtain ⟨scope', isThere, name, parent, drawn, mark, _⟩ := scope_enterVar var wasThere
      exact ⟨scope', isThere, name, parent, Nat.le_of_eq drawn.symm, mark.trans⟩
    · exact fun _ other found => ⟨other, var_enterVar_old var found, rfl, rfl, rfl, rfl, fun _ isInner => isInner⟩
  have oldScope {i : Nat} {scope' : Scope} (isThere : (s.enterVar var).scopes.scopes[i]? = some scope') :
      ∃ old, s.scopes.scopes[i]? = some old ∧ scope'.name = old.name ∧ scope'.parent = old.parent ∧
        scope'.drawn = old.drawn ∧ scope'.isUnit = old.isUnit := by
    obtain ⟨old, wasThere⟩ := exists_of_lt_size (size ▸ lt_size_of_getElem? isThere)
    obtain ⟨other, isOther, name, parent, drawn, mark, _⟩ := scope_enterVar var wasThere
    cases isThere.symm.trans isOther
    exact ⟨old, wasThere, name, parent, drawn, mark⟩
  refine Names.sound { toCarries := carries, newScopes := ?newScopes, newVars := ?newVars, bound := ?bound, inner :=
    ?inner }
    { current := size.symm ▸ sound.current, unitsAll := ?unitsAll, unitsOnce := sound.unitsOnce
      objectives := List.Subset.refl _, log := ?log, units := fun _ => .inl, fits := ?fits, members := ?members } sound
  case newScopes =>
    exact fun i scope' isThere new => absurd (size ▸ lt_size_of_getElem? isThere) (Nat.not_lt.mpr new)
  case newVars =>
    intro id other isVar new
    rcases var_enterVar_elim isVar with oldVar | ⟨rfl, rfl⟩
    · exact absurd (Array.getElem?_eq_some_iff.mp oldVar).1 (Nat.not_lt.mpr new)
    refine ⟨⟨place ▸ below, segment, by simp [lookup_enterVar sound.current, place, free]⟩, ?_, ?_, result⟩
    · intro i scope' isThere inside type
      obtain ⟨old, wasThere, name, parent, _⟩ := oldScope isThere
      rw [name]
      exact ((unused type).1.scopes i old wasThere (by rw [← parent, inside, place])).symm
    · intro scope' isThere type generated
      obtain ⟨old, wasThere, _, _, drawn, _⟩ := oldScope isThere
      rw [place, found] at wasThere
      cases wasThere
      exact drawn ▸ (unused type).2 generated
  case bound =>
    intro id number name isFound
    refine (lookup_enterVar_elim sound.current isFound).imp_right ?_
    rintro ⟨rfl, rfl, rfl⟩
    exact ⟨var, var_enterVar_new s var, place, rfl⟩
  case inner =>
    intro id inner other isVar isInner
    rcases var_enterVar_elim isVar with oldVar | ⟨_, rfl⟩
    · exact .inl ⟨other, oldVar, isInner⟩
    · rw [innerless] at isInner
      cases isInner
  case unitsAll =>
    intro i scope' isThere isUnit
    obtain ⟨old, wasThere, _, _, _, mark⟩ := oldScope isThere
    exact sound.unitsAll i old wasThere (mark ▸ isUnit)
  case log =>
    intro entry mem
    refine (List.mem_append.mp mem).imp_right (fun new => ?_)
    obtain ⟨scope', isThere, _⟩ := scope_enterVar var found
    rw [List.mem_singleton.mp new]
    refine ⟨⟨scope', isThere, fun impossible => by cases impossible⟩, ?_⟩
    rintro number ⟨⟩
    exact vars_size_enterVar s var ▸ Nat.lt_succ_self _
  case fits =>
    intro id other isVar
    rcases var_enterVar_elim isVar with oldVar | ⟨_, rfl⟩
    · exact .inl ⟨other, oldVar, rfl⟩
    · refine .inr ?_
      unfold Fits
      rw [unset]
      trivial
  case members =>
    intro id other isVar
    rcases var_enterVar_elim isVar with oldVar | ⟨_, rfl⟩
    · exact .inl ⟨other, oldVar, rfl⟩
    · exact .inr (.inl memberless)

theorem Step.sound {s t : State} (step : Step s t) (usable : s.config.Usable) (sound : s.Sound) : t.Sound := by
  cases step with
  | move inside => exact sound.move inside
  | draw => exact sound.draw
  | entry first found => exact sound.entryScope first found
  | block below found old unused => exact sound.block usable below found old unused
  | member found around type first => exact sound.member found around type first
  | unit found first => exact sound.addUnit found first _
  | enter below found segment free unused result =>
    exact sound.enterVar below found rfl segment free unused result rfl rfl rfl
  | value found once fits =>
    refine sound.onVar (fun _ => ⟨rfl, rfl, rfl, rfl, rfl⟩) ?_ (fun _ _ => .inl rfl)
    intro var there
    rw [found] at there
    cases there
    exact fits
  | members isField =>
    refine sound.onVar (fun _ => ⟨rfl, rfl, rfl, rfl, rfl⟩) ?_ (fun _ _ => .inr ⟨_, rfl, isField⟩)
    exact fun var there => sound.fits _ var there
  | constructed =>
    refine sound.onVar (fun _ => ⟨rfl, rfl, rfl, rfl, rfl⟩) ?_ (fun _ _ => .inl rfl)
    exact fun var there => sound.fits _ var there
  | log found unit => exact sound.emit found unit _
  | claim fresh => exact sound.claim _
  | count => exact { sound with }

theorem Step.config (step : Step s t) : t.config = s.config := by
  cases step <;> rfl

abbrev Steps : State → State → Prop :=
  Relation.ReflTransGen Step

theorem Steps.config {s t : State} (steps : Steps s t) : t.config = s.config := by
  induction steps with
  | refl => rfl
  | tail _ step ih => exact step.config.trans ih

theorem Step.objectives (step : Step s t) : s.objectives ⊆ t.objectives := by
  cases step with
  | claim fresh => exact List.subset_append_left _ _
  | _ => exact List.Subset.refl _

theorem Steps.objectives {s t : State} (steps : Steps s t) : s.objectives ⊆ t.objectives := by
  induction steps with
  | refl => exact List.Subset.refl _
  | tail _ step ih => exact List.Subset.trans ih step.objectives

theorem Steps.sound {s t : State} (steps : Steps s t) (usable : s.config.Usable) (sound : s.Sound) : t.Sound := by
  induction steps with
  | refl => exact sound
  | tail before step ih => exact step.sound (Steps.config before ▸ usable) ih

theorem sound_start (config : Config) (src : Nat) : (start config src).Sound := by
  have alone : ∀ {i : Nat} {scope : Scope}, (start config src).scopes.scopes[i]? = some scope →
      i = 0 ∧ scope = { name := "", parent := none } := by
    intro i scope found
    cases i with
    | zero => exact ⟨rfl, (Option.some.inj found).symm⟩
    | succ i => cases found
  have noVars : ∀ {i : Nat} {var : Variable}, (start config src).vars[i]? ≠ some var := by
    intro i var found
    cases found
  refine
    { rooted := ⟨⟨_, rfl, rfl, rfl⟩, ?_⟩, current := Nat.one_pos
      entry := ?_, segment := ?_, siblings := ?_, child := ?_, bound := ?_
      declared := fun _ _ found => absurd found noVars
      drawn := fun _ _ _ found => absurd found noVars
      inner := fun _ _ _ found => absurd found noVars
      fits := fun _ _ found => absurd found noVars
      result := fun _ _ found => absurd found noVars
      members := fun _ _ found => absurd found noVars
      log := ?_, units := ?_, unitsOnce := List.nodup_nil, unitsAll := ?_
      objective := List.mem_singleton_self _ }
  · intro i scope found positive
    exact absurd (alone found).1 (Nat.ne_of_gt positive)
  · intro i scope found parent
    rw [(alone found).2] at parent
    cases parent
  · intro i outer scope found parent
    rw [(alone found).2] at parent
    cases parent
  · intro i j left right foundLeft foundRight
    rw [(alone foundLeft).1, (alone foundRight).1]
    exact fun _ _ => rfl
  · intro i outer scope outerScope found parent
    rw [(alone found).2] at parent
    cases parent
  · intro i var name found
    obtain ⟨scope, isScope, bound⟩ := Option.bind_eq_some_iff.mp found
    rw [(alone isScope).2] at bound
    cases bound
  · intro entry mem
    rw [List.mem_singleton.mp mem]
    exact ⟨⟨_, rfl, fun _ => .inl rfl⟩, fun var impossible => by cases impossible⟩
  · intro unit mem
    cases mem
  · intro i scope found unit
    rw [(alone found).2] at unit
    cases unit

theorem Sound.unused_draw (sound : s.Sound) (below : 0 < s.current) (found : s.scopes.scopes[s.current]? = some scope) :
    s.draw.Unused (s.config.generatedName scope.drawn) := by
  constructor
  · intro id child there parent called
    obtain ⟨old, wasThere, same⟩ := ScopeTree.getElem?_modifyScope_elim there
    have kept : child.parent = old.parent ∧ child.name = old.name := by
      rcases same with rfl | ⟨_, rfl⟩ <;> exact ⟨rfl, rfl⟩
    rw [kept.1] at parent
    rw [kept.2] at called
    rcases sound.child id s.current old scope wasThere parent below found with
      ⟨owner, var, isVar, inner, place, name⟩ | ⟨⟨n, drawn, name⟩, _⟩
    · have isObjective := (sound.inner owner id var isVar inner).1
      have around : var.scope = s.current := by
        rw [place] at parent
        exact Option.some.inj parent
      obtain ⟨n, drawn, generated⟩ := sound.drawn owner var scope isVar (by simp [isObjective])
        (around ▸ found) (by rw [← name, called]; exact s.config.isGenerated_generatedName _)
      rw [← name, called] at generated
      have := s.config.generatedName_injective generated
      omega
    · rw [name] at called
      have := s.config.generatedName_injective called
      omega
  · intro id var isVar place type called
    obtain ⟨n, drawn, generated⟩ := sound.drawn id var scope isVar type (place ▸ found)
      (by rw [called]; exact s.config.isGenerated_generatedName _)
    rw [called] at generated
    have := s.config.generatedName_injective generated
    omega

theorem Sound.unused_of_free (sound : s.Sound) (below : 0 < s.current) {name : String}
    (plain : s.config.isGenerated name = false) (free : s.scopes.lookup s.current name = none) : s.Unused name := by
  constructor
  · rintro id child there parent rfl
    obtain ⟨scope, found⟩ := exists_of_lt_size sound.current
    rcases sound.child id s.current child scope there parent below found with
      ⟨owner, var, isVar, _, place, called⟩ | ⟨⟨n, _, called⟩, _⟩
    · rw [place] at parent
      have bound := (sound.declared owner var isVar).2.2
      rw [Option.some.inj parent, ← called, free] at bound
      cases bound
    · rw [called, s.config.isGenerated_generatedName] at plain
      cases plain
  · rintro id var isVar place _ rfl
    have bound := (sound.declared id var isVar).2.2
    rw [place, free] at bound
    cases bound

end State

end ScoreScript
