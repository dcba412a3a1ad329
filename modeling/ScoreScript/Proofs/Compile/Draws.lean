import ScoreScript.Proofs.Compile.Effects

/-!
# Drawn names

A generated name is drawn from the counter of a scope, and a new scope starts to count where the scope
around it stands. The tree of the scopes notes each name with what it stands for when it is drawn.
`Cautious` says of a step that every name it draws stands for nothing where it is drawn, and that it
leaves alone all scopes but the current one.
-/

namespace ScoreScript

open ScopeTree Fault

/-- No name that was drawn stood for anything then, neither in the scope it was drawn in nor through
those around it. -/
def ScopeTree.DrewFresh (tree : ScopeTree) : Prop :=
  ∀ draw ∈ tree.draws, draw.stoodFor = none

/-! ## Scopes that are left alone -/

variable {scope : Scope}

namespace Scope

/-- The same scope, except that it may have become a unit. -/
structure Same (scope later : Scope) : Prop where
  parent : later.parent = scope.parent
  names : later.names = scope.names
  drawn : later.drawn = scope.drawn

theorem Same.refl (scope : Scope) : scope.Same scope :=
  ⟨rfl, rfl, rfl⟩

theorem Same.trans {later last : Scope} (first : scope.Same later) (second : later.Same last) : scope.Same last :=
  ⟨second.parent.trans first.parent, second.names.trans first.names, second.drawn.trans first.drawn⟩

/-- Changes of a scope that may follow each other, none at all among them. -/
structure AreChanges (change : Scope → Scope → Prop) : Prop where
  same : ∀ {scope later : Scope}, scope.Same later → change scope later
  trans : ∀ {scope later last : Scope}, change scope later → change later last → change scope last

theorem areChanges_same : AreChanges Same :=
  ⟨id, Same.trans⟩

def Stays (scope later : Scope) : Prop :=
  later.parent = scope.parent

theorem areChanges_stays : AreChanges Stays :=
  ⟨Same.parent, fun first second => Eq.trans second first⟩

def KeepsNames (scope later : Scope) : Prop :=
  later.parent = scope.parent ∧ later.names = scope.names

theorem areChanges_keepsNames : AreChanges KeepsNames :=
  ⟨fun same => ⟨same.parent, same.names⟩, fun first second => ⟨second.1.trans first.1, second.2.trans first.2⟩⟩

/-- Names may be drawn and bound, but no generated name that is still to be drawn. -/
structure Counts (config : Config) (scope later : Scope) : Prop where
  parent : later.parent = scope.parent
  drawn : scope.drawn ≤ later.drawn
  undrawn : ∀ n, later.drawn ≤ n → later.find? (config.generatedName n) = scope.find? (config.generatedName n)

theorem areChanges_counts (config : Config) : AreChanges (Counts config) where
  same := fun same =>
    ⟨same.parent, Nat.le_of_eq same.drawn.symm, fun _ _ => by rw [find?, find?, same.names]⟩
  trans := fun first second =>
    ⟨second.parent.trans first.parent, Nat.le_trans first.drawn second.drawn, fun n undrawn =>
      (second.undrawn n undrawn).trans (first.undrawn n (Nat.le_trans second.drawn undrawn))⟩

def withName (scope : Scope) (name : String) (var : VarId) : Scope :=
  { scope with names := scope.names ++ [(name, var)] }

theorem counts_withName {config : Config} {name : String} (drawn : ∀ n, scope.drawn ≤ n → name ≠ config.generatedName n)
    (var : VarId) : scope.Counts config (scope.withName name var) := by
  refine ⟨rfl, Nat.le_refl _, fun n undrawn => ?_⟩
  rw [find?, find?, withName, List.lookup_append, List.lookup_cons, List.lookup_nil,
    beq_eq_false_iff_ne.mpr (drawn n undrawn).symm, Option.or_none]

end Scope

theorem ScopeTree.Rooted.resolve_eq_none_iff {tree : ScopeTree} (rooted : tree.Rooted) {id : Nat}
    (found : tree.scopes[id]? = some scope) {name : String} : tree.resolve id name = none ↔
      scope.find? name = none ∧ ∀ outer, scope.parent = some outer → tree.resolve outer name = none := by
  cases parent : scope.parent with
  | none =>
    have first : id = 0 := by
      rcases Nat.eq_zero_or_pos id with first | positive
      · exact first
      · obtain ⟨_, inside, _⟩ := rooted.parent id scope found positive
        rw [parent] at inside
        cases inside
    subst first
    rw [ScopeTree.resolve, ancestry_root rooted found]
    simp
  | some outer =>
    rw [resolve_of_parent rooted found parent (rooted.lt_of_parent found parent)]
    simp

namespace State

/-- The settings stay, and so do all scopes but the current one, which changes as given. New scopes
may be added. -/
structure Confined (change : Scope → Scope → Prop) (s t : State) : Prop where
  config : t.config = s.config
  current : t.current = s.current
  rooted : s.scopes.Rooted → t.scopes.Rooted
  elsewhere : ∀ (id : Nat) (scope : Scope), id ≠ s.current → s.scopes.scopes[id]? = some scope →
    ∃ later, t.scopes.scopes[id]? = some later ∧ scope.Same later
  here : ∀ scope, s.scopes.scopes[s.current]? = some scope →
    ∃ later, t.scopes.scopes[s.current]? = some later ∧ change scope later

namespace Confined

variable {change : Scope → Scope → Prop} {s t u : State}

theorem mono {change' : Scope → Scope → Prop} (confined : Confined change s t)
    (weaker : ∀ {scope later : Scope}, change scope later → change' scope later) : Confined change' s t := by
  refine { confined with here := fun scope found => ?_ }
  obtain ⟨later, there, changed⟩ := confined.here scope found
  exact ⟨later, there, weaker changed⟩

section

variable (changes : Scope.AreChanges change)
include changes

theorem trans (first : Confined change s t) (second : Confined change t u) : Confined change s u where
  config := second.config.trans first.config
  current := second.current.trans first.current
  rooted := fun rooted => second.rooted (first.rooted rooted)
  elsewhere := by
    intro id scope other found
    obtain ⟨later, there, same⟩ := first.elsewhere id scope other found
    obtain ⟨last, there', same'⟩ := second.elsewhere id later (first.current ▸ other) there
    exact ⟨last, there', same.trans same'⟩
  here := by
    intro scope found
    obtain ⟨later, there, changed⟩ := first.here scope found
    obtain ⟨last, there', changed'⟩ := second.here later (by rw [first.current, there])
    exact ⟨last, first.current ▸ there', changes.trans changed changed'⟩

theorem of_same (config : t.config = s.config) (current : t.current = s.current)
    (rooted : s.scopes.Rooted → t.scopes.Rooted)
    (same : ∀ (id : Nat) (scope : Scope), s.scopes.scopes[id]? = some scope →
      ∃ later, t.scopes.scopes[id]? = some later ∧ scope.Same later) : Confined change s t where
  config := config
  current := current
  rooted := rooted
  elsewhere := fun id scope _ => same id scope
  here := by
    intro scope found
    obtain ⟨later, there, same⟩ := same s.current scope found
    exact ⟨later, there, changes.same same⟩

theorem of_scopes (config : t.config = s.config) (current : t.current = s.current)
    (scopes : t.scopes.scopes = s.scopes.scopes) : Confined change s t :=
  of_same changes config current (ScopeTree.Calm.of_scopes scopes).rooted
    (fun _ scope found => ⟨scope, scopes ▸ found, .refl scope⟩)

theorem refl (s : State) : Confined change s s :=
  of_scopes changes rfl rfl rfl

end

theorem size_le (confined : Confined change s t) : s.scopes.size ≤ t.scopes.size := by
  refine size_le_of_getElem? (fun i scope found => ?_)
  by_cases here : i = s.current
  · obtain ⟨later, there, _⟩ := confined.here scope (here ▸ found)
    exact ⟨later, here ▸ there⟩
  · obtain ⟨later, there, _⟩ := confined.elsewhere _ scope here found
    exact ⟨later, there⟩

theorem inside {change' : Scope → Scope → Prop} (changes : Scope.AreChanges change)
    (confined : Confined change s t) {scope : ScopeId} (new : s.scopes.size ≤ scope)
    (within : Confined change' { t with current := scope } u) :
    Confined change s { u with current := t.current } := by
  have kept {id : Nat} {old later : Scope} (found : s.scopes.scopes[id]? = some old)
      (there : t.scopes.scopes[id]? = some later) :
      ∃ last, u.scopes.scopes[id]? = some last ∧ later.Same last := by
    have before := lt_size_of_getElem? found
    have other : id ≠ scope := Nat.ne_of_lt (Nat.lt_of_lt_of_le before new)
    exact within.elsewhere id later other there
  refine { config := within.config.trans confined.config, current := confined.current
           rooted := fun rooted => within.rooted (confined.rooted rooted)
           elsewhere := ?elsewhere, here := ?here }
  case elsewhere =>
    intro id old other found
    obtain ⟨later, there, same⟩ := confined.elsewhere id old other found
    obtain ⟨last, there', same'⟩ := kept found there
    exact ⟨last, there', same.trans same'⟩
  case here =>
    intro old found
    obtain ⟨later, there, changed⟩ := confined.here old found
    obtain ⟨last, there', same⟩ := kept found there
    exact ⟨last, there', changes.trans changed (changes.same same)⟩

theorem resolve_eq (confined : Confined change s t) (rooted : s.scopes.Rooted) (name : String) {id : Nat}
    (around : id < s.current) (inside : id < s.scopes.size) : t.scopes.resolve id name = s.scopes.resolve id name := by
  refine resolve_congr rooted (confined.rooted rooted) name inside ?_
  intro i scope smaller found
  obtain ⟨later, there, same⟩ :=
    confined.elsewhere i scope (Nat.ne_of_lt (Nat.lt_of_le_of_lt smaller around)) found
  exact ⟨later, there, same.parent, by rw [Scope.find?, Scope.find?, same.names]⟩

theorem resolve_eq_of_keepsNames (confined : Confined Scope.KeepsNames s t) (rooted : s.scopes.Rooted) (name : String)
    {id : Nat} (inside : id < s.scopes.size) : t.scopes.resolve id name = s.scopes.resolve id name := by
  refine resolve_congr rooted (confined.rooted rooted) name inside ?_
  intro i scope _ found
  by_cases here : i = s.current
  · subst here
    obtain ⟨later, there, parent, names⟩ := confined.here scope found
    exact ⟨later, there, parent, by rw [Scope.find?, Scope.find?, names]⟩
  · obtain ⟨later, there, same⟩ := confined.elsewhere i scope here found
    exact ⟨later, there, same.parent, by rw [Scope.find?, Scope.find?, same.names]⟩

/-! ## Single changes -/

theorem draw (found : s.scopes.scopes[s.current]? = some scope)
    (drawn : change scope { scope with drawn := scope.drawn + 1 }) : Confined change s s.draw where
  config := rfl
  current := rfl
  rooted := fun rooted => rooted_draw rooted _ _
  elsewhere := by
    intro id other distinct there
    exact ⟨other, by simp [State.draw, Ne.symm distinct, there], .refl other⟩
  here := by
    intro old there
    rw [found] at there
    cases there
    exact ⟨_, Compile.scope_draw found, drawn⟩

theorem nest (changes : Scope.AreChanges change) {outer : Nat} {outerScope : Scope}
    (inside : outer < s.scopes.size) (name : String) : Confined change s (s.nest outer outerScope name) := by
  refine of_same changes rfl rfl (fun rooted => rooted_addScope rooted rfl inside) ?_
  intro id scope found
  refine ⟨scope, ?_, .refl scope⟩
  exact (ScopeTree.getElem?_addScope_of_lt _ (lt_size_of_getElem? found)).trans found

theorem mark (changes : Scope.AreChanges change) (s : State) (id : Nat) :
    Confined change s { s with
      scopes := s.scopes.modifyScope id (fun scope => { scope with isUnit := true }) } := by
  refine of_same changes rfl rfl (fun rooted => rooted_modifyScope rooted _ _ (fun _ => rfl) (fun _ => rfl)) ?_
  intro i scope found
  by_cases same : id = i
  · exact ⟨{ scope with isUnit := true }, by simp [same, found], rfl, rfl, rfl⟩
  · exact ⟨scope, by simp [same, found], .refl scope⟩

theorem enterVar (found : s.scopes.scopes[s.current]? = some scope) {var : Variable}
    (bound : change scope (scope.withName var.name s.vars.size)) : Confined change s (s.enterVar var) where
  config := rfl
  current := rfl
  rooted := rooted_enterVar
  elsewhere := by
    intro id other distinct there
    refine ⟨other, ?_, .refl other⟩
    simp [State.enterVar, ScopeTree.enter, bindName, Ne.symm distinct, there]
  here := by
    intro old there
    rw [found] at there
    cases there
    refine ⟨_, ?_, bound⟩
    simp [State.enterVar, ScopeTree.enter, bindName, found, Scope.withName]

end Confined

/-- At most names are drawn and bound in the current scope, but none that is still to be drawn. -/
abbrev CountsOn (s : State) : State → Prop :=
  s.Confined (Scope.Counts s.config)

/-- The generated names that are still to be drawn in the current scope stand for nothing there. -/
structure Counting (s : State) : Prop where
  rooted : s.scopes.Rooted
  undrawn : ∃ scope, s.scopes.scopes[s.current]? = some scope ∧
    ∀ n, scope.drawn ≤ n → s.scopes.resolve s.current (s.config.generatedName n) = none

def outline (s : State) : Array Scope × List Draw × Config × ScopeId :=
  (s.scopes.scopes, s.scopes.draws, s.config, s.current)

private theorem outline_eq {s t : State} (same : t.outline = s.outline) : t.scopes.scopes = s.scopes.scopes ∧
    t.scopes.draws = s.scopes.draws ∧ t.config = s.config ∧ t.current = s.current := by
  simpa only [outline, Prod.mk.injEq] using same

namespace Counting

variable {s t : State}

theorem inside (counting : s.Counting) : s.current < s.scopes.size := by
  obtain ⟨scope, found, _⟩ := counting.undrawn
  exact lt_size_of_getElem? found

theorem confined (counting : s.Counting) (confined : s.CountsOn t) : t.Counting := by
  obtain ⟨scope, found, undrawn⟩ := counting.undrawn
  obtain ⟨later, there, counts⟩ := confined.here scope found
  have rooted := confined.rooted counting.rooted
  refine ⟨rooted, later, confined.current ▸ there, fun n isUndrawn => ?_⟩
  rw [confined.config, confined.current]
  have before := undrawn n (Nat.le_trans counts.drawn isUndrawn)
  obtain ⟨own, around⟩ := (counting.rooted.resolve_eq_none_iff found).mp before
  refine (rooted.resolve_eq_none_iff there).mpr ⟨(counts.undrawn n isUndrawn).trans own, ?_⟩
  intro outer parent
  rw [counts.parent] at parent
  have below := counting.rooted.lt_of_parent found parent
  rw [confined.resolve_eq counting.rooted _ below (Nat.lt_trans below (lt_size_of_getElem? found))]
  exact around outer parent

private theorem drewFresh (counting : s.Counting) (fresh : s.scopes.DrewFresh) : s.draw.scopes.DrewFresh := by
  obtain ⟨scope, found, undrawn⟩ := counting.undrawn
  refine List.forall_mem_append.mpr ⟨fresh, List.forall_mem_singleton.mpr ?_⟩
  rw [found]
  exact undrawn _ (Nat.le_refl _)

end Counting

end State

namespace Compile

open State

variable {α β : Type}

def Cautious (always : State → Prop) (s : State) (step : Compile α) (post : α → State → Prop) : Prop :=
  (s.scopes.DrewFresh → (step.runFrom s).2.scopes.DrewFresh) ∧ Leads s step always post

variable {change : Scope → Scope → Prop} {next : α → Compile β}

namespace Cautious

variable {always : State → Prop} {s : State} {step : Compile α} {post : α → State → Prop}

theorem mono {always' : State → Prop} {post' : α → State → Prop} (cautious : Cautious always s step post)
    (states : ∀ t, always t → always' t) (results : ∀ a t, post a t → post' a t) : Cautious always' s step post' :=
  ⟨cautious.1, cautious.2.mono states results⟩

theorem keep (cautious : Cautious always s step post) : Cautious always s step (fun a t => always t ∧ post a t) :=
  ⟨cautious.1, cautious.2.1, fun a succeeded => ⟨cautious.2.1, cautious.2.2 a succeeded⟩⟩

theorem bind {m : α → State → Prop} {post : β → State → Prop} (first : Cautious always s step m)
    (rest : ∀ a t, always t → m a t → Cautious always t (next a) post) : Cautious always s (step >>= next) post := by
  obtain ⟨fresh, leads⟩ := first
  rcases leads.cases with ⟨a, t, ran, holds, result⟩ | ⟨fault, t, ran, holds⟩
  · obtain ⟨fresh', leads'⟩ := rest a t holds result
    rw [ran] at fresh
    exact ⟨fun before => runFrom_bind_ok ran _ ▸ fresh' (fresh before), .ok_bind ran leads'⟩
  · rw [ran] at fresh
    exact ⟨fun before => runFrom_bind_error ran next ▸ fresh before, .of_error (runFrom_bind_error ran next) holds⟩

theorem attempt {post : Except Fault α → State → Prop} (cautious : Cautious always s step (fun a t => post (.ok a) t))
    (failed : ∀ fault t, always t → post (.error fault) t) : Cautious always s (Compile.attempt step) post := by
  obtain ⟨fresh, leads⟩ := cautious
  refine ⟨fresh, ?_⟩
  rcases leads.cases with ⟨a, t, ran, holds, result⟩ | ⟨fault, t, ran, holds⟩
  · exact .of_ok (by rw [runFrom_attempt, ran]) holds result
  · exact .of_ok (by rw [runFrom_attempt, ran]) holds (failed fault t holds)

theorem inScope {scope : ScopeId} (cautious : Cautious (fun t => always { t with current := s.current })
      { s with current := scope } step (fun a t => post a { t with current := s.current })) :
    Cautious always s (Compile.inScope scope step) post :=
  cautious

theorem of_draws (same : (step.runFrom s).2.scopes.draws = s.scopes.draws) (leads : Leads s step always post) :
    Cautious always s step post :=
  ⟨fun fresh draw mem => fresh draw (same ▸ mem), leads⟩

theorem reads_bind (holds : always s) (same : (step.runFrom s).2 = s) {post : β → State → Prop}
    (rest : ∀ a, (step.runFrom s).1 = .ok a → Cautious always s (next a) post) :
    Cautious always s (step >>= next) post := by
  refine bind (m := fun a t => (step.runFrom s).1 = .ok a ∧ t = s) ?_ ?_
  · exact of_draws (by rw [same]) ⟨by rw [same]; exact holds, fun a succeeded => ⟨succeeded, same⟩⟩
  · rintro a _ _ ⟨succeeded, rfl⟩
    exact rest a succeeded

theorem get_bind (holds : always s) {next : State → Compile β} {post : β → State → Prop}
    (rest : Cautious always s (next s) post) : Cautious always s (get >>= next) post := by
  refine reads_bind holds rfl ?_
  rintro _ ⟨⟩
  exact rest

theorem pure (holds : always s) {a : α} (result : post a s) : Cautious always s (Pure.pure a) post :=
  of_draws rfl (.of_ok rfl holds result)

theorem throw (holds : always s) (fault : Fault) : Cautious always s (MonadExcept.throw fault : Compile α) post :=
  of_draws rfl (.of_error rfl holds)

theorem draw (counting : s.Counting) : Cautious s.CountsOn s
      (onScopes (ScopeTree.nextAnonymous s.current s.config.anonymousPrefix))
      (fun name t => t = s.draw ∧ ∃ scope, s.scopes.scopes[s.current]? = some scope ∧
        name = s.config.generatedName scope.drawn) := by
  obtain ⟨scope, found, _⟩ := counting.undrawn
  have ran := runFrom_nextAnonymous found
  have counts : scope.Counts s.config { scope with drawn := scope.drawn + 1 } :=
    ⟨rfl, Nat.le_succ _, fun _ _ => rfl⟩
  refine ⟨fun fresh => ?_, .of_ok ran (.draw found counts) ⟨rfl, scope, found, rfl⟩⟩
  rw [ran]
  exact counting.drewFresh fresh

theorem nest {outer : Nat} {outerScope : Scope} (found : s.scopes.scopes[outer]? = some outerScope) (name : String)
    (holds : always (s.nest outer outerScope name)) : Cautious always s (onScopes (ScopeTree.createChild outer name))
      (fun child t => child = s.scopes.size ∧ t = s.nest outer outerScope name) := by
  have ran : (onScopes (createChild outer name)).runFrom s = _ := runFrom_createChild found
  exact of_draws (by rw [ran]; rfl) (.of_ok ran holds ⟨rfl, rfl⟩)

theorem after (changes : Scope.AreChanges change) {base : State} (confined : base.Confined change s)
    (cautious : Cautious (s.Confined change) s step post) : Cautious (base.Confined change) s step post :=
  cautious.mono (fun _ later => confined.trans changes later) (fun _ _ => id)

end Cautious

/-- The step leaves alone all scopes and the settings, and draws no name. -/
def KeepsScopes (step : Compile α) : Prop :=
  ∀ s, (step.runFrom s).2.outline = s.outline

namespace KeepsScopes

theorem lift (outcome : Except Fault α) : KeepsScopes (liftM outcome : Compile α) :=
  fun _ => rfl

theorem get : KeepsScopes get :=
  fun _ => rfl

variable {step : Compile α}

theorem bind (first : KeepsScopes step) (rest : ∀ a, KeepsScopes (next a)) : KeepsScopes (step >>= next) := by
  intro s
  have middle := first s
  rw [runFrom_bind]
  rcases ran : step.runFrom s with ⟨fault | a, t⟩
  · rw [ran] at middle
    exact middle
  · rw [ran] at middle
    exact (rest a t).trans middle

theorem modify {change : State → State} (outline : ∀ s, (change s).outline = s.outline) : KeepsScopes (modify change) :=
  outline

theorem cautious (keeps : KeepsScopes step) (changes : Scope.AreChanges change) (s : State) :
    Cautious (s.Confined change) s step (fun _ _ => True) := by
  obtain ⟨scopes, draws, config, current⟩ := State.outline_eq (keeps s)
  exact .of_draws draws ⟨.of_scopes changes config current scopes, fun _ _ => trivial⟩

end KeepsScopes

end Compile

end ScoreScript
