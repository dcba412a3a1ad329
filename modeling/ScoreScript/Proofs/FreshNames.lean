import ScoreScript.Proofs.Compile.Draws
import ScoreScript.Proofs.Compile.Exchange

/-!
# Generated names are fresh

Each scope has a counter of its own, which starts where that of the scope around it stands. While a
scope is the current one, no name is drawn or bound in the scopes around it, so the names that are
still to be drawn stand for nothing there. A scope that is left is never entered again.
-/

namespace ScoreScript

open Scope Fault ScopeTree

variable {pos : Position} {base s : State} {access : Access} {args : List VarId}
  {what : String} {usage : Usage} {type : ValueType}

namespace Compile

open State

variable {α β : Type}

/-! ## Steps that touch no scope -/

namespace KeepsScopes

variable {id src target : VarId} {criterion text : String} {value : Value}

theorem var : KeepsScopes (var id) := by
  refine .bind .get (fun state => ?_)
  split
  · exact .lift (.ok _)
  · exact .lift (.error _)

theorem modifyVar {change : Variable → Variable} : KeepsScopes (modifyVar id change) :=
  .bind .var (fun _ => .modify (fun _ => rfl))

theorem setValue : KeepsScopes (setValue id value) :=
  .modifyVar

theorem store {src : Operand} : KeepsScopes (store src target pos) := by
  refine .bind .var (fun owner => ?_)
  split
  · exact .lift (.ok _)
  · exact .lift (.ok _)
  · exact .bind .setValue (fun _ => .lift (.ok []))
  · dsimp only
    split
    · exact .lift (.error _)
    · exact .bind .setValue (fun _ => .lift (.ok []))
  · exact .lift (.error _)
  · exact .lift (.error _)
  · exact .lift (.error _)

theorem storeText : KeepsScopes (storeText text target pos) := by
  refine .bind .var (fun owner => ?_)
  dsimp only
  split
  · exact .lift (.error _)
  split
  · exact .lift (.error _)
  · exact .setValue

theorem bindObjective {id : String} : KeepsScopes (bindObjective target id criterion pos) := by
  refine .bind .var (fun owner => ?_)
  dsimp only
  split
  · exact .lift (.error _)
  split
  · exact .bind .setValue (fun _ => .setValue)
  · exact .setValue

theorem rebind : KeepsScopes (rebind src target pos) := by
  have referent : KeepsScopes (referent src pos) := by
    refine .bind .var (fun owner => ?_)
    cases owner.value with
    | objective => exact .lift (.ok _)
    | unset | int | text | register => exact .lift (.error _)
  refine .bind .var (fun owner => ?_)
  dsimp only
  split
  · exact .lift (.error _)
  · refine .bind referent (fun objective => ?_)
    exact .bind .bindObjective (fun _ => .lift (.ok []))

theorem copyTo : KeepsScopes (copyTo src target pos) := by
  have operand : KeepsScopes (operand src pos) := by
    refine .bind .var (fun owner => ?_)
    cases owner.value with
    | int | register => exact .lift (.ok _)
    | unset | text | objective => exact .lift (.error _)
  have textOf : KeepsScopes (textOf src pos) := by
    refine .bind .var (fun owner => ?_)
    cases owner.value with
    | text => exact .lift (.ok _)
    | unset | int | register | objective => exact .lift (.error _)
  refine .bind .var (fun owner => ?_)
  split
  · refine .bind .var (fun owner => ?_)
    dsimp only
    split
    · exact .lift (.error _)
    · exact .bind operand (fun _ => .store)
  · refine .bind .var (fun owner => ?_)
    dsimp only
    split
    · exact .lift (.error _)
    · exact .bind operand (fun _ => .store)
  · exact .bind textOf (fun _ => .bind .storeText (fun _ => .lift (.ok [])))
  · exact .rebind

theorem nextObjective : KeepsScopes nextObjective :=
  .bind .get (fun _ => .bind (.modify (fun _ => rfl)) (fun _ => .lift (.ok _)))

theorem claimObjective {id : String} : KeepsScopes (claimObjective id pos) := by
  refine .bind .get (fun state => ?_)
  split
  · exact .lift (.error _)
  · exact .modify (fun _ => rfl)

private theorem onScopes_scope {id : ScopeId} {next : ScopeTree → Scope → ScopeTree}
    (scopes : ∀ tree scope, (next tree scope).scopes = tree.scopes)
    (draws : ∀ tree scope, (next tree scope).draws = tree.draws) : KeepsScopes (onScopes (do
      let tree ← MonadState.get
      let scope ← tree.scope id
      set (next tree scope))) := by
  intro s
  cases found : s.scopes.scopes[id]? with
  | none =>
    simp only [runFrom_onScopes, run_bind, run_get, ScopeTree.scope, found, run_lift]
  | some scope =>
    simp only [runFrom_onScopes, run_bind, run_get, ScopeTree.scope, found, run_lift, run_set]
    rw [outline, scopes, draws]
    rfl

theorem discard {scope : ScopeId} : KeepsScopes (onScopes (ScopeTree.discard scope)) :=
  onScopes_scope (fun _ _ => rfl) (fun _ _ => rfl)

theorem emit {cmds : List Command} : KeepsScopes (emit cmds) := by
  unfold Compile.emit
  split
  · exact .lift (.ok ())
  · refine .bind .get (fun state => ?_)
    intro s
    cases found : s.scopes.scopes[state.current]? with
    | none =>
      simp only [runFrom_onScopes, ScopeTree.emit, run_bind, run_get, run_set, ScopeTree.scope, found, run_lift]
      rfl
    | some scope =>
      simp only [runFrom_onScopes, ScopeTree.emit, run_bind, run_get, run_set, ScopeTree.scope, found, run_lift]
      rfl

end KeepsScopes

/-! ## New variables -/

variable {change : Scope → Scope → Prop}

private theorem enterVariable_cautious {change : Scope → Scope → Prop} (changes : Scope.AreChanges change)
    {name : String} (binds : ∀ scope, s.scopes.scopes[s.current]? = some scope →
      change scope (scope.withName name s.vars.size)) :
    Cautious (s.Confined change) s (enterVariable type access usage name pos)
      (fun id t => s.current < s.scopes.size ∧ id = s.vars.size ∧
        t = s.enterVar { type, access, usage, name, scope := s.current, position := pos }) := by
  rcases runFrom_enterVariable_any s type access usage name pos with
    ⟨fault, failed, _⟩ | ⟨inside, _, ran⟩
  · exact .of_draws (by rw [failed]) (.of_error failed (.refl changes s))
  · obtain ⟨scope, found⟩ := exists_of_lt_size inside
    refine .of_draws ?_ (.of_ok ran (.enterVar found (binds scope found)) ⟨inside, rfl, rfl⟩)
    rw [ran]
    rfl

private theorem allocate_cautious (changes : Scope.AreChanges change) (confined : base.Confined change s) {id : Nat}
    {var : Variable} {outer : Scope} (found : s.vars[id]? = some var)
    (around : s.scopes.scopes[var.scope]? = some outer) (first : var.inner = none) :
    Cautious (base.Confined change) s (allocate type id) (fun _ _ => True) := by
  have score : KeepsScopes (allocateScore id) := by
    refine .bind .var (fun owner => ?_)
    split
    · exact .lift (.ok ())
    · refine .bind ?_ (fun register => .setValue)
      exact .bind .get (fun state => .bind (.lift _) (fun path => .lift (.ok _)))
  have nested : base.Confined change (s.nest var.scope outer var.name) :=
    confined.trans changes (.nest changes (lt_size_of_getElem? around) _)
  have members : Cautious (base.Confined change) s (innerScope id) (fun inner _ => base.scopes.size ≤ inner) := by
    refine .reads_bind confined (by rw [runFrom_var found]) ?_
    rw [runFrom_var found]
    rintro _ ⟨⟩
    rw [first]
    refine .bind (.nest around _ nested) ?_
    rintro _ _ _ ⟨rfl, rfl⟩
    refine .bind (.after changes nested (KeepsScopes.modifyVar.cautious changes _)) ?_
    exact fun _ t later _ => .pure later confined.size_le
  cases type with
  | int | bool => exact .after changes confined (score.cautious changes s)
  | string => exact .pure confined trivial
  | objective =>
    refine .bind members (fun inner t later new => ?_)
    refine .bind (.after changes later (KeepsScopes.var.cautious changes t)) ?_
    intro owner u later _
    refine .bind (m := fun _ _ => True) (.inScope ?_) ?_
    · refine Cautious.mono (enterVariable_cautious areChanges_stays (fun _ _ => rfl)) ?_ (fun _ _ _ => trivial)
      exact fun v within => later.inside changes new within
    · exact fun field v later _ =>
        .after changes later (KeepsScopes.modifyVar.cautious changes v)

private theorem declareInternal_cautious {change : Scope → Scope → Prop} (changes : Scope.AreChanges change)
    {name : String} (binds : ∀ scope, s.scopes.scopes[s.current]? = some scope →
      change scope (scope.withName name s.vars.size)) {typeName : String} :
    Cautious (s.Confined change) s (declareInternal typeName access usage name pos) (fun _ _ => True) := by
  refine .reads_bind (.refl changes s) rfl (fun type _ => ?_)
  refine .bind (enterVariable_cautious changes binds) ?_
  rintro _ _ confined ⟨inside, rfl, rfl⟩
  obtain ⟨scope, found⟩ := exists_of_lt_size inside
  obtain ⟨later, there, _⟩ := confined.here scope found
  refine .bind (allocate_cautious changes confined (var_enterVar_new s _) there rfl) ?_
  exact fun _ t later _ => .pure later trivial

/-! ## Careful steps -/

def Careful (step : Compile α) : Prop :=
  ∀ s : State, s.Counting → Cautious s.CountsOn s step (fun _ _ => True)

theorem KeepsScopes.careful {step : Compile α} (keeps : KeepsScopes step) : Careful step :=
  fun s _ => keeps.cautious (areChanges_counts s.config) s

namespace Careful

variable {step : Compile α} {typeName : String}

theorem after (careful : Careful step) (counting : base.Counting) (confined : base.CountsOn s) :
    Cautious base.CountsOn s step (fun _ _ => True) := by
  have later := careful s (counting.confined confined)
  rw [CountsOn, confined.config] at later
  exact .after (areChanges_counts base.config) confined later

theorem bind {next : α → Compile β} (first : Careful step) (rest : ∀ a, Careful (next a)) : Careful (step >>= next) :=
  fun s counting => .bind (first s counting) (fun a _ confined _ => (rest a).after counting confined)

theorem attempt (careful : Careful step) : Careful (attempt step) :=
  fun s counting => .attempt (careful s counting) (fun _ _ _ => trivial)

theorem declare {name : String} : Careful (declare typeName access usage name pos) := by
  intro s counting
  have unchanged := State.Confined.refl (areChanges_counts s.config) s
  refine .get_bind unchanged (.reads_bind unchanged rfl (fun _ checked => ?_))
  have plain := (checkName_eq_ok checked).2
  refine declareInternal_cautious (areChanges_counts s.config) ?_
  refine fun scope _ => counts_withName (fun n _ same => ?_) _
  rw [same, s.config.isGenerated_generatedName] at plain
  cases plain

theorem anonymous : Careful (anonymous typeName usage pos) := by
  intro s counting
  have changes := areChanges_counts s.config
  refine .get_bind (.refl changes s) (.bind (.draw counting) ?_)
  rintro _ _ confined ⟨rfl, scope, found, rfl⟩
  refine .after changes confined (declareInternal_cautious changes ?_)
  intro drawn isDrawn
  rw [scope_draw found] at isDrawn
  cases isDrawn
  refine counts_withName (fun n undrawn same => ?_) _
  have := s.config.generatedName_injective same
  exact absurd undrawn (by rw [← this]; exact Nat.not_succ_le_self _)

theorem bindRegister {register : Register} : Careful (bindRegister typeName register pos) :=
  .bind .anonymous (fun id =>
    .bind (KeepsScopes.setValue).careful (fun _ => (KeepsScopes.lift (.ok id)).careful))

theorem constant {value : Value} : Careful (constant type value pos) :=
  .bind .anonymous (fun id =>
    .bind (KeepsScopes.setValue).careful (fun _ => (KeepsScopes.lift (.ok id)).careful))

end Careful

end Compile

/-! ## Scopes to be entered -/

/-- Since a state, a scope was made inside its current scope, where no name stands for anything that is
still to be drawn in the new one. -/
structure State.Offers (base s : State) (scope : ScopeId) : Prop where
  new : base.scopes.size ≤ scope
  empty : ∃ made, s.scopes.scopes[scope]? = some made ∧ made.parent = some base.current ∧ made.names = [] ∧
    ∀ n, made.drawn ≤ n → s.scopes.resolve base.current (base.config.generatedName n) = none

namespace State.Offers

variable {change : Scope → Scope → Prop} {base s t : State} {scope : ScopeId}

private theorem of_nest (confined : base.Confined change s) (counting : s.Counting) {outer : Scope}
    (found : s.scopes.scopes[base.current]? = some outer) (name : String) :
    base.Offers (s.nest base.current outer name) s.scopes.size := by
  obtain ⟨_, there, undrawn⟩ := counting.undrawn
  rw [confined.current, found] at there
  cases there
  refine ⟨confined.size_le, _, ScopeTree.getElem?_addScope_size _ _, rfl, rfl, ?_⟩
  intro n isUndrawn
  have inside := lt_size_of_getElem? found
  have nested : s.Confined Scope.KeepsNames (s.nest base.current outer name) :=
    .nest areChanges_keepsNames inside name
  rw [nested.resolve_eq_of_keepsNames counting.rooted _ inside, ← confined.current, ← confined.config]
  exact undrawn n isUndrawn

section

variable (offers : base.Offers s scope) (begun : base.Counting) (confined : base.Confined change s)
include offers begun confined

theorem kept (later : s.Confined Scope.KeepsNames t) : base.Offers t scope := by
  obtain ⟨made, found, parent, empty, undrawn⟩ := offers.empty
  have other : scope ≠ s.current := by
    rw [confined.current]
    exact Nat.ne_of_gt (Nat.lt_of_lt_of_le begun.inside offers.new)
  obtain ⟨made', there, same⟩ := later.elsewhere scope made other found
  refine ⟨offers.new, made', there, same.parent.trans parent, same.names.trans empty, ?_⟩
  intro n isUndrawn
  rw [later.resolve_eq_of_keepsNames (confined.rooted begun.rooted) _
    (Nat.lt_of_lt_of_le begun.inside confined.size_le)]
  exact undrawn n (same.drawn ▸ isUndrawn)

theorem inside {change' : Scope → Scope → Prop} {other : ScopeId} (new : base.scopes.size ≤ other)
    (distinct : scope ≠ other) (within : Confined change' { s with current := other } t) :
    base.Offers { t with current := s.current } scope := by
  obtain ⟨made, found, parent, empty, undrawn⟩ := offers.empty
  obtain ⟨made', there, same⟩ := within.elsewhere scope made distinct found
  refine ⟨offers.new, made', there, same.parent.trans parent, same.names.trans empty, ?_⟩
  intro n isUndrawn
  have unchanged := within.resolve_eq (confined.rooted begun.rooted) (base.config.generatedName n)
    (Nat.lt_of_lt_of_le begun.inside new) (Nat.lt_of_lt_of_le begun.inside confined.size_le)
  exact unchanged.trans (undrawn n (same.drawn ▸ isUndrawn))

theorem counting : ({ s with current := scope } : State).Counting := by
  obtain ⟨made, found, parent, empty, undrawn⟩ := offers.empty
  have rooted := confined.rooted begun.rooted
  refine ⟨rooted, made, found, fun n isUndrawn => ?_⟩
  refine (rooted.resolve_eq_none_iff found).mpr ⟨by rw [find?, empty]; rfl, ?_⟩
  intro outer isOuter
  rw [parent] at isOuter
  cases isOuter
  have free := undrawn n isUndrawn
  rwa [← confined.config] at free

end

end State.Offers

namespace Compile

open State

variable {α β : Type}

theorem Cautious.child_bind (counting : base.Counting)
    (confined : base.CountsOn s) {next : ScopeId → Compile β} {post : β → State → Prop}
    (rest : ∀ scope t, base.CountsOn t → s.Confined Scope.KeepsNames t →
      scope = s.scopes.size → t.scopes.size = scope + 1 → base.Offers t scope →
      Cautious base.CountsOn t (next scope) post) :
    Cautious base.CountsOn s (do
      let name ← onScopes (ScopeTree.nextAnonymous base.current base.config.anonymousPrefix)
      let scope ← onScopes (ScopeTree.createChild base.current name)
      next scope) post := by
  have changes := areChanges_counts base.config
  have here := counting.confined confined
  have draw := Cautious.draw here
  rw [CountsOn, confined.config, confined.current] at draw
  refine .bind (.after changes confined draw) ?_
  rintro _ _ drawn ⟨rfl, scope, found, rfl⟩
  have there : s.draw.scopes.scopes[base.current]? = some { scope with drawn := scope.drawn + 1 } := by
    rw [← confined.current]
    exact scope_draw (by rw [confined.current, found])
  have counting' := counting.confined drawn
  have named : s.Confined Scope.KeepsNames s.draw :=
    .draw (by rw [confined.current, found]) ⟨rfl, rfl⟩
  have inside := lt_size_of_getElem? there
  refine .bind (.nest there _ (drawn.trans changes (.nest changes inside _))) ?_
  rintro _ _ nested ⟨rfl, rfl⟩
  refine rest _ _ nested ?_ (size_modifyScope _ _ _) (size_addScope _ _) ?_
  · exact named.trans areChanges_keepsNames (.nest areChanges_keepsNames inside _)
  · exact .of_nest drawn counting' there _

/-! ## Units -/

private theorem addUnit_cautious {scope : ScopeId} :
    Cautious (s.Confined Scope.Same) s (addUnit scope pos) (fun _ _ => True) := by
  have marks : Cautious (s.Confined Scope.Same) s (onScopes (ScopeTree.markUnit scope)) (fun _ _ => True) := by
    cases found : s.scopes.scopes[scope]? with
    | none =>
      have ran : (onScopes (ScopeTree.markUnit scope)).runFrom s = (.error ⟨.unknownScope scope, default⟩, s) := by
        simp only [runFrom_onScopes, ScopeTree.markUnit, run_bind, run_get,
          ScopeTree.scope, found, run_lift]
      exact .of_draws (by rw [ran]) (.of_error ran (.refl areChanges_same s))
    | some made =>
      have ran : (onScopes (ScopeTree.markUnit scope)).runFrom s = (.ok (), { s with
          scopes := s.scopes.modifyScope scope (fun scope => { scope with isUnit := true }) }) := by
        simp only [runFrom_onScopes, ScopeTree.markUnit, run_bind, run_get,
          ScopeTree.scope, found, run_lift, run_set]
      refine .of_draws ?_ (.of_ok ran (.mark areChanges_same s scope) trivial)
      rw [ran]
      rfl
  refine .bind marks (fun _ t marked _ => .after areChanges_same marked ?_)
  refine KeepsScopes.cautious (.bind .get (fun _ => .bind (.lift _) (fun path => ?_))) areChanges_same t
  exact .bind (.modify (fun _ => rfl)) (fun _ => .lift (.ok path))

private theorem openUnit_cautious (counting : s.Counting) :
    Cautious s.CountsOn s (openUnit pos) (fun unit t => s.Offers t unit.2) := by
  have changes := areChanges_counts s.config
  refine .get_bind (.refl changes s) (.child_bind counting (.refl changes s) ?_)
  rintro scope t nested _ rfl _ offers
  refine .bind (m := fun _ u => s.Offers u s.scopes.size) ?_ (fun _ _ later offers => .pure later offers)
  refine addUnit_cautious.keep.mono (fun u same => nested.trans changes (same.mono changes.same)) ?_
  rintro _ u ⟨same, _⟩
  exact offers.kept counting nested (same.mono Scope.areChanges_keepsNames.same)

theorem Careful.inUnit {body : Compile Unit} (careful : Careful body) (pos : Position) :
    Careful (inUnit pos body) := by
  intro s counting
  refine .bind (openUnit_cautious counting) (fun unit t confined offers => ?_)
  refine .bind (m := fun _ _ => True) (.inScope ?_) (fun _ _ later _ => .pure later trivial)
  refine (careful _ (offers.counting counting confined)).mono (fun u within => ?_) (fun _ _ _ => trivial)
  exact confined.inside (areChanges_counts s.config) offers.new within

/-! ## Parameters -/

theorem onScopes_bind (edit : ScopeTree.Edit α) (next : α → ScopeTree.Edit β) :
    onScopes (edit >>= next) = onScopes edit >>= fun a => onScopes (next a) := by
  funext s
  change (onScopes (edit >>= next)).runFrom s = (onScopes edit >>= fun a => onScopes (next a)).runFrom s
  rw [runFrom_bind, runFrom_onScopes, runFrom_onScopes, run_bind]
  rcases edit.run.run s.scopes with ⟨fault | a, tree⟩
  · rfl
  · rfl

private theorem createChildren_cautious (counting : base.Counting) {count : Nat} (confined : base.CountsOn s) :
    Cautious base.CountsOn s (onScopes (ScopeTree.createChildren base.current base.config.anonymousPrefix count))
      (fun scopes t => s.Confined Scope.KeepsNames t ∧ scopes.length = count ∧ scopes.Nodup ∧
        ∀ scope ∈ scopes, s.scopes.size ≤ scope ∧ base.Offers t scope) := by
  have changes := areChanges_keepsNames
  induction count generalizing s with
  | zero =>
    refine .of_draws rfl (.of_ok rfl confined ⟨.refl changes s, rfl, List.nodup_nil, ?_⟩)
    exact fun _ mem => absurd mem List.not_mem_nil
  | succ count ih =>
    rw [ScopeTree.createChildren]
    simp only [onScopes_bind]
    refine .child_bind counting confined ?_
    rintro scope t nested named rfl size offers
    refine .bind (ih nested) ?_
    rintro scopes u later ⟨named', length, nodup, offered⟩
    refine .of_draws rfl (.of_ok rfl later ⟨named.trans changes named', congrArg Nat.succ length, ?_, ?_⟩)
    · refine List.nodup_cons.mpr ⟨fun mem => ?_, nodup⟩
      have := (offered _ mem).1
      omega
    · intro scope mem
      rcases List.mem_cons.mp mem with rfl | mem
      · exact ⟨Nat.le_refl _, offers.kept counting nested named'⟩
      · exact ⟨by have := (offered scope mem).1; omega, (offered scope mem).2⟩

private theorem bindParams_cautious (counting : s.Counting) (casts : ∀ pairs, Careful (castAll pos pairs))
    {params : List Param} :
    Cautious (s.Confined Scope.Stays) s (bindParams what params args pos) (fun _ _ => True) := by
  have changes := areChanges_stays
  have declares (pairs : List (Param × VarId)) (t : State) :
      Cautious (t.Confined Scope.Stays) t (declareParams pos pairs) (fun _ _ => True) := by
    induction pairs generalizing t with
    | nil => exact .pure (.refl changes t) trivial
    | cons pair pairs ih =>
      refine .bind (declareInternal_cautious changes (fun _ _ => rfl)) (fun id u declared _ => ?_)
      refine .bind (.after changes declared (KeepsScopes.copyTo.cautious changes u)) ?_
      intro cmds v copied _
      refine .bind (.after changes copied (KeepsScopes.emit.cautious changes v)) ?_
      intro _ w emitted _
      exact .bind (.after changes emitted (ih w)) (fun _ _ later _ => .pure later trivial)
  unfold bindParams
  dsimp only
  split
  · exact .throw (.refl changes s) _
  refine .bind ((casts _ s counting).mono (fun t confined => confined.mono Scope.Counts.parent) (fun _ _ => id)) ?_
  exact fun values t confined _ => .after changes confined (declares _ t)

private theorem tryOverloads_cautious (counting : base.Counting) (casts : ∀ pairs, Careful (castAll pos pairs))
    {index : Nat} {fitting : Bool} {overloads : List (List Param × ScopeId)} (confined : base.CountsOn s)
    (distinct : (overloads.map Prod.snd).Nodup) (offers : ∀ scope ∈ overloads.map Prod.snd, base.Offers s scope) :
    Cautious base.CountsOn s (tryOverloads what args pos index fitting overloads) (fun _ _ => True) := by
  have changes := areChanges_counts base.config
  induction overloads generalizing index fitting s with
  | nil => exact .pure confined trivial
  | cons overload rest ih =>
    obtain ⟨params, scope⟩ := overload
    obtain ⟨apart, distinct⟩ := List.nodup_cons.mp distinct
    have offered := offers scope List.mem_cons_self
    have tried : Cautious (fun t => base.CountsOn t ∧
          ∀ other ∈ rest.map Prod.snd, base.Offers t other) s
        (attempt (Compile.inScope scope (bindParams what params args pos)))
        (fun _ _ => True) := by
      refine .attempt (.inScope ?_) (fun _ _ _ => trivial)
      refine (bindParams_cautious (offered.counting counting confined) casts).mono ?_ (fun _ _ _ => trivial)
      refine fun t within => ⟨confined.inside changes offered.new within, fun other mem => ?_⟩
      have waiting := offers other (List.mem_cons_of_mem _ mem)
      refine waiting.inside counting confined offered.new ?_ within
      exact fun same => apart (same ▸ mem)
    refine .bind (tried.keep.mono (fun _ => And.left) (fun _ _ => And.left)) ?_
    rintro outcome t before ⟨_, waiting⟩
    have next (fitting : Bool) : Cautious base.CountsOn t (do
        onScopes (ScopeTree.discard scope)
        tryOverloads what args pos (index + 1) fitting rest) (fun _ _ => True) := by
      refine .bind (m := fun _ u => t.Confined Scope.Same u) ?_ (fun _ u later same => ?_)
      · exact (KeepsScopes.discard.cautious areChanges_same t).keep.mono
          (fun u same => before.trans changes (same.mono changes.same)) (fun _ _ => And.left)
      · refine ih later distinct (fun other mem => ?_)
        exact (waiting other mem).kept counting before (same.mono Scope.areChanges_keepsNames.same)
    cases outcome with
    | ok bound => exact .pure before trivial
    | error fault =>
      dsimp only
      split
      · exact next fitting
      · exact next true
      · exact .throw before fault

theorem Careful.select (casts : ∀ pairs, Careful (castAll pos pairs)) {overloads : List (List Param)} :
    Careful (select what overloads args pos) := by
  intro s counting
  have changes := areChanges_counts s.config
  have describes (ids : List VarId) : KeepsScopes (describeTypes ids) := by
    induction ids with
    | nil => exact .lift (.ok [])
    | cons id ids ih => exact .bind .var (fun _ => .bind ih (fun _ => .lift (.ok _)))
  refine .bind (.get_bind (.refl changes s) (createChildren_cautious counting (.refl changes s))) ?_
  rintro scopes t confined ⟨_, length, distinct, offered⟩
  have each : (overloads.zip scopes).map Prod.snd = scopes :=
    List.map_snd_zip (Nat.le_of_eq length)
  refine .bind (tryOverloads_cautious counting casts confined (each.symm ▸ distinct)
    (fun scope mem => (offered scope (each ▸ mem)).2)) ?_
  rintro (fits | chosen) u later _
  · cases fits with
    | true =>
      refine .bind (.after changes later ((describes args).cautious changes u)) ?_
      exact fun _ _ later _ => .throw later _
    | false => exact .throw later _
  · exact .pure later trivial

theorem Composed.careful {step : Position → Compile α} {post : α → Prop}
    (composed : Composed (.still False) step post) (pos : Position) : Careful (step pos) := by
  induction composed with
  | known => exact (KeepsScopes.lift _).careful
  | get_bind _ _ rest => exact KeepsScopes.get.careful.bind (fun s => rest s False.elim)
  | var_bind _ _ _ rest => exact KeepsScopes.var.careful.bind (fun var => rest var False.elim)
  | bind _ _ first rest => exact first.bind (fun a => rest a False.elim)
  | recover _ _ ok error tries falls =>
    refine tries.attempt.bind (fun outcome => ?_)
    cases outcome with
    | ok a =>
      rw [ok]
      exact (KeepsScopes.lift (.ok a)).careful
    | error fault =>
      rw [error]
      split
      · exact falls
      · exact (KeepsScopes.lift (.error fault)).careful
  | declare => exact .declare
  | anonymous => exact .anonymous
  | bindRegister => exact .bindRegister
  | constant => exact .constant
  | select _ _ _ _ _ casts => exact .select casts
  | store => exact KeepsScopes.store.careful
  | storeText => exact KeepsScopes.storeText.careful
  | rebind => exact KeepsScopes.rebind.careful
  | create =>
    refine .bind .anonymous (fun result => KeepsScopes.careful ?_)
    exact .bind .bindObjective (fun _ => .bind .modifyVar (fun _ => .lift (.ok result)))
  | claimNext =>
    refine KeepsScopes.careful (.bind .nextObjective (fun id => ?_))
    dsimp only
    split
    · exact .lift (.error _)
    · exact .bind .claimObjective (fun _ => .lift (.ok id))
  | claimObjective => exact KeepsScopes.claimObjective.careful
  | emit => exact KeepsScopes.emit.careful

end Compile

namespace Engine

open Compile

structure Careful (engine : Engine) : Prop where
  evaluate : ∀ (items : List Tree) (pos : Position), Compile.Careful (engine.evaluate items pos)
  write : ∀ tree : Tree, Compile.Careful (engine.write tree)
  generate : ∀ (script : String) (pos : Position), Compile.Careful (engine.generate script pos)

theorem Exchange.careful {engine other : Engine} {α : Type} {step step' : Compile α} {post : α → Prop}
    (exchange : Exchange (.still False) 0 engine other step step' post) (careful : engine.Careful) :
    Compile.Careful step := by
  induction exchange with
  | result _ => exact (KeepsScopes.lift (.ok _)).careful
  | composed composed _ => exact composed.careful _
  | evaluate _ _ _ => exact careful.evaluate _ _
  | write _ _ => exact careful.write _
  | generate _ _ => exact careful.generate _ _
  | bind _ _ first rest => exact first.bind (fun a => rest a False.elim)
  | get_bind _ rest =>
    exact KeepsScopes.get.careful.bind (fun s => rest s s (.refl (fun _ => rfl) False.elim) False.elim)
  | var_bind id _ rest =>
    exact KeepsScopes.var.careful.bind (fun var => rest var var ⟨_, rfl, rfl⟩ False.elim)
  | lift_bind concur _ _ rest =>
    cases concur with
    | ok related => exact rest _ _ related rfl
    | error _ => exact (KeepsScopes.lift (.error _)).careful
  | inUnit _ _ inside => exact inside.inUnit _

theorem Careful.runs {engine : Engine} (careful : engine.Careful) {α : Type} {step : Compile α}
    {post : α → Prop} (exchange : Exchange (.still False) 0 engine engine step step post) : Compile.Careful step :=
  exchange.careful careful

private theorem ofDepth_careful {generate : String → Position → Compile String}
    (generates : ∀ script pos, Compile.Careful (generate script pos)) (depth : Nat) :
    (ofDepth generate depth).Careful := by
  induction depth with
  | zero =>
    exact ⟨fun _ _ => (KeepsScopes.lift (.error _)).careful, fun _ => (KeepsScopes.lift (.error _)).careful, generates⟩
  | succ depth ih =>
    exact
      { evaluate := fun items pos => ih.runs (.evaluateSequence_still items pos)
        write := fun tree => ih.runs (.writeStatement_still tree)
        generate := generates }

private theorem generateWithin_careful (generations : Nat) (script : String) (pos : Position) :
    Compile.Careful (generateWithin generations script pos) := by
  induction generations generalizing script pos with
  | zero => exact (KeepsScopes.lift (.error _)).careful
  | succ generations ih =>
    exact (ofDepth_careful ih (depthFor script.length)).runs (.compileScript_still script pos)

end Engine

theorem State.counting_start (config : Config) (src : Nat) : (start config src).Counting := by
  have rooted := (sound_start config src).rooted
  refine ⟨rooted, { name := "", parent := none }, rfl, fun n _ => ?_⟩
  exact (rooted.resolve_eq_none_iff rfl).mpr ⟨rfl, by rintro _ ⟨⟩⟩

namespace Compile

private theorem openEntry_cautious (counting : s.Counting) (outermost : s.current = ScopeTree.root) :
    Cautious (fun _ => True) s openEntry (fun scope t => ({ t with current := scope } : State).Counting) := by
  have changes := areChanges_keepsNames
  obtain ⟨root, found, _⟩ := counting.undrawn
  have offers := State.Offers.of_nest (.refl changes s) counting found s.config.entry
  rw [outermost] at found offers
  have nested : s.Confined Scope.KeepsNames (s.nest ScopeTree.root root s.config.entry) :=
    .nest changes (lt_size_of_getElem? found) _
  refine .get_bind trivial (.bind (.nest found _ trivial) ?_)
  rintro _ _ _ ⟨rfl, rfl⟩
  refine .bind (m := fun _ t => s.Confined Scope.KeepsNames t ∧ s.Offers t s.scopes.size) ?_ ?_
  · refine addUnit_cautious.keep.mono (fun _ _ => trivial) ?_
    rintro _ t ⟨same, _⟩
    have marked := same.mono changes.same
    exact ⟨nested.trans changes marked, offers.kept counting nested marked⟩
  · rintro _ t _ ⟨confined, offers⟩
    exact .of_draws rfl (.of_ok rfl trivial (offers.counting counting confined))

end Compile

/-- Every name that is drawn while a script is compiled stands for nothing at that moment, neither in the
scope it is drawn in nor through those around it, whether or not the script has a fault. -/
theorem compileEntry_drawsFresh (config : Config) (src : Nat) (text : String) :
    ∀ draw ∈ (((Engine.forText text).compileEntry text).runFrom (State.start config src)).2.scopes.draws,
      draw.stoodFor = none := by
  have careful : (Engine.forText text).Careful :=
    Engine.ofDepth_careful (Engine.generateWithin_careful Engine.generationLimit) _
  have cautious : Compile.Cautious (fun _ => True) (State.start config src)
      ((Engine.forText text).compileEntry text) (fun _ _ => True) := by
    refine .get_bind trivial (.reads_bind trivial rfl (fun tokens _ => ?_))
    refine .bind (Compile.openEntry_cautious (State.counting_start config src) rfl) ?_
    intro scope t _ counting
    exact .inScope ((careful.runs (.compileTokens_still tokens) _ counting).mono (fun _ _ => trivial) (fun _ _ => id))
  exact cautious.1 (by rintro _ ⟨⟩)

/-- The name of the constant that is made for the `1` is drawn. -/
theorem compileEntry_drawsFresh_constant :
    ∃ draw ∈ (((Engine.forText "int x = 1;").compileEntry "int x = 1;").runFrom (State.start {} 0)).2.scopes.draws,
      draw.name = "anon_0" ∧ draw.stoodFor = none := by
  obtain ⟨draw, drawn, name⟩ : ∃ draw ∈ (((Engine.forText "int x = 1;").compileEntry
      "int x = 1;").runFrom (State.start {} 0)).2.scopes.draws, draw.name = "anon_0" := by
    decide +kernel
  exact ⟨draw, drawn, name, compileEntry_drawsFresh {} 0 _ draw drawn⟩

end ScoreScript
