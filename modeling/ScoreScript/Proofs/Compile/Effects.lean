import ScoreScript.Proofs.Compile.Calculation
import ScoreScript.Proofs.Compile.Changes
import ScoreScript.Proofs.Compile.Objective

/-!
# Steps and their changes

Every step of the compiler below the level of expressions makes only changes of the list, whatever
state it starts from and whether or not it succeeds.
-/

namespace ScoreScript

open ScopeTree

variable {id : Nat} {t : State} {name : String} {type : ValueType} {target : VarId}
  {access : Access} {args : List VarId} {right : Operand} {op : Operator} {pos : Position}
  {property : Property} {score : Score} {s : State} {criterion text typeName what : String}
  {usage : Usage} {owner value : VarId}

namespace Compile

variable {α β : Type}

/-- Wherever the step ends there is `always`, and with a result also `post`. -/
def Leads (s : State) (step : Compile α) (always : State → Prop) (post : α → State → Prop) : Prop :=
  always (step.runFrom s).2 ∧ ∀ a, (step.runFrom s).1 = .ok a → post a (step.runFrom s).2

namespace Leads

variable {s : State} {step : Compile α} {always : State → Prop} {post : α → State → Prop}

theorem of_ok {a : α} (ran : step.runFrom s = (.ok a, t)) (holds : always t) (result : post a t) :
    Leads s step always post := by
  rw [Leads, ran]
  refine ⟨holds, ?_⟩
  rintro b ⟨⟩
  exact result

theorem of_error {fault : Fault} (ran : step.runFrom s = (.error fault, t)) (holds : always t) :
    Leads s step always post := by
  rw [Leads, ran]
  exact ⟨holds, nofun⟩

theorem cases (leads : Leads s step always post) : (∃ a t, step.runFrom s = (.ok a, t) ∧ always t ∧ post a t) ∨
      ∃ fault t, step.runFrom s = (.error fault, t) ∧ always t := by
  obtain ⟨holds, result⟩ := leads
  rcases ran : step.runFrom s with ⟨fault | a, t⟩
  · rw [ran] at holds
    exact .inr ⟨fault, t, rfl, holds⟩
  · rw [ran] at holds result
    exact .inl ⟨a, t, rfl, holds, result a rfl⟩

theorem of_ran (leads : Leads s step always post) {a : α} (ran : step.runFrom s = (.ok a, t)) : post a t := by
  rw [Leads, ran] at leads
  exact leads.2 a rfl

theorem mono {always' : State → Prop} {post' : α → State → Prop} (leads : Leads s step always post)
    (states : ∀ t, always t → always' t) (results : ∀ a t, post a t → post' a t) : Leads s step always' post' :=
  ⟨states _ leads.1, fun a succeeded => results a _ (leads.2 a succeeded)⟩

theorem bind {next : α → Compile β} {m : α → State → Prop} {post : β → State → Prop} (first : Leads s step always m)
    (rest : ∀ a t, m a t → Leads t (next a) always post) : Leads s (step >>= next) always post := by
  rcases first.cases with ⟨a, t, ran, _, result⟩ | ⟨fault, t, ran, holds⟩
  · rw [Leads, runFrom_bind_ok ran]
    exact rest a t result
  · exact of_error (runFrom_bind_error ran next) holds

theorem ok_bind {next : α → Compile β} {post : β → State → Prop} {a : α} (ran : step.runFrom s = (.ok a, t))
    (rest : Leads t (next a) always post) : Leads s (step >>= next) always post := by
  rw [Leads, runFrom_bind_ok ran]
  exact rest

end Leads

end Compile

namespace State

variable {mode : Mode} {s t : State}

theorem Change.of_sure (change : Change mode.sure s t) : Change mode s t := by
  cases change with
  | extend ext => exact .extend ext
  | bind found unset => exact .bind found unset
  | refer found type free plain field => exact .refer found type free plain field
  | make ext new found type generated value => exact .make ext new found type generated value
  | claim broken => exact broken.elim

theorem Changes.of_sure (changes : Changes mode.sure s t) : Changes mode s t := by
  induction changes with
  | refl => exact .refl
  | tail _ change ih => exact ih.tail change.of_sure

theorem Changes.extend (ext : Extends s t) : Changes mode s t :=
  .single (.extend ext)

/-- In a faithful mode, the state is tidy. -/
def Fair (mode : Mode) (s : State) : Prop :=
  mode.faithful → s.Tidy

/-- In a faithful mode, the variable was not constructed. -/
def Apart (mode : Mode) (s : State) (id : Nat) : Prop :=
  mode.faithful → s.Plain id

theorem Fair.changes (fair : s.Fair mode) (changes : Changes mode.sure s t) : t.Fair mode :=
  fun faithful => (fair faithful).changes faithful changes.of_sure

theorem Fair.move (fair : s.Fair mode) (scope : ScopeId) : ({ s with current := scope } : State).Fair mode :=
  fun faithful => (fair faithful).move scope

theorem Apart.changes (apart : s.Apart mode id) (changes : Changes mode.sure s t) : t.Apart mode id :=
  fun faithful => changes.plain (apart faithful)

end State

namespace Compile

open State

variable {α β : Type} {mode : Mode} {s : State}

/-- All that becomes of the state are changes of the mode, and those of a success are sure. -/
def Acts (mode : Mode) (s : State) (step : Compile α) (post : α → State → Prop) : Prop :=
  Leads s step (Changes mode s) (fun a t => Changes mode.sure s t ∧ post a t)

namespace Acts

variable {step : Compile α} {post : α → State → Prop}

theorem pure {a : α} (result : post a s) : Acts mode s (Pure.pure a) post :=
  Leads.of_ok rfl .refl ⟨.refl, result⟩

theorem throw {fault : Fault} : Acts mode s (MonadExcept.throw fault : Compile α) post :=
  Leads.of_error rfl .refl

theorem lift {outcome : Except Fault α} (result : ∀ a, outcome = .ok a → post a s) :
    Acts mode s (liftM outcome : Compile α) post :=
  ⟨.refl, fun a succeeded => ⟨.refl, result a succeeded⟩⟩

theorem mono {post' : α → State → Prop} (acts : Acts mode s step post)
    (results : ∀ a t, Changes mode.sure s t → post a t → post' a t) : Acts mode s step post' :=
  Leads.mono acts (fun _ => id) (fun a t result => ⟨result.1, results a t result.1 result.2⟩)

theorem bind {next : α → Compile β} {m : α → State → Prop} {post : β → State → Prop} (first : Acts mode s step m)
    (rest : ∀ a t, Changes mode.sure s t → m a t → Acts mode t (next a) post) : Acts mode s (step >>= next) post := by
  refine Leads.bind first (fun a t => ?_)
  rintro ⟨changes, result⟩
  refine Leads.mono (rest a t changes result) (fun u => changes.of_sure.trans) ?_
  rintro b u ⟨later, result⟩
  exact ⟨changes.trans later, result⟩

theorem get_bind {next : State → Compile β} {post : β → State → Prop}
    (rest : Acts mode s (next s) post) : Acts mode s (get >>= next) post :=
  Leads.ok_bind runFrom_get rest

theorem lift_bind {outcome : Except Fault α} {next : α → Compile β} {post : β → State → Prop}
    (rest : ∀ a, outcome = .ok a → Acts mode s (next a) post) :
    Acts mode s ((liftM outcome : Compile α) >>= next) post := by
  cases outcome with
  | error fault => exact Leads.of_error (runFrom_bind_error (runFrom_lift _) next) .refl
  | ok a => exact Leads.ok_bind (runFrom_lift _) (rest a rfl)

theorem var_bind {next : Variable → Compile β} {post : β → State → Prop}
    (rest : ∀ owner, s.vars[id]? = some owner → Acts mode s (next owner) post) :
    Acts mode s (var id >>= next) post := by
  cases found : s.vars[id]? with
  | none => exact Leads.of_error (runFrom_bind_error (runFrom_var_absent found) _) .refl
  | some owner => exact Leads.ok_bind (runFrom_var found) (rest owner found)

theorem of_extends (leads : Leads s step (Extends s) (fun a t => Extends s t ∧ post a t)) : Acts mode s step post :=
  Leads.mono leads (fun _ => .extend) (fun _ _ result => ⟨.extend result.1, result.2⟩)

theorem onScopes {edit : ScopeTree.Edit α} (calm : edit.IsCalm) (result : ∀ a t, post a t) :
    Acts mode s (Compile.onScopes edit) post := by
  have ext : Extends s { s with scopes := (edit.run.run s.scopes).2 } :=
    .of_calm rfl rfl rfl rfl rfl (calm s.scopes)
  exact of_extends ⟨ext, fun a _ => ⟨ext, result a _⟩⟩

theorem inScope {scope : ScopeId} (acts : Acts mode { s with current := scope } step
      (fun a t => post a { t with current := s.current })) :
    Acts mode s (Compile.inScope scope step) post := by
  refine ⟨Changes.move acts.1 s.current, fun a succeeded => ?_⟩
  obtain ⟨changes, result⟩ := acts.2 a succeeded
  exact ⟨changes.move s.current, result⟩

/-- What fails on trial has to leave sure changes behind, since a success may follow. -/
theorem attempt {post : Except Fault α → State → Prop} (acts : Acts mode.sure s step (fun a t => post (.ok a) t))
    (failed : ∀ fault t, Changes mode.sure s t → post (.error fault) t) : Acts mode s (Compile.attempt step) post := by
  rcases Leads.cases acts with ⟨a, t, ran, changes, _, result⟩ | ⟨fault, t, ran, changes⟩
  · exact Leads.of_ok (by rw [runFrom_attempt, ran]) changes.of_sure ⟨changes, result⟩
  · exact Leads.of_ok (by rw [runFrom_attempt, ran]) changes.of_sure
      ⟨changes, failed fault t changes⟩

end Acts

/-! ## New variables -/

/-- Since a state, a variable was made under a name. -/
structure Introduced (s t : State) (type : ValueType) (name : String) (id : Nat) : Prop where
  ext : Extends s t
  new : s.vars.size ≤ id
  found : ∃ var, t.vars[id]? = some var ∧ var.type = type ∧ var.name = name
  bound : t.scopes.lookup s.current name = some id

namespace Introduced

variable {t u : State} {type : ValueType} {name : String} {id : Nat}

section

variable (made : Introduced s t type name id)
include made

theorem extend (ext : Extends t u) : Introduced s u type name id := by
  obtain ⟨var, found, isVar⟩ := made.found
  exact ⟨made.ext.trans ext, made.new, ⟨var, ext.old id var found, isVar⟩,
    ext.kept _ _ _ made.bound⟩

theorem onVar (change : Variable → Variable)
    (kept : ∀ var, (change var).constructed = var.constructed ∧ (change var).name = var.name ∧
      (change var).type = var.type)
    (fields : ∀ (var : Variable) (mem : String) (field : Nat), t.vars[id]? = some var →
      (change var).member? mem = some (.field field) → s.vars.size ≤ field ∧ t.IsVar .string field) :
    Introduced s (t.onVar id change) type name id := by
  obtain ⟨var, found, isType, isName⟩ := made.found
  refine ⟨made.ext.onVar made.new (fun var => (kept var).1) (fun var => (kept var).2.1)
    (fun var => (kept var).2.2) fields, made.new, ⟨change var, ?_, (kept var).2.2.trans isType,
    (kept var).2.1.trans isName⟩, made.bound⟩
  rw [vars_onVar, if_pos rfl, found]
  rfl

private theorem onMembers (change : Variable → Variable)
    (kept : ∀ var, (change var).constructed = var.constructed ∧ (change var).name = var.name ∧
      (change var).type = var.type)
    (members : ∀ var, (change var).members = var.members) : Introduced s (t.onVar id change) type name id := by
  refine made.onVar change kept (fun var mem field found isMember => ?_)
  rw [Variable.member?, members] at isMember
  exact made.ext.fields id var mem field made.new found isMember

theorem plain : t.Plain id := by
  obtain ⟨var, found, _⟩ := made.found
  exact ⟨var, found, (made.ext.new id var made.new found).1⟩

end

end Introduced

private theorem enterVariable_leads {name : String} (segment : s.config.Usable → IsSegment name)
    (type : ValueType) (access : Access) (usage : Usage) (pos : Position) :
    Leads s (enterVariable type access usage name pos) (Extends s) (fun id t => Introduced s t type name id) := by
  rcases runFrom_enterVariable_any s type access usage name pos with
    ⟨fault, failed, _⟩ | ⟨inside, free, ran⟩
  · exact .of_error failed (.refl s)
  · have ext : Extends s (s.enterVar { type, access, usage, name, scope := s.current, position := pos }) :=
      .enterVar inside segment rfl rfl
    have bound :=
      lookup_bindName s.scopes s.current s.current name name s.vars.size inside
    rw [if_pos rfl, if_pos rfl, free] at bound
    exact .of_ok ran ext ⟨ext, Nat.le_refl _, ⟨_, var_enterVar_new s _, rfl, rfl⟩, bound⟩

private theorem allocateScore_leads (made : Introduced s t type name id) :
    Leads t (allocateScore id) (Extends s) (fun _ u => Introduced s u type name id) := by
  obtain ⟨var, found, _⟩ := made.found
  refine .ok_bind (runFrom_var found) ?_
  split
  · exact .of_ok rfl made.ext made
  · have valued (register : Register) :=
      made.onMembers (fun var => { var with value := .register register })
        (fun _ => ⟨rfl, rfl, rfl⟩) (fun _ => rfl)
    refine .bind (m := fun _ u => u = t) ?_ ?_
    · refine .ok_bind runFrom_get ?_
      cases path : t.scopes.path var.scope with
      | error fault => exact .of_error (runFrom_bind_error (runFrom_lift _) _) made.ext
      | ok path => exact .of_ok rfl made.ext rfl
    · rintro register _ rfl
      exact .of_ok (runFrom_setValue found _) (valued register).ext (valued register)

private theorem innerScope_leads (made : Introduced s t type name id) :
    Leads t (innerScope id) (Extends s) (fun _ u => Introduced s u type name id) := by
  obtain ⟨var, found, _⟩ := made.found
  refine .ok_bind (runFrom_var found) ?_
  split
  · exact .of_ok rfl made.ext made
  · have calm : Extends t { t with
        scopes := ((ScopeTree.createChild var.scope var.name).run.run t.scopes).2 } :=
      .of_calm rfl rfl rfl rfl rfl (createChild_isCalm _ _ _)
    refine .bind (m := fun _ u => Extends t u) ⟨made.ext.trans calm, fun _ _ => calm⟩ ?_
    rintro inner u ext
    have made := made.extend ext
    have nested := made.onMembers (fun var => { var with inner := some inner })
      (fun _ => ⟨rfl, rfl, rfl⟩) (fun _ => rfl)
    exact .ok_bind (runFrom_modifyVar (ext.old id var found) _) (.of_ok rfl nested.ext nested)

/-- A new objective gets its members. -/
private theorem allocateObjective_leads (made : Introduced s t type name id) :
    Leads t (allocateObjective id) (Extends s) (fun _ u => Introduced s u type name id) := by
  refine .bind (innerScope_leads made) ?_
  rintro inner u made
  obtain ⟨var, found, _⟩ := made.found
  refine .ok_bind (runFrom_var found) ?_
  have entered := @enterVariable_leads { u with current := inner } _
    (fun _ => isSegment_criterionField) .string .shared .ordinary var.position
  refine .bind (m := fun field v => Extends u v ∧ u.vars.size ≤ field ∧ v.IsVar .string field)
    ⟨made.ext.trans (entered.1.move u.current), fun field succeeded => ?_⟩ ?_
  · obtain ⟨ext, new, ⟨criterion, isCriterion, isText, _⟩, _⟩ := entered.2 field succeeded
    exact ⟨ext.move u.current, new, criterion, isCriterion, isText⟩
  · rintro field v ⟨ext, new, isText⟩
    have later := made.extend ext
    have complete := later.onVar (fun var => { var with members := objectiveMembers field })
      (fun _ => ⟨rfl, rfl, rfl⟩) (fun _ mem other _ isMember => by
        rw [← eq_of_objectiveMembers isMember]
        exact ⟨Nat.le_trans made.ext.size_le new, isText⟩)
    exact .of_ok (runFrom_modifyVar (ext.old id var found) _) complete.ext complete

private theorem declareInternal_leads (segment : s.config.Usable → IsSegment name) :
    Leads s (declareInternal typeName access usage name pos) (Extends s)
      (fun id t => ∃ type, typeNamed typeName pos = .ok type ∧ Introduced s t type name id) := by
  cases isType : typeNamed typeName pos with
  | error fault =>
    exact .of_error (runFrom_bind_error (by rw [runFrom_lift, isType]) _) (.refl s)
  | ok type =>
    refine .ok_bind (by rw [runFrom_lift, isType]) ?_
    refine .bind (enterVariable_leads segment type access usage pos) (fun id t made => ?_)
    have allocated : Leads t (allocate type id) (Extends s) (fun _ u => Introduced s u type name id) := by
      cases type with
      | int | bool => exact allocateScore_leads made
      | string => exact .of_ok rfl made.ext made
      | objective => exact allocateObjective_leads made
    exact .bind allocated (fun _ u made => .of_ok rfl made.ext ⟨type, rfl, made⟩)

/-- A variable without a name of its own is found under a generated one. -/
theorem anonymous_leads : Leads s (anonymous typeName usage pos) (Extends s)
      (fun id t => ∃ type name, typeNamed typeName pos = .ok type ∧
        s.config.isGenerated name = true ∧ Introduced s t type name id) := by
  refine .ok_bind runFrom_get ?_
  have calm : Extends s { s with scopes :=
      ((ScopeTree.nextAnonymous s.current s.config.anonymousPrefix).run.run s.scopes).2 } :=
    .of_calm rfl rfl rfl rfl rfl (nextAnonymous_isCalm _ _ _)
  refine .bind (m := fun name t => Extends s t ∧ ∃ n, name = s.config.generatedName n)
    ⟨calm, fun name succeeded => ⟨calm, ?_⟩⟩ ?_
  · cases found : s.scopes.scopes[s.current]? with
    | none =>
      simp only [runFrom_onScopes, ScopeTree.nextAnonymous, Fault.run_bind, Fault.run_get,
        ScopeTree.scope, found, Fault.run_lift] at succeeded
      cases succeeded
    | some scope =>
      rw [runFrom_nextAnonymous found] at succeeded
      cases succeeded
      exact ⟨_, rfl⟩
  · rintro name t ⟨ext, n, rfl⟩
    have segment (usable : t.config.Usable) : IsSegment (s.config.generatedName n) :=
      s.config.isSegment_generatedName (ext.config ▸ usable) n
    refine (declareInternal_leads segment).mono (fun _ => ext.trans) ?_
    rintro id u ⟨type, isType, made⟩
    exact ⟨type, _, isType, s.config.isGenerated_generatedName n, ext.trans made.ext, Nat.le_trans ext.size_le made.new,
      made.found, ext.current ▸ made.bound⟩

theorem valued_leads {value : Value} :
    Leads s (do let id ← anonymous typeName usage pos; setValue id value; return id)
      (Extends s) (fun id t => ∃ type name, typeNamed typeName pos = .ok type ∧
        Introduced s t type name id) := by
  refine .bind anonymous_leads ?_
  rintro id t ⟨type, name, isType, _, made⟩
  obtain ⟨var, found, _⟩ := made.found
  have valued := made.onMembers (fun var => { var with value }) (fun _ => ⟨rfl, rfl, rfl⟩)
    (fun _ => rfl)
  exact .ok_bind (runFrom_setValue found _) (.of_ok rfl valued.ext ⟨type, name, isType, valued⟩)

theorem declareInternal_acts (segment : s.config.Usable → IsSegment name) :
    Acts mode s (declareInternal typeName access usage name pos) (fun id t => t.Plain id) := by
  refine .of_extends ((declareInternal_leads segment).mono (fun _ => id) ?_)
  rintro id t ⟨_, _, made⟩
  exact ⟨made.ext, made.plain⟩

theorem temporary_acts : Acts mode s (temporary typeName pos) (fun id t => t.Plain id) := by
  refine .of_extends (anonymous_leads.mono (fun _ => id) ?_)
  rintro id t ⟨_, _, _, _, made⟩
  exact ⟨made.ext, made.plain⟩

private theorem bindRegister_acts {register : Register} :
    Acts mode s (bindRegister typeName register pos) (fun id t => t.Plain id) := by
  refine .of_extends (valued_leads.mono (fun _ => id) ?_)
  rintro id t ⟨_, _, _, made⟩
  exact ⟨made.ext, made.plain⟩

theorem constant_acts {value : Value} :
    Acts mode s (constant type value pos) (fun id t => t.Plain id ∧ t.IsVar type id) := by
  refine .of_extends (valued_leads.mono (fun _ => id) ?_)
  rintro id t ⟨type', name, isType, made⟩
  rw [typeNamed_name] at isType
  cases isType
  obtain ⟨var, found, isType, _⟩ := made.found
  exact ⟨made.ext, made.plain, var, found, isType⟩

/-! ## Values -/

theorem operand_acts : Acts mode s (operand id pos) (fun _ t => t = s) := by
  refine .var_bind (fun owner _ => ?_)
  cases owner.value with
  | int score => exact .pure rfl
  | register register => exact .pure rfl
  | unset | text | objective => exact .throw

theorem textOf_acts (s : State) (id : VarId) (pos : Position) :
    Acts mode s (textOf id pos) (fun _ t => t = s) := by
  refine .var_bind (fun owner _ => ?_)
  cases owner.value with
  | text text => exact .pure rfl
  | unset | int | register | objective => exact .throw

private theorem referent_acts : Acts mode s (referent id pos) (fun _ t => t = s) := by
  refine .var_bind (fun owner _ => ?_)
  cases owner.value with
  | objective id criterion => exact .pure rfl
  | unset | int | register | text => exact .throw

theorem emit_acts {cmds : List Command} : Acts mode s (emit cmds) (fun _ _ => True) := by
  unfold emit
  split
  · exact .pure trivial
  · exact .get_bind (.onScopes (emit_isCalm _ _) (fun _ _ => trivial))

/-- Only a variable without a value gets one this way. -/
theorem setValue_acts {var : Variable} (found : s.vars[id]? = some var) (unset : var.value = .unset) {value : Value} :
    Acts mode s (setValue id value) (fun _ _ => True) :=
  Leads.of_ok (runFrom_setValue found value) (.single (.bind found unset))
    ⟨.single (.bind found unset), trivial⟩

theorem store_acts {src : Operand} : Acts mode s (store src target pos) (fun _ _ => True) := by
  refine .var_bind (fun owner found => ?_)
  cases value : owner.value with
  | register register =>
    cases normalize owner.type src with
    | constant score => exact .pure trivial
    | resident other => exact .pure trivial
  | unset =>
    cases normalize owner.type src with
    | constant score => exact .bind (setValue_acts found value) (fun _ _ _ _ => .pure trivial)
    | resident other =>
      dsimp only
      split
      · exact .throw
      · exact .bind (setValue_acts found value) (fun _ _ _ _ => .pure trivial)
  | int | text | objective => exact .throw

private theorem storeText_acts : Acts mode s (storeText text target pos) (fun _ _ => True) := by
  refine .var_bind (fun owner found => ?_)
  dsimp only
  split
  · exact .throw
  · split
    · exact .throw
    · next unset => exact setValue_acts found (Decidable.not_not.mp unset)

/-- Binding fails without a change, or the variable is no constant that had a value. -/
theorem runFrom_bindObjective {owner : Variable} (found : s.vars[target]? = some owner) (id criterion : String)
    (pos : Position) : (∃ fault, (bindObjective target id criterion pos).runFrom s = (.error fault, s)) ∨
      (owner.usage = .constant → owner.value = .unset) ∧ (bindObjective target id criterion pos).runFrom s =
          (.ok (), (s.refresh owner criterion).onVar target
            (fun var => { var with value := .objective id criterion })) := by
  rw [bindObjective, runFrom_bind_ok (runFrom_var found)]
  dsimp only
  by_cases bound : owner.usage = .constant ∧ owner.value ≠ .unset
  · rw [if_pos bound]
    exact .inl ⟨_, rfl⟩
  · rw [if_neg bound]
    have free (constant : owner.usage = .constant) : owner.value = .unset :=
      Decidable.not_not.mp (fun unset => bound ⟨constant, unset⟩)
    obtain ⟨value, there, _⟩ := State.vars_refresh found owner criterion
    have set := runFrom_setValue there (.objective id criterion)
    split
    · next field mem =>
        rw [State.refresh_of_field mem] at set ⊢
        cases isField : s.vars[field]? with
        | none =>
          exact .inl ⟨_, runFrom_bind_error (runFrom_bind_error (runFrom_var_absent isField) _) _⟩
        | some other =>
          exact .inr ⟨free, (runFrom_bind_ok (runFrom_setValue isField _) _).trans set⟩
    · next absent =>
        rw [State.refresh_of_not_field absent] at set ⊢
        exact .inr ⟨free, set⟩

private theorem bindObjective_leads (made : Introduced s t type name target) {id : String} :
    Leads t (bindObjective target id criterion pos) (Extends s) (fun _ u => Introduced s u type name target ∧
        ∃ var, u.vars[target]? = some var ∧ var.value = .objective id criterion) := by
  obtain ⟨owner, found, isType, isName⟩ := made.found
  rcases runFrom_bindObjective found id criterion pos with ⟨fault, ran⟩ | ⟨_, ran⟩
  · exact .of_error ran made.ext
  · obtain ⟨value, there, _⟩ := State.vars_refresh found owner criterion
    have refreshed : Introduced s (t.refresh owner criterion) type name target :=
      ⟨made.ext.refresh made.new found criterion, made.new, ⟨_, there, isType, isName⟩,
        (State.scopes_refresh t owner criterion).symm ▸ made.bound⟩
    have bound := refreshed.onMembers
      (fun var => { var with value := .objective id criterion }) (fun _ => ⟨rfl, rfl, rfl⟩)
      (fun _ => rfl)
    exact .of_ok ran bound.ext ⟨bound, _, by rw [State.vars_onVar, if_pos rfl, there]; rfl, rfl⟩

theorem bindObjective_acts (fair : s.Fair mode) (isObjective : s.IsVar .objective target) (apart : s.Apart mode target)
    {id : String} : Acts mode s (bindObjective target id criterion pos) (fun _ _ => True) := by
  obtain ⟨owner, found, isType⟩ := isObjective
  rcases runFrom_bindObjective found id criterion pos with ⟨fault, ran⟩ | ⟨free, ran⟩
  · exact Leads.of_error ran .refl
  · have change (mode : State.Mode) (fair : s.Fair mode) (apart : s.Apart mode target) :
        State.Change mode s ((s.refresh owner criterion).onVar target
          (fun var => { var with value := .objective id criterion })) := by
      refine .refer found isType free (fun faithful => ?_) (fun faithful field mem => ?_)
      · obtain ⟨_, there, isPlain⟩ := apart faithful
        rw [found] at there
        cases there
        exact isPlain
      · exact (fair faithful).plain_field found mem
    exact Leads.of_ok ran (.single (change mode fair apart)) ⟨.single (change mode.sure fair apart), trivial⟩

/-- Copying changes an objective only where the target may refer elsewhere. -/
theorem copyTo_acts (fair : s.Fair mode) {src : VarId}
    (apart : mode.faithful → s.Plain target ∨ ¬ s.IsVar .objective src) :
    Acts mode s (copyTo src target pos) (fun _ _ => True) := by
  refine .var_bind (fun owner found => ?_)
  have score (type : ValueType) : Acts mode s (do
      let other := (← var target).type
      if other ≠ type then throw ⟨.incompatibleCopy type other.name, pos⟩
      store (← operand src pos) target pos) (fun _ _ => True) := by
    refine .var_bind (fun other _ => ?_)
    dsimp only
    split
    · exact .throw
    · refine .bind operand_acts ?_
      rintro value _ _ rfl
      exact store_acts
  cases type : owner.type with
  | int => exact score .int
  | bool => exact score .bool
  | string =>
    refine .bind (textOf_acts s src pos) ?_
    rintro text _ _ rfl
    exact .bind storeText_acts (fun _ _ _ _ => .pure trivial)
  | objective =>
    refine .var_bind (fun other there => ?_)
    dsimp only
    split
    · exact .throw
    · next isObjective =>
        refine .bind referent_acts ?_
        rintro ⟨id, criterion⟩ _ _ rfl
        refine .bind (bindObjective_acts fair ⟨other, there, Decidable.not_not.mp isObjective⟩ ?_)
          (fun _ _ _ _ => .pure trivial)
        exact fun faithful => (apart faithful).resolve_right (fun not => not ⟨owner, found, type⟩)

/-! ## Conversions -/

private theorem registerOf?_acts : Acts mode s (registerOf? id) (fun _ t => t = s) :=
  .var_bind (fun _ _ => .pure rfl)

theorem constant_plain {value : Value} : Acts mode s (constant type value pos) (fun id t => t.Plain id) :=
  constant_acts.mono (fun _ _ _ result => result.1)

private theorem convert_acts {conversion : Conversion} :
    Acts mode s (convert conversion value pos) (fun id t => t.Plain id) := by
  cases conversion with
  | intToBool =>
    refine .bind operand_acts ?_
    rintro (score | register) _ _ rfl
    · exact constant_plain
    · refine .bind temporary_acts (fun result t _ plain => ?_)
      refine .bind registerOf?_acts ?_
      rintro (_ | target) _ _ rfl
      · exact .throw
      · exact .bind emit_acts (fun _ _ changes _ => .pure (changes.plain plain))
  | intToText =>
    refine .var_bind (fun owner _ => ?_)
    cases owner.value with
    | int score => exact constant_plain
    | unset | text | register | objective => exact .throw
  | boolToInt =>
    refine .bind operand_acts ?_
    rintro (score | register) _ _ rfl
    · exact constant_plain
    · exact bindRegister_acts

/-- A cast gives the variable itself or one that was not constructed. -/
theorem cast_acts {target : String} :
    Acts mode s (cast value target pos) (fun id t =>
      (id = value ∧ ∃ owner, s.vars[value]? = some owner ∧ owner.type.name = target) ∨ t.Plain id) := by
  refine .var_bind (fun owner found => ?_)
  split
  · next same => exact .pure (.inl ⟨rfl, owner, found, same⟩)
  · have converted (conversion : Conversion) : Acts mode s (convert conversion value pos) (fun id t =>
          (id = value ∧ ∃ owner, s.vars[value]? = some owner ∧ owner.type.name = target) ∨ t.Plain id) :=
      convert_acts.mono (fun _ _ _ => .inr)
    split
    · next first second _ =>
        refine .bind (m := fun outcome t => ∀ id, outcome = .ok id → t.Plain id)
          (.attempt (convert_acts.mono ?_) (fun _ _ _ => nofun)) ?_
        · rintro id t _ plain _ ⟨⟩
          exact plain
        · rintro (fault | result) t _ plain
          · dsimp only
            split
            · exact convert_acts.mono (fun _ _ _ => .inr)
            · exact .throw
          · exact .pure (.inr (plain result rfl))
    · exact converted _
    · exact converted _
    · exact .throw
    · exact .throw

theorem cast_apart (fair : s.Fair mode) (value : VarId) {target : ValueType} (other : target ≠ .objective)
    (pos : Position) : Acts mode s (cast value target.name pos) (fun id t => t.Apart mode id) := by
  refine cast_acts.mono (fun id t changes result => ?_)
  rcases result with ⟨rfl, owner, found, same⟩ | plain
  · refine State.Apart.changes (fun faithful => (fair faithful).plain_of_type found ?_) changes
    rwa [ValueType.name_injective same]
  · exact fun _ => plain

/-- Nothing else can be made an objective. -/
private theorem castObjective_acts : Acts mode s (cast value ValueType.objective.name pos)
      (fun id t => id = value ∧ t = s ∧ s.IsVar .objective value) := by
  refine .var_bind (fun owner found => ?_)
  split
  · next same => exact .pure ⟨rfl, rfl, owner, found, ValueType.name_injective same⟩
  · have none :
        ConversionGraph.standard.lookup owner.type.name ValueType.objective.name = none := by
      rw [ConversionGraph.lookup_standard]
      cases owner.type <;> rfl
    rw [none]
    exact .throw

/-! ## Arguments -/

private theorem castAll_acts {params : List (Param × VarId)} : Acts mode s (castAll pos params) (fun _ _ => True) := by
  induction params generalizing s with
  | nil => exact .pure trivial
  | cons param params ih =>
    exact .bind cast_acts (fun _ _ _ _ => .bind ih (fun _ _ _ _ => .pure trivial))

private theorem declareParams_acts (fair : s.Fair mode)
    {params : List (Param × VarId)} (segments : ∀ param ∈ params, IsSegment param.1.name) :
    Acts mode s (declareParams pos params) (fun _ _ => True) := by
  induction params generalizing s with
  | nil => exact .pure trivial
  | cons param params ih =>
    rw [List.forall_mem_cons] at segments
    refine .bind (declareInternal_acts (fun _ => segments.1)) (fun id t changes plain => ?_)
    have fair := fair.changes changes
    refine .bind (copyTo_acts fair (fun _ => .inl plain)) (fun cmds u changes _ => ?_)
    refine .bind emit_acts (fun _ v changes' _ => ?_)
    exact .bind (ih ((fair.changes changes).changes changes') segments.2) (fun _ _ _ _ => .pure trivial)

theorem bindParams_acts (fair : s.Fair mode) {params : List Param} (segments : ∀ param ∈ params, IsSegment param.name) :
    Acts mode s (bindParams what params args pos) (fun _ _ => True) := by
  unfold bindParams
  dsimp only
  split
  · exact .throw
  · refine .bind castAll_acts (fun _ t changes _ => ?_)
    exact declareParams_acts (fair.changes changes)
      (fun param mem => segments param.1 (List.of_mem_zip mem).1)

theorem tryOverloads_acts (fair : s.Fair mode) {index : Nat} {fitting : Bool} {overloads : List (List Param × ScopeId)}
    (segments : ∀ overload ∈ overloads, ∀ param ∈ overload.1, IsSegment param.name) :
    Acts mode s (tryOverloads what args pos index fitting overloads) (fun _ _ => True) := by
  induction overloads generalizing s index fitting with
  | nil => exact .pure trivial
  | cons overload overloads ih =>
    rw [List.forall_mem_cons] at segments
    refine .bind (m := fun _ _ => True) (.attempt (.inScope ?_) (fun _ _ _ => trivial)) ?_
    · have fair : State.Fair mode.sure { s with current := overload.2 } := fair.move overload.2
      exact bindParams_acts fair segments.1
    · rintro (fault | bound) t changes _
      · have again (fitting : Bool) : Acts mode t (do
            onScopes (ScopeTree.discard overload.2)
            tryOverloads what args pos (index + 1) fitting overloads) (fun _ _ => True) := by
          refine .bind (m := fun _ _ => True) (.onScopes (discard_isCalm _)
            (fun _ _ => trivial)) (fun _ u changes' _ => ?_)
          exact ih ((fair.changes changes).changes changes') segments.2
        dsimp only
        cases fault.kind with
        | wrongArgumentCount => exact again fitting
        | cannotCast => exact again true
        | _ => exact .throw
      · exact .pure trivial

private theorem describeTypes_acts {ids : List VarId} : Acts mode s (describeTypes ids) (fun _ _ => True) := by
  induction ids with
  | nil => exact .pure trivial
  | cons id ids ih => exact .var_bind (fun _ _ => .bind ih (fun _ _ _ _ => .pure trivial))

private theorem select_acts (fair : s.Fair mode) {overloads : List (List Param)}
    (segments : ∀ params ∈ overloads, ∀ param ∈ params, IsSegment param.name) :
    Acts mode s (select what overloads args pos) (fun _ _ => True) := by
  refine .bind (m := fun _ _ => True) (.get_bind (.onScopes (createChildren_isCalm _ _ _)
    (fun _ _ => trivial))) (fun scopes t changes _ => ?_)
  refine .bind (tryOverloads_acts (fair.changes changes)
    (fun overload mem => segments overload.1 (List.of_mem_zip mem).1)) ?_
  rintro ((_ | _) | chosen) u _ _
  · exact .throw
  · exact .bind describeTypes_acts (fun _ _ _ _ => .throw)
  · exact .pure trivial

/-! ## Objectives -/

/-- The end of `construct`, whichever name the objective got. -/
private theorem establish_acts (broken : mode.broken) {id : String} : Acts mode s
      (do
        if !isObjectiveId id then throw ⟨.badName id .notAnObjective, pos⟩
        claimObjective id pos
        let result ← temporary ValueType.objective.name pos
        bindObjective result id criterion pos
        modifyVar result (fun var => { var with constructed := true })
        return result) (fun _ _ => True) := by
  dsimp only
  split
  · exact .throw
  let claimed : State := { s with objectives := s.objectives ++ [id] }
  -- until the variable is complete, the objective is in use without it
  have spoilt (t : State) (ext : Extends claimed t) : State.Changes mode s t :=
    (Relation.ReflTransGen.single (.claim broken)).tail (.extend ext)
  refine Leads.bind (m := fun _ t => t = claimed) ?_ ?_
  · unfold claimObjective
    refine Leads.ok_bind runFrom_get ?_
    split
    · exact Leads.of_error rfl .refl
    · exact Leads.of_ok (runFrom_modify _) (spoilt _ (.refl _)) rfl
  rintro _ _ rfl
  refine Leads.bind (m := fun target t => ∃ name, s.config.isGenerated name = true ∧
      Introduced claimed t .objective name target)
    (anonymous_leads.mono spoilt ?_) ?_
  · rintro target t ⟨type, name, isType, generated, made⟩
    rw [typeNamed_name] at isType
    cases isType
    exact ⟨name, generated, made⟩
  rintro target t ⟨name, generated, made⟩
  refine Leads.bind ((bindObjective_leads made).mono spoilt (fun _ _ bound => bound)) ?_
  rintro _ u ⟨made, var, found, value⟩
  obtain ⟨_, found', isType, rfl⟩ := made.found
  rw [found] at found'
  cases found'
  have complete (mode : State.Mode) : State.Change mode s _ :=
    .make made.ext made.new found isType generated value
  refine Leads.ok_bind (runFrom_modifyVar found _) ?_
  exact Leads.of_ok rfl (.single (complete mode)) ⟨.single (complete mode.sure), trivial⟩

private theorem nextObjective_acts : Acts mode s nextObjective (fun _ _ => True) := by
  have ext (n : UInt64) : Extends s { s with nextObjective := n } :=
    .of_calm rfl rfl rfl rfl rfl (.refl _)
  exact .get_bind (.of_extends (.of_ok rfl (ext _) ⟨ext _, trivial⟩))

theorem construct_acts (broken : mode.broken) (fair : s.Fair mode) :
    Acts mode s (construct args pos) (fun _ _ => True) := by
  refine .bind (select_acts fair (fun params mem param inside =>
    (objectiveOverloads_takeTexts params mem param inside).2)) ?_
  rintro ⟨_, params⟩ t _ _
  match params with
  | [] =>
    refine Leads.ok_bind (runFrom_pure _) (Acts.bind nextObjective_acts ?_)
    exact fun id u _ _ => establish_acts broken
  | [param] =>
    refine .bind (textOf_acts t param pos) (fun criterion u _ _ => ?_)
    refine .bind nextObjective_acts (fun id v _ _ => ?_)
    exact establish_acts broken
  | first :: second :: _ =>
    refine .bind (textOf_acts t first pos) (fun criterion u _ _ => ?_)
    refine .bind (textOf_acts u second pos) (fun id v _ _ => ?_)
    exact establish_acts broken

theorem readProperty_acts : Acts mode s (readProperty property name owner pos) (fun id t => t.Plain id) := by
  cases property with
  | id =>
    refine .bind referent_acts ?_
    rintro ⟨id, _⟩ t _ _
    exact constant_plain
  | displayName => exact .throw

theorem assignProperty_acts : Acts mode s (assignProperty property name owner value pos) (fun _ _ => True) := by
  cases property with
  | id => exact .throw
  | displayName =>
    refine .bind referent_acts ?_
    rintro ⟨id, _⟩ t _ _
    refine .bind cast_acts (fun text u _ _ => ?_)
    exact .bind (textOf_acts u text pos) (fun _ v _ _ => emit_acts)

private theorem holderOf_acts {expected : Nat} : Acts mode s (holderOf what expected args pos) (fun _ _ => True) := by
  cases args with
  | nil => exact .throw
  | cons first rest =>
    rw [holderOf]
    split
    · exact .throw
    · refine .bind cast_acts (fun text t _ _ => ?_)
      refine .bind (textOf_acts t text pos) (fun holder u _ _ => ?_)
      dsimp only
      split
      · exact .throw
      · exact .pure trivial

theorem callMethod_acts {method : Method} :
    Acts mode s (callMethod method owner args pos) (fun result t => ∀ id, result = some id → t.Plain id) := by
  cases method with
  | get =>
    refine .bind holderOf_acts (fun holder t _ _ => ?_)
    refine .bind referent_acts ?_
    rintro ⟨objective, _⟩ u _ _
    refine .bind bindRegister_acts (fun id v _ plain => .pure ?_)
    rintro _ ⟨⟩
    exact plain
  | set =>
    refine .bind holderOf_acts (fun holder t _ _ => ?_)
    refine .bind referent_acts ?_
    rintro ⟨objective, _⟩ u _ _
    match args with
    | [] | [_] => exact .throw
    | _ :: value :: _ =>
      refine .bind cast_acts (fun score v _ _ => ?_)
      refine .bind operand_acts ?_
      rintro src _ _ rfl
      refine .bind bindRegister_acts (fun target w _ _ => ?_)
      refine .bind store_acts (fun cmds x _ _ => ?_)
      exact .bind emit_acts (fun _ _ _ _ => .pure nofun)
  | reset =>
    refine .bind holderOf_acts (fun holder t _ _ => ?_)
    refine .bind referent_acts ?_
    rintro ⟨objective, _⟩ u _ _
    exact .bind emit_acts (fun _ _ _ _ => .pure nofun)

/-! ## Calculations -/

private theorem materialize_acts : Acts mode s (materialize score pos) (fun _ _ => True) := by
  refine .bind temporary_acts (fun temp t _ _ => ?_)
  refine .bind store_acts (fun cmds u _ _ => ?_)
  refine .bind emit_acts (fun _ v _ _ => ?_)
  refine .bind registerOf?_acts ?_
  rintro (_ | register) _ _ _
  · exact .throw
  · exact .pure trivial

private theorem changeCommand_acts {target : Register} :
    Acts mode s (changeCommand target op right pos) (fun _ _ => True) := by
  cases right with
  | resident register => exact .pure trivial
  | constant score =>
    unfold changeCommand
    dsimp only
    split
    · exact .pure trivial
    split
    · exact .pure trivial
    · exact .bind materialize_acts (fun _ _ _ _ => .pure trivial)

private theorem calculate_acts {lhs rhs : Operand} : Acts mode s
      (do
        let result ← temporary ValueType.int.name pos
        match ← registerOf? result with
        | none => throw ⟨.intWithoutRegister, pos⟩
        | some target =>
          let copied ← store lhs result pos
          let change ← changeCommand target op rhs pos
          emit (copied ++ [change])
          return result)
      (fun id t => t.Plain id) := by
  refine .bind temporary_acts (fun result t _ plain => ?_)
  refine .bind registerOf?_acts ?_
  rintro (_ | target) _ _ rfl
  · exact .throw
  · refine .bind store_acts (fun copied u changes _ => ?_)
    refine .bind changeCommand_acts (fun change v changes' _ => ?_)
    refine .bind emit_acts (fun _ w changes'' _ => .pure ?_)
    exact changes''.plain (changes'.plain (changes.plain plain))

private theorem arithmetic_acts {left : VarId} {right : VarId} :
    Acts mode s (arithmetic left op right pos) (fun id t => t.Plain id) := by
  refine .bind operand_acts (fun lhs t _ _ => ?_)
  refine .bind operand_acts (fun rhs u _ _ => ?_)
  cases lhs with
  | resident register => exact calculate_acts
  | constant a =>
    cases rhs with
    | resident register => exact calculate_acts
    | constant b =>
      refine .bind (m := fun _ _ => True) (.lift (fun _ _ => trivial)) (fun score v _ _ => ?_)
      exact constant_plain

private theorem compareRegister_acts {left : Register} :
    Acts mode s (compareRegister left op right pos) (fun id t => t.Plain id) := by
  refine .bind temporary_acts (fun result t _ plain => ?_)
  refine .bind registerOf?_acts ?_
  rintro (_ | target) _ _ rfl
  · exact .throw
  · refine .bind (m := fun _ u => u = _) (.lift (fun _ _ => rfl)) ?_
    rintro cmds _ _ rfl
    exact .bind emit_acts (fun _ _ changes _ => .pure (changes.plain plain))

theorem compare_acts {left : Operand} : Acts mode s (compare left op right pos) (fun id t => t.Plain id) := by
  cases left with
  | resident register => exact compareRegister_acts
  | constant a =>
    cases right with
    | constant b =>
      refine .bind (m := fun _ _ => True) (.lift (fun _ _ => trivial)) (fun holds t _ _ => ?_)
      exact constant_plain
    | resident register =>
      refine .bind (m := fun _ _ => True) (.lift (fun _ _ => trivial)) (fun flipped t _ _ => ?_)
      exact compareRegister_acts

theorem undefinedOperation_acts {post : α → State → Prop} :
    Acts mode s (undefinedOperation target op pos : Compile α) post :=
  .var_bind (fun _ _ => .throw)

/-! ## Operators of a type -/

theorem operateInt_acts (apart : s.Apart mode target) {right : VarId} :
    Acts mode s (operateInt target op right pos) (fun id t => t.Apart mode id) := by
  unfold operateInt
  split
  · refine .bind cast_acts (fun value t changes _ => ?_)
    refine .bind operand_acts ?_
    rintro src _ _ rfl
    refine .bind store_acts (fun cmds u changes' _ => ?_)
    refine .bind emit_acts (fun _ v changes'' _ => .pure ?_)
    exact apart.changes ((changes.trans changes').trans changes'')
  · refine .bind cast_acts (fun value t _ _ => ?_)
    exact arithmetic_acts.mono (fun _ _ _ plain _ => plain)
  · refine .bind cast_acts (fun value t _ _ => ?_)
    refine .bind operand_acts (fun lhs u _ _ => ?_)
    refine .bind operand_acts (fun rhs v _ _ => ?_)
    exact compare_acts.mono (fun _ _ _ plain _ => plain)
  · exact undefinedOperation_acts
  · exact undefinedOperation_acts

theorem operateText_acts (fair : s.Fair mode) (apart : s.Apart mode target) {right : VarId} :
    Acts mode s (operateText target op right pos) (fun id t => t.Apart mode id) := by
  have texts (result : String → String → Compile VarId)
      (acts : ∀ (lhs rhs : String) (t : State), Acts mode t (result lhs rhs) (fun id u => u.Plain id)) :
      Acts mode s
        (do
          let right ← cast right ValueType.string.name pos
          let lhs ← textOf target pos
          let rhs ← textOf right pos
          result lhs rhs) (fun id t => t.Apart mode id) := by
    refine .bind cast_acts (fun value t _ _ => ?_)
    refine .bind (textOf_acts t target pos) (fun lhs u _ _ => ?_)
    refine .bind (textOf_acts u value pos) (fun rhs v _ _ => ?_)
    exact (acts lhs rhs v).mono (fun _ _ _ plain _ => plain)
  cases op with
  | assign =>
    refine .bind cast_acts (fun value t changes _ => ?_)
    have apart := apart.changes changes
    refine .bind (copyTo_acts (fair.changes changes) (fun faithful => .inl (apart faithful)))
      (fun _ u changes' _ => .pure (apart.changes changes'))
  | add => exact texts _ (fun _ _ t => constant_plain)
  | equal => exact texts _ (fun _ _ t => constant_plain)
  | notEqual => exact texts _ (fun _ _ t => constant_plain)
  | _ => exact undefinedOperation_acts

/-- Of all operators only the assignment is defined. -/
theorem operateObjective_acts (fair : s.Fair mode) {right : VarId}
    (apart : mode.faithful → op = .assign → s.Plain target ∨ ¬ s.IsVar .objective right) :
    Acts mode s (operateObjective target op right pos) (fun id t => t.Apart mode id) := by
  cases op with
  | assign =>
    refine .bind castObjective_acts ?_
    rintro _ _ _ ⟨rfl, rfl, isObjective⟩
    have apart : State.Apart mode _ target := fun faithful =>
      (apart faithful rfl).resolve_right (not_not_intro isObjective)
    exact .bind (copyTo_acts fair (fun faithful => .inl (apart faithful)))
      (fun _ _ changes _ => .pure (apart.changes changes))
  | _ => exact undefinedOperation_acts

/-! ## Names for scripts -/

theorem copyIntoTemporary_acts (fair : s.Fair mode) :
    Acts mode s (copyIntoTemporary value pos) (fun id t => t.Plain id ∧
      ∃ var, t.vars[id]? = some var ∧ var.type = .bool ∧ t.scopes.lookup t.current var.name = some id) := by
  have made : Acts mode s (temporary ValueType.bool.name pos) (fun id t => t.Plain id ∧
      ∃ var, t.vars[id]? = some var ∧ var.type = .bool ∧ t.scopes.lookup t.current var.name = some id) := by
    refine .of_extends (anonymous_leads.mono (fun _ => id) ?_)
    rintro id t ⟨type, name, isType, _, made⟩
    rw [typeNamed_name] at isType
    cases isType
    obtain ⟨var, found, isBool, rfl⟩ := made.found
    exact ⟨made.ext, made.plain, var, found, isBool, made.ext.current ▸ made.bound⟩
  refine .bind made ?_
  rintro temp t changes ⟨plain, var, found, isBool, bound⟩
  refine .bind (copyTo_acts (fair.changes changes) (fun _ => .inl plain)) (fun cmds u changes' _ => ?_)
  refine .bind emit_acts (fun _ v changes'' _ => .pure ?_)
  have later : State.Changes mode.sure t v := changes'.trans changes''
  obtain ⟨value, there, _⟩ := later.retains.vars temp var found
  exact ⟨later.plain plain, _, there, isBool, later.current ▸ later.kept bound⟩

/-- In a faithful mode, the name given is a segment. -/
theorem nameable_acts (fair : s.Fair mode) :
    Acts mode s (nameable value pos) (fun name _ => mode.faithful → IsSegment name) := by
  refine .var_bind (fun owner found => .get_bind ?_)
  split
  · exact .pure (fun faithful => (fair faithful).named value owner found)
  · refine .bind (copyIntoTemporary_acts fair) (fun temp t changes _ => ?_)
    refine .var_bind (fun copied there => .pure (fun faithful => ?_))
    exact (fair.changes changes faithful).named temp copied there

end Compile

end ScoreScript
