import ScoreScript.Compile.Overload
import ScoreScript.Proofs.Compile.Storage

/-!
# Converting and binding arguments

A conversion gives a variable of the type asked for. The parameters of a constructor are texts, so
arguments are bound in scopes of their own without any command.
-/

namespace ScoreScript

open List

variable {pairs : List (Param × VarId)} {pos : Position} {what : String}

theorem ConversionGraph.lookup_standard (src target : ValueType) : standard.lookup src.name target.name =
      match src, target with
      | .int, .bool => some (some .intToBool, none)
      | .int, .string => some (some .intToText, none)
      | .bool, .int => some (some .boolToInt, none)
      | _, _ => none := by
  cases src <;> cases target <;> decide

namespace Compile

variable {terms : Terms} {s : State}

theorem constantInt_behaves (stable : s.Stable terms) {score : Score} :
    Behaves terms s (constantInt score pos) (fun id t => t.Typed terms .int id) := by
  have isConstant : IsConstant .int (.int score) := .inl rfl
  exact (constant_behaves stable isConstant).mono (fun _ _ _ made => made.1)

theorem constantBool_behaves (stable : s.Stable terms) {holds : Bool} :
    Behaves terms s (constantBool holds pos) (fun id t => t.Typed terms .bool id) := by
  have isConstant : IsConstant .bool (.int (if holds then 1 else 0)) := by
    refine .inr ⟨rfl, ?_⟩
    cases holds
    · exact .inl rfl
    · exact .inr rfl
  exact (constant_behaves stable isConstant).mono (fun _ _ _ made => made.1)

theorem constantText_behaves (stable : s.Stable terms) {text : String} :
    Behaves terms s (constantText text pos) (fun id t => t.Typed terms .string id) := by
  have isConstant : IsConstant .string (.text text) := rfl
  exact (constant_behaves stable isConstant).mono (fun _ _ _ made => made.1)

theorem temporary_register {type : ValueType} (isScore : type = .int ∨ type = .bool) {t : State} {id : Nat}
    {var : Variable} {name : String} (made : Made s t type .ordinary name id var) (stable : s.Stable terms)
    (grows : State.Grows terms s t) : (registerOf? id).runFrom t = (.ok (some (t.registerAt var.scope var.name)), t) ∧
      ¬ terms.isGuarded (t.registerAt var.scope var.name) := by
  refine ⟨?_, stable.new_clear grows made.new made.found⟩
  rw [runFrom_registerOf? made.found, made.score isScore (by simp)]
  rfl

variable {value : Nat}

private theorem intToBool_behaves (ready : s.Ready terms) (typed : s.Typed terms .int value) (pos : Position) :
    Behaves terms s (intToBool value pos) (fun id t => t.Typed terms .bool id) := by
  unfold intToBool
  refine .seq (operand_behaves ready.toStable typed.isVar (.inl rfl)) ready ?_
  rintro src t ready' _ ⟨rfl, _⟩
  cases src with
  | constant score => exact constantBool_behaves ready'.toStable
  | resident reg =>
    refine .seq (temporary_behaves ready'.toStable) ready' ?_
    rintro id u ready'' grows ⟨var, name, made, _⟩
    obtain ⟨inRegister, spared⟩ := temporary_register (.inr rfl) made ready'.toStable grows
    have typed := made.typed ready'.toStable grows
    refine .ok_bind inRegister (.seq (emit_behaves ready'' ?_) ready'' ?_)
    · refine harmless_cons.mpr ⟨⟨spared, rfl, fun _ => ?_⟩, harmless_singleton.mpr ⟨spared, rfl, fun _ => ?_⟩⟩
      · exact .truth (made.holdsTruth nofun) (.inl rfl)
      · exact .guarded (.truth (made.holdsTruth nofun) (.inr rfl))
    · exact fun _ _ _ later _ => .pure (typed.grows ready''.toStable later)

private theorem intToText_behaves (stable : s.Stable terms) (clear : s.Clear terms value) (pos : Position) :
    Behaves terms s (intToText value pos) (fun id t => t.Typed terms .string id) := by
  obtain ⟨var, found, _⟩ := clear
  unfold intToText
  refine .ok_bind (runFrom_var found) ?_
  split
  · exact constantText_behaves stable
  · exact .throw nofun

theorem castText_behaves (stable : s.Stable terms) {value : Nat} (clear : s.Clear terms value) :
    Behaves terms s (cast value ValueType.string.name pos) (fun id t => t.Typed terms .string id) := by
  obtain ⟨var, found, isClear⟩ := clear
  unfold cast castWith
  refine .ok_bind (runFrom_var found) ?_
  split
  · next same => exact .pure ⟨var, found, ValueType.name_injective same, isClear⟩
  · rw [ConversionGraph.lookup_standard]
    cases type : var.type with
    | int => exact intToText_behaves stable ⟨var, found, isClear⟩ pos
    | bool => exact .throw nofun
    | string => exact .throw nofun
    | objective => exact .throw nofun

theorem cast_behaves (ready : s.Ready terms) (clear : s.Clear terms value) {target : ValueType}
    (notInt : target ≠ .int) :
    Behaves terms s (cast value target.name pos) (fun id t => t.Typed terms target id) := by
  obtain ⟨var, found, isClear⟩ := clear
  unfold cast castWith
  refine .ok_bind (runFrom_var found) ?_
  split
  · next same => exact .pure ⟨var, found, ValueType.name_injective same, isClear⟩
  · rw [ConversionGraph.lookup_standard]
    cases type : var.type <;> cases target <;> first
      | exact intToBool_behaves ready ⟨var, found, type, isClear⟩ pos
      | exact intToText_behaves ready.toStable ⟨var, found, isClear⟩ pos
      | exact absurd rfl notInt
      | exact .throw nofun

theorem castInt_isVar (stable : s.Stable terms) {type : ValueType} (isVar : s.IsVar type value) :
    Behaves terms s (cast value ValueType.int.name pos) (fun id t => t.IsVar .int id) := by
  obtain ⟨var, found, isType⟩ := isVar
  unfold cast castWith
  refine .ok_bind (runFrom_var found) ?_
  split
  · next same => exact .pure ⟨var, found, ValueType.name_injective same⟩
  · rw [ConversionGraph.lookup_standard, isType]
    cases type with
    | int => exact .throw nofun
    | bool =>
      refine .bind (operand_behaves stable ⟨var, found, isType⟩ (.inr rfl)) stable ?_
      rintro src t stable' _ ⟨rfl, truth⟩
      cases src with
      | constant score =>
        exact (constantInt_behaves stable').mono (fun _ _ _ typed => typed.isVar)
      | resident reg =>
        have serves : t.Serves reg := (truth rfl).serves stable'.sound
        refine (bindRegister_binds stable' serves).mono ?_
        exact fun _ _ _ ⟨bound, isBound, isInt, _⟩ => ⟨bound, isBound, isInt⟩
    | string => exact .throw nofun
    | objective => exact .throw nofun

theorem castInt_behaves (stable : s.Stable terms) (clear : s.Clear terms value) :
    Behaves terms s (cast value ValueType.int.name pos) (fun id t => t.IsVar .int id) := by
  obtain ⟨var, found, _⟩ := clear
  exact castInt_isVar stable ⟨var, found, rfl⟩

/-! ## Parameters -/

def TakeTexts (params : List Param) : Prop :=
  ∀ param ∈ params, param.type = ValueType.string.name ∧ IsSegment param.name

private theorem castAll_behaves (stable : s.Stable terms)
    (texts : ∀ pair ∈ pairs, pair.1.type = ValueType.string.name) (clear : ∀ pair ∈ pairs, s.Clear terms pair.2) :
    Behaves terms s (castAll pos pairs) (fun values t => ∀ value ∈ values, t.Typed terms .string value) := by
  induction pairs generalizing s with
  | nil => exact .pure (fun _ mem => by cases mem)
  | cons pair rest ih =>
    obtain ⟨param, arg⟩ := pair
    have type : param.type = ValueType.string.name := texts _ (mem_cons_self ..)
    simp only [castAll, type]
    refine .bind (castText_behaves stable (clear _ (mem_cons_self ..))) stable ?_
    intro value t stable' grows typed
    have rest := ih stable' (fun pair mem => texts pair (mem_cons_of_mem _ mem))
      (fun pair mem => (clear pair (mem_cons_of_mem _ mem)).grows stable grows)
    refine .bind rest stable' ?_
    intro values u _ later all
    refine .pure ?_
    intro other mem
    rcases mem_cons.mp mem with rfl | inside
    · exact typed.grows stable' later
    · exact all other inside

theorem copyText_behaves (stable : s.Stable terms) {src target : Nat}
    (typed : s.Typed terms .string src) (receives : s.Clear terms target) :
    Behaves terms s (copyTo src target pos) (fun cmds _ => cmds = []) := by
  obtain ⟨var, found, type, clear⟩ := typed
  unfold copyTo
  refine .ok_bind (runFrom_var found) ?_
  rw [type]
  refine .bind (textOf_behaves stable ⟨var, found, type, clear⟩) stable ?_
  rintro text t stable' _ rfl
  refine .bind (storeText_behaves receives) stable' ?_
  exact fun _ _ _ _ _ => .pure rfl

theorem declareParams_behaves (stable : s.Stable terms) (unnamed : terms.names = []) (changing : terms.still = false)
    (texts : ∀ pair ∈ pairs, pair.1.type = ValueType.string.name ∧ IsSegment pair.1.name)
    (typed : ∀ pair ∈ pairs, s.Typed terms .string pair.2) : Behaves terms s (declareParams pos pairs)
      (fun params t => ∀ param ∈ params, t.Typed terms .string param) := by
  induction pairs generalizing s with
  | nil => exact .pure (fun _ mem => by cases mem)
  | cons pair rest ih =>
    obtain ⟨param, value⟩ := pair
    have type : param.type = ValueType.string.name := (texts _ (mem_cons_self ..)).1
    have segment : IsSegment param.name := (texts _ (mem_cons_self ..)).2
    have admits : Admits terms s .string .parameter param.name :=
      { segment, unused := fun _ other => absurd rfl other, drawn := fun other => absurd rfl other
        result := fun impossible => by cases impossible
        unnamed := Terms.not_keeps unnamed changing _ _ }
    simp only [declareParams, type]
    refine .bind (declareInternal_behaves stable admits) stable ?_
    rintro id t stable' grows ⟨var, made⟩
    have isText := made.typed stable grows
    have value := (typed _ (mem_cons_self ..)).grows stable grows
    refine .bind (copyText_behaves stable' value isText.clear) stable' ?_
    rintro _ u stable'' later rfl
    refine .ok_bind runFrom_emit_nil ?_
    have rest := ih stable'' (fun pair mem => texts pair (mem_cons_of_mem _ mem))
      (fun pair mem => ((typed pair (mem_cons_of_mem _ mem)).grows stable grows).grows stable' later)
    refine .bind rest stable'' ?_
    intro params v _ last all
    refine .pure ?_
    intro other mem
    rcases mem_cons.mp mem with rfl | inside
    · exact (isText.grows stable' later).grows stable'' last
    · exact all other inside

variable {args : List VarId}

theorem bindParams_behaves (stable : s.Stable terms) (unnamed : terms.names = []) (changing : terms.still = false)
    (what : String) {params : List Param} (texts : TakeTexts params) (clear : ∀ arg ∈ args, s.Clear terms arg)
    (pos : Position) : Behaves terms s (bindParams what params args pos)
      (fun bound t => ∀ param ∈ bound, t.Typed terms .string param) := by
  unfold bindParams
  dsimp only
  split
  · exact .throw nofun
  · refine .bind (castAll_behaves stable ?_ ?_) stable ?_
    · exact fun pair mem => (texts pair.1 (of_mem_zip mem).1).1
    · exact fun pair mem => clear pair.2 (of_mem_zip mem).2
    · intro values t stable' _ typed
      refine declareParams_behaves stable' unnamed changing ?_ ?_
      · exact fun pair mem => texts pair.1 (of_mem_zip mem).1
      · exact fun pair mem => typed pair.2 (of_mem_zip mem).2

/-! ## Overloads -/

theorem runFrom_onScopes_bind {α β : Type} (edit : ScopeTree.Edit α) (next : α → ScopeTree.Edit β) :
    (onScopes (edit >>= next)).runFrom s = (onScopes edit >>= fun a => onScopes (next a)).runFrom s := by
  rw [runFrom_bind, runFrom_onScopes, runFrom_onScopes, Fault.run_bind]
  rcases edit.run.run s.scopes with ⟨_ | _, tree⟩ <;> rfl

def IsParamScope (old : Nat) (s : State) (id : ScopeId) : Prop :=
  old ≤ id ∧ ∃ scope, s.scopes.scopes[id]? = some scope ∧ scope.isUnit = false

private theorem createChildren_behaves (stable : s.Stable terms) {count : Nat} : Behaves terms s
      (onScopes (ScopeTree.createChildren s.current s.config.anonymousPrefix count))
      (fun children t => ∀ child ∈ children, IsParamScope s.scopes.size t child) := by
  induction count generalizing s with
  | zero => exact .of_same rfl (fun _ mem => by cases mem)
  | succ count ih =>
    obtain ⟨scope, found⟩ := ScopeTree.exists_of_lt_size stable.sound.current
    have grows : State.Grows terms s (nested s scope) :=
      .nested stable.sound stable.usable stable.below found
    have size : s.draw.scopes.size = s.scopes.size := ScopeTree.size_modifyScope _ _ _
    have made : IsParamScope s.scopes.size (nested s scope) s.draw.scopes.size :=
      ⟨Nat.le_of_eq size.symm, _, size ▸ scope_nested s scope, rfl⟩
    refine Ends.of_eq (runFrom_onScopes_bind _ _) (Ends.ok_bind (runFrom_nextAnonymous found) ?_)
    refine Ends.of_eq (runFrom_onScopes_bind _ _) (Ends.ok_bind (runFrom_createChild (scope_draw found)) ?_)
    refine Ends.of_eq (runFrom_onScopes_bind _ _)
      (Behaves.after (.bind (ih (stable.grows grows)) (stable.grows grows) ?_) grows (.of_units rfl) stable)
    intro children t _ later all
    refine .of_same rfl ?_
    intro child mem
    rcases mem_cons.mp mem with rfl | inside
    · obtain ⟨old, scope', isScope', unmarked⟩ := made
      obtain ⟨scope'', there, keeps, _⟩ := later.scopes _ scope' isScope'
      exact ⟨old, scope'', there, keeps.isUnit.trans unmarked⟩
    · obtain ⟨old, rest⟩ := all child inside
      exact ⟨Nat.le_trans grows.size_le old, rest⟩

/-- While the parameter lists are tried in turn, the state grows, and their scopes stay. -/
private theorem tryOverloads_ends {origin : State} (stable : origin.Stable terms) (what : String)
    (clear : ∀ arg ∈ args, origin.Clear terms arg) (pos : Position) (index : Nat) (fitting : Bool)
    (overloads : List (List Param × ScopeId)) (texts : ∀ overload ∈ overloads, TakeTexts overload.1)
    (grows : State.Grows terms origin s) (covers : origin.Covers s)
    (scopes : ∀ overload ∈ overloads, IsParamScope origin.scopes.size s overload.2) :
    Ends (tryOverloads what args pos index fitting overloads) s (State.Grows terms origin)
      (fun chosen t => origin.Covers t ∧ ∀ found, chosen = .inr found →
        ∀ param ∈ found.2, t.Typed terms .string param) := by
  induction overloads generalizing s index fitting with
  | nil => exact .pure grows ⟨covers, fun _ impossible => by cases impossible⟩
  | cons overload rest ih =>
    obtain ⟨params, scope⟩ := overload
    obtain ⟨old, inner, isInner, unmarked⟩ := scopes _ (mem_cons_self ..)
    have inside := ScopeTree.lt_size_of_getElem? isInner
    have positive : 0 < scope :=
      Nat.lt_of_lt_of_le (Nat.zero_lt_of_lt stable.sound.current) old
    have stable' := stable.grows grows
    have inner : s.current ≤ scope :=
      Nat.le_of_lt (Nat.lt_of_lt_of_le (grows.current ▸ stable.sound.current) old)
    have clear' : ∀ arg ∈ args, ({ s with current := scope } : State).Clear
        { terms with names := [], plain := true, still := false, unitless := true } arg :=
      fun arg mem => ((clear arg mem).grows stable grows).move (by rfl) (by rfl) (by rfl) inner
    have bound := bindParams_behaves (stable'.move inside positive) rfl rfl what
      (texts _ (mem_cons_self ..)) clear' pos
    -- The scopes of the other lists are still there after this one was tried.
    have keeps : ∀ {u : State}, State.Grows { terms with names := [], plain := true, still := false, unitless := true }
          { s with current := scope } u →
        ∀ overload ∈ (params, scope) :: rest,
          IsParamScope origin.scopes.size { u with current := s.current } overload.2 := by
      intro u within overload mem
      obtain ⟨old, place, isPlace, unmarked⟩ := scopes overload mem
      obtain ⟨place', there, keeps, _⟩ := within.scopes _ place isPlace
      exact ⟨old, place', there, keeps.isUnit.trans unmarked⟩
    have covered : ∀ {u : State},
        State.Grows { terms with names := [], plain := true, still := false, unitless := true }
          { s with current := scope } u → origin.Covers { u with current := s.current } := by
      intro u within
      have kept : s.Covers u := .of_units (within.units rfl)
      exact covers.trans kept grows.emits.kept within.emits.kept within.config
    unfold tryOverloads
    rcases bound.cases with ⟨values, u, ran, within, _, typed⟩ | ⟨fault, u, ran, within, blameless⟩
    · have tried : (attempt (inScope scope (bindParams what params args pos))).runFrom s =
          (.ok (.ok values), { u with current := s.current }) := by
        rw [runFrom_attempt, runFrom_inScope, ran]
      have grown : State.Grows terms origin { u with current := s.current } :=
        grows.inside stable.usable stable.sound (.inl old) inside within rfl rfl (fun _ => rfl)
      refine .ok_bind tried (.pure grown ⟨covered within, ?_⟩)
      rintro _ ⟨⟩ param mem
      obtain ⟨var, found, isText, _⟩ := typed param mem
      exact (stable.grows grown).sound.typed_of_not_score found isText (by decide)
    · have tried : (attempt (inScope scope (bindParams what params args pos))).runFrom s =
          (.ok (.error fault), { u with current := s.current }) := by
        rw [runFrom_attempt, runFrom_inScope, ran]
      have grown : State.Grows terms origin { u with current := s.current } :=
        grows.inside stable.usable stable.sound (.inl old) inside within rfl rfl (fun _ => rfl)
      have all := keeps within
      obtain ⟨_, place, isPlace, plain⟩ := all _ (mem_cons_self ..)
      have discarded := runFrom_discard (stable.grows grown).sound isPlace plain positive
      have next := fun index fitting => ih index fitting
        (fun overload mem => texts overload (mem_cons_of_mem _ mem)) grown
        (covered within) (fun overload mem => all overload (mem_cons_of_mem _ mem))
      refine .ok_bind tried ?_
      dsimp only
      split
      · exact .ok_bind discarded (next _ _)
      · exact .ok_bind discarded (next _ _)
      · exact .throw grown blameless

private theorem describeTypes_behaves (clear : ∀ arg ∈ args, s.Clear terms arg) :
    Behaves terms s (describeTypes args) (fun _ t => t = s) := by
  induction args with
  | nil => exact .pure rfl
  | cons arg rest ih =>
    obtain ⟨var, found, _⟩ := clear _ (mem_cons_self ..)
    unfold describeTypes
    refine .ok_bind (runFrom_var found) ?_
    refine Ends.bind (ih (fun arg mem => clear arg (mem_cons_of_mem _ mem))) ?_
    rintro types t grows ⟨covers, rfl⟩
    exact .pure grows ⟨covers, rfl⟩

theorem select_behaves (stable : s.Stable terms) {overloads : List (List Param)}
    (texts : ∀ params ∈ overloads, TakeTexts params) (clear : ∀ arg ∈ args, s.Clear terms arg) :
    Behaves terms s (select what overloads args pos)
      (fun chosen t => ∀ param ∈ chosen.2, t.Typed terms .string param) := by
  unfold select
  have children : Behaves terms s (createChildren overloads.length)
      (fun children t => ∀ child ∈ children, IsParamScope s.scopes.size t child) :=
    .get_bind (createChildren_behaves stable)
  refine Ends.bind children ?_
  rintro scopes t grows ⟨covers, all⟩
  refine Ends.bind (tryOverloads_ends stable what clear pos 0 false _ ?_ grows covers ?_) ?_
  · exact fun overload mem => texts overload.1 (of_mem_zip mem).1
  · exact fun overload mem => all overload.2 (of_mem_zip mem).2
  · rintro chosen u grown ⟨covers, typed⟩
    cases chosen with
    | inr found => exact .pure grown ⟨covers, typed found rfl⟩
    | inl fitting =>
      cases fitting with
      | false => exact .throw grown nofun
      | true =>
        have described : Behaves terms u (describeTypes args) (fun _ t => t = u) :=
          describeTypes_behaves (fun arg mem => (clear arg mem).grows stable grown)
        refine Ends.bind (described.after grown covers stable) ?_
        exact fun _ _ last _ => .throw last nofun

end Compile

end ScoreScript
