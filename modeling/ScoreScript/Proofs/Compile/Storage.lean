import ScoreScript.Proofs.Compile.Declare

/-!
# Reading and storing values

A score is only ever asked of a number or a truth value, and a text of a text, so the compiler never
finds a value where it cannot be. What is stored goes to a register that is not guarded.
-/

namespace ScoreScript

variable {id target : Nat} {src : Operand} {register : Register} {type : ValueType}
  {var : Variable} {pos : Position} {criterion : String}

/-- The operand is a constant or in the register of a truth value. -/
def Operand.IsTruth (s : State) : Operand → Prop
  | constant _ => True
  | resident register => s.HoldsTruth register

/-- The command calls nothing, writes no guarded register and keeps to the types of registers. -/
structure Command.Harmless (terms : Terms) (s : State) (cmd : Command) : Prop where
  spares : cmd.Spares terms.isGuarded
  callFree : cmd.callee? = none
  typed : terms.typed = true → cmd.WellTyped s

def Harmless (terms : Terms) (s : State) (cmds : List Command) : Prop :=
  ∀ cmd ∈ cmds, cmd.Harmless terms s

variable {cmds : List Command}

section Harmless

variable {terms : Terms} {s t : State}

theorem Harmless.append {left right : List Command} (first : Harmless terms s left)
    (second : Harmless terms s right) : Harmless terms s (left ++ right) := by
  intro cmd mem
  rcases List.mem_append.mp mem with inside | inside
  · exact first cmd inside
  · exact second cmd inside

theorem harmless_cons {cmd : Command} : Harmless terms s (cmd :: cmds) ↔
      cmd.Harmless terms s ∧ Harmless terms s cmds := by
  simp [Harmless]

theorem harmless_nil (terms : Terms) (s : State) : Harmless terms s [] := by
  simp [Harmless]

theorem harmless_singleton {cmd : Command} : Harmless terms s [cmd] ↔ cmd.Harmless terms s := by
  simp [Harmless]

theorem Harmless.grows (harmless : Harmless terms s cmds) (stable : s.Stable terms)
    (grows : State.Grows terms s t) : Harmless terms t cmds := by
  intro cmd mem
  obtain ⟨spares, callFree, typed⟩ := harmless cmd mem
  exact ⟨spares, callFree, fun isTyped => (typed isTyped).keeps (grows.keepsTypes stable.usable stable.sound)⟩

end Harmless

namespace Compile

variable {terms : Terms} {s : State}

theorem emit_behaves (ready : s.Ready terms) (harmless : Harmless terms s cmds) :
    Behaves terms s (emit cmds) (fun _ _ => True) := by
  obtain ⟨scope, found, unit⟩ := ready.unit
  cases cmds with
  | nil => exact .of_same runFrom_emit_nil trivial
  | cons cmd cmds =>
    refine .of_ok (runFrom_emit_cons found cmd) (.emit found unit ?_ ?_ ?_) rfl trivial
    · exact fun other mem => (harmless other mem).spares
    · exact fun other mem => (harmless other mem).callFree
    · exact fun isTyped other mem => (harmless other mem).typed isTyped

theorem operand_cases (sound : s.Sound) (found : s.vars[id]? = some var)
    (isScore : var.type = .int ∨ var.type = .bool) (pos : Position) : (∃ score, var.value = .int score ∧
      (operand id pos).runFrom s = (.ok (.constant score), s)) ∨ (∃ register, var.value = .register register ∧
      (operand id pos).runFrom s = (.ok (.resident register), s)) ∨
    (var.value = .unset ∧ ∃ fault, (operand id pos).runFrom s = (.error fault, s) ∧ fault.kind ≠ .internal) := by
  have fits := sound.fits id var found
  unfold State.Fits at fits
  cases held : var.value with
  | int score =>
    refine .inl ⟨score, rfl, ?_⟩
    simp only [operand, runFrom_bind, runFrom_var found, held, runFrom_pure]
  | register register =>
    refine .inr (.inl ⟨register, rfl, ?_⟩)
    simp only [operand, runFrom_bind, runFrom_var found, held, runFrom_pure]
  | unset =>
    refine .inr (.inr ⟨rfl, ⟨.unassignedVariable var.name, pos⟩, ?_, nofun⟩)
    simp only [operand, runFrom_bind, runFrom_var found, held, runFrom_throw]
  | text text =>
    rw [held] at fits
    rcases isScore with type | type <;> · rw [type] at fits; cases fits
  | objective id criterion =>
    rw [held] at fits
    rcases isScore with type | type <;> · rw [type] at fits; cases fits.1

theorem operand_behaves (stable : s.Stable terms) (isVar : s.IsVar type id) (isScore : type = .int ∨ type = .bool) :
    Behaves terms s (operand id pos) (fun src t => t = s ∧ (type = .bool → src.IsTruth s)) := by
  obtain ⟨var, found, rfl⟩ := isVar
  rcases operand_cases stable.sound found isScore pos with
    ⟨score, _, ran⟩ | ⟨register, held, ran⟩ | ⟨_, fault, ran, blameless⟩
  · exact .of_same ran ⟨rfl, fun _ => trivial⟩
  · exact .of_same ran ⟨rfl, fun isBool => ⟨id, var, found, isBool, held⟩⟩
  · exact .of_error ran blameless

private theorem isConstant_normalize (isScore : type = .int ∨ type = .bool) {score : Score}
    (constant : normalize type src = .constant score) : IsConstant type (.int score) := by
  rcases isScore with rfl | rfl
  · exact .inl rfl
  · refine .inr ⟨rfl, ?_⟩
    cases src with
    | resident register => cases constant
    | constant other =>
      simp only [normalize, Operand.constant.injEq] at constant
      split at constant
      · exact .inl constant.symm
      · exact .inr constant.symm

private theorem eq_of_normalize (resident : normalize type src = .resident register) : src = .resident register := by
  cases src with
  | resident other => cases type <;> exact resident
  | constant score => cases type <;> cases resident

private theorem set_harmless (found : s.vars[id]? = some var) (held : var.value = .register register)
    (isOpen : s.Open terms var) {score : Score} (isConstant : IsConstant var.type (.int score)) :
    (Command.set register score).Harmless terms s := by
  have usable := isOpen register held
  refine ⟨usable.spared, rfl, fun typed => ?_⟩
  rcases isConstant with isInt | ⟨isBool, isBit⟩
  · exact .number rfl (usable.typed typed isInt)
  · exact .truth ⟨id, var, found, isBool, held⟩ isBit

private theorem copy_harmless (found : s.vars[id]? = some var) (isScore : var.type = .int ∨ var.type = .bool)
    (held : var.value = .register register) (isOpen : s.Open terms var) {src : Register}
    (given : var.type = .bool → terms.typed = true → s.HoldsTruth src) :
    (Command.copy register src).Harmless terms s := by
  have usable := isOpen register held
  refine ⟨usable.spared, rfl, fun typed => ?_⟩
  rcases isScore with isInt | isBool
  · exact .number rfl (usable.typed typed isInt)
  · exact .share ⟨id, var, found, isBool, held⟩ (given isBool typed)

/-- Storing a score gives the commands that do it, or binds a constant. -/
theorem store_behaves (stable : s.Stable terms) (typed : s.Typed terms type target)
    (isScore : type = .int ∨ type = .bool) (given : type = .bool → terms.typed = true → src.IsTruth s) :
    Behaves terms s (store src target pos) (fun cmds t => Harmless terms t cmds) := by
  obtain ⟨var, found, rfl, clear⟩ := typed
  have fits := stable.sound.fits target var found
  unfold store
  refine .ok_bind (runFrom_var found) ?_
  cases held : var.value with
  | register register =>
    cases source' : normalize var.type src with
    | constant score =>
      exact .pure (harmless_singleton.mpr (set_harmless found held clear (isConstant_normalize isScore source')))
    | resident other =>
      rw [eq_of_normalize source'] at given
      refine .pure ?_
      split
      · exact harmless_nil terms s
      · exact harmless_singleton.mpr (copy_harmless found isScore held clear given)
  | unset =>
    have constant : var.usage = .constant := by
      refine Decidable.byContradiction (fun changing => ?_)
      obtain ⟨register, inRegister⟩ := stable.allocated target var found isScore changing
      rw [held] at inRegister
      cases inRegister
    cases source' : normalize var.type src with
    | constant score =>
      refine Ends.ok_bind (runFrom_setValue found _) (Ends.pure ?_ ⟨.of_units rfl, harmless_nil terms _⟩)
      refine .onVar (.value found (fun _ => held) ⟨constant, isConstant_normalize isScore source'⟩) ?_
      intro other isOther
      rw [found] at isOther
      cases isOther
      exact ⟨rfl, rfl, rfl, rfl, fun _ impossible => by simp [held] at impossible,
        fun _ impossible => by simp [held] at impossible⟩
    | resident other =>
      dsimp only
      rw [if_pos constant]
      exact .throw nofun
  | int score => exact .throw nofun
  | text text =>
    rw [State.Fits, held] at fits
    rcases isScore with type | type <;> · rw [type] at fits; cases fits
  | objective id criterion =>
    rw [State.Fits, held] at fits
    rcases isScore with type | type <;> · rw [type] at fits; cases fits.1

theorem textOf_behaves (stable : s.Stable terms) (typed : s.Typed terms .string id) :
    Behaves terms s (textOf id pos) (fun _ t => t = s) := by
  obtain ⟨var, found, isText, _⟩ := typed
  have fits := stable.sound.fits id var found
  unfold textOf
  refine .ok_bind (runFrom_var found) ?_
  cases held : var.value with
  | text text => exact .pure rfl
  | unset => exact .throw nofun
  | int score =>
    rw [State.Fits, held, isText] at fits
    rcases fits.2 with impossible | ⟨impossible, _⟩ <;> cases impossible
  | register register =>
    rw [State.Fits, held, isText] at fits
    rcases fits.2.1 with impossible | impossible <;> cases impossible
  | objective id criterion =>
    rw [State.Fits, held, isText] at fits
    cases fits.1

theorem storeText_behaves (clear : s.Clear terms target) {text : String} :
    Behaves terms s (storeText text target pos) (fun _ _ => True) := by
  obtain ⟨var, found, _⟩ := clear
  unfold storeText
  refine .ok_bind (runFrom_var found) ?_
  dsimp only
  split
  · exact .throw nofun
  · next isText =>
      split
      · exact .throw nofun
      · next unset =>
          have type := Decidable.not_not.mp isText
          have held := Decidable.not_not.mp unset
          refine .of_ok (runFrom_setValue found _) (.onVar (.value found (fun _ => held) type) ?_)
            rfl trivial
          intro other isOther
          rw [found] at isOther
          cases isOther
          exact ⟨rfl, rfl, rfl, rfl, fun _ impossible => by simp [held] at impossible,
            fun _ impossible => by simp [held] at impossible⟩

theorem referent_behaves (stable : s.Stable terms) (clear : s.Clear terms id) :
    Behaves terms s (referent id pos) (fun objective t => t = s ∧ objective.1 ∈ s.objectives ∧
        objective.1 ≠ s.config.registerObjective) := by
  obtain ⟨var, found, _⟩ := clear
  have fits := stable.sound.fits id var found
  unfold referent
  refine .ok_bind (runFrom_var found) ?_
  cases held : var.value with
  | objective objective criterion =>
    rw [State.Fits, held] at fits
    exact .pure ⟨rfl, fits.2⟩
  | unset => exact .throw (by rintro ⟨⟩)
  | int score => exact .throw (by rintro ⟨⟩)
  | text text => exact .throw (by rintro ⟨⟩)
  | register register => exact .throw (by rintro ⟨⟩)

theorem isField_of_member (sound : s.Sound) {name : String} {field : VarId} (found : s.vars[id]? = some var)
    (isField : var.member? name = some (.field field)) : State.IsField s.vars field := by
  rcases sound.members id var found with none | ⟨other, listed, there⟩
  · rw [Variable.member?, none] at isField
    cases isField
  · rw [Variable.member?, listed] at isField
    exact eq_of_objectiveMembers isField ▸ there

private theorem keeps_value (fits : s.Fits var) (type : var.type = .string ∨ var.type = .objective) (value : Value) :
    var.Keeps { var with value } := by
  refine ⟨rfl, rfl, rfl, rfl, ?_, ?_⟩
  · intro register held
    rw [State.Fits, held] at fits
    rcases type with type | type <;> rcases fits.2.1 with score | score <;>
      · rw [type] at score
        cases score
  · intro score held
    rw [State.Fits, held] at fits
    rcases type with type | type <;> rcases fits.2 with score | ⟨score, _⟩ <;>
      · rw [type] at score
        cases score

private theorem setObjective_behaves (stable : s.Stable terms) (found : s.vars[target]? = some var)
    (isObjective : var.type = .objective) (once : var.usage = .constant → var.value = .unset)
    {id : String} (inUse : id ∈ s.objectives) (foreign : id ≠ s.config.registerObjective) :
    Behaves terms s (setValue target (.objective id criterion)) (fun _ _ => True) := by
  refine .of_ok (runFrom_setValue found _) (.onVar (.value found once ⟨isObjective, inUse, foreign⟩) ?_) rfl trivial
  intro other isOther
  rw [found] at isOther
  cases isOther
  exact keeps_value (stable.sound.fits target var found) (.inr isObjective) _

theorem bindObjective_behaves (stable : s.Stable terms) (typed : s.Typed terms .objective target) {id : String}
    (inUse : id ∈ s.objectives) (foreign : id ≠ s.config.registerObjective) :
    Behaves terms s (bindObjective target id criterion pos) (fun _ _ => True) := by
  obtain ⟨var, found, isObjective, _⟩ := typed
  unfold bindObjective
  refine .ok_bind (runFrom_var found) ?_
  dsimp only
  split
  · exact .throw nofun
  · next unbound =>
      have once : var.usage = .constant → var.value = .unset := fun constant =>
        Decidable.not_not.mp (fun bound => unbound ⟨constant, bound⟩)
      split
      · next field isField =>
          obtain ⟨owner, isOwner, isText, changing⟩ := isField_of_member stable.sound found isField
          have distinct : field ≠ target := by
            rintro rfl
            rw [found] at isOwner
            cases isOwner
            rw [isObjective] at isText
            cases isText
          have grows : State.Grows terms s (s.onVar field (fun var => { var with value := .text criterion })) := by
            refine .onVar (.value isOwner (fun constant => absurd constant changing) isText) ?_
            intro other isOther
            rw [isOwner] at isOther
            cases isOther
            exact keeps_value (stable.sound.fits field owner isOwner) (.inl isText) _
          have kept : (s.onVar field (fun var => { var with value := .text criterion })).vars[target]? = some var := by
            rw [State.vars_onVar, if_neg distinct, found]
          refine Ends.ok_bind (runFrom_setValue isOwner _) ?_
          exact (setObjective_behaves (stable.grows grows) kept isObjective once inUse foreign).after grows
            (.of_units rfl) stable
      · exact setObjective_behaves stable found isObjective once inUse foreign

/-- Copying a variable lets it share what is known while compiling, and gives the commands for a
score. -/
theorem copyTo_behaves (stable : s.Stable terms) {src : Nat} (isVar : s.IsVar type src)
    (clear : s.Clear terms target) : Behaves terms s (copyTo src target pos)
      (fun cmds t => Harmless terms t cmds) := by
  obtain ⟨var, found, isType⟩ := isVar
  obtain ⟨owner, isOwner, ownerClear⟩ := clear
  unfold copyTo
  refine .ok_bind (runFrom_var found) ?_
  rw [isType]
  cases type with
  | int =>
    refine .ok_bind (runFrom_var isOwner) ?_
    dsimp only
    split
    · exact .throw nofun
    · next same =>
        refine .bind (operand_behaves stable ⟨var, found, isType⟩ (.inl rfl)) stable ?_
        rintro operand t stable' _ ⟨rfl, given⟩
        exact store_behaves stable' ⟨owner, isOwner, Decidable.not_not.mp same, ownerClear⟩
          (.inl rfl) (fun isBool _ => given isBool)
  | bool =>
    refine .ok_bind (runFrom_var isOwner) ?_
    dsimp only
    split
    · exact .throw nofun
    · next same =>
        refine .bind (operand_behaves stable ⟨var, found, isType⟩ (.inr rfl)) stable ?_
        rintro operand t stable' _ ⟨rfl, given⟩
        exact store_behaves stable' ⟨owner, isOwner, Decidable.not_not.mp same, ownerClear⟩
          (.inr rfl) (fun isBool _ => given isBool)
  | string =>
    have typed : s.Typed terms .string src :=
      stable.sound.typed_of_not_score found isType (by decide)
    refine .bind (textOf_behaves stable typed) stable ?_
    rintro text t stable' _ rfl
    refine .bind (storeText_behaves ⟨owner, isOwner, ownerClear⟩) stable' ?_
    exact fun _ t _ _ _ => .pure (harmless_nil terms t)
  | objective =>
    refine .ok_bind (runFrom_var isOwner) ?_
    dsimp only
    split
    · exact .throw nofun
    · next same =>
        have typed : s.Typed terms .objective src :=
          stable.sound.typed_of_not_score found isType (by decide)
        refine .bind (referent_behaves stable typed.clear) stable ?_
        rintro ⟨id, criterion⟩ t stable' _ ⟨rfl, inUse, foreign⟩
        refine .bind (bindObjective_behaves stable'
          ⟨owner, isOwner, Decidable.not_not.mp same, ownerClear⟩ inUse foreign)
          stable' ?_
        exact fun _ t _ _ _ => .pure (harmless_nil terms t)

end Compile

end ScoreScript
