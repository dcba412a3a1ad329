import ScoreScript.Compile.Operation
import ScoreScript.Proofs.Compile.Conversion

/-!
# Calculations

Arithmetic and comparisons of numbers, and the operators of texts and objectives. Each operator is
only carried out by the part that knows it, and a result in a register is in a fresh one.
-/

namespace ScoreScript

variable {right target : Nat} {op : Operator} {pos : Position}

theorem Operator.fold_kind (arithmetic : op.kind = .arithmetic) {a b : Score} {cause : Cause}
    (failed : op.fold a b = .error cause) : cause.kind ≠ .internal := by
  cases op <;> simp only [Operator.kind, reduceCtorEq] at arithmetic <;>
    simp only [Operator.fold] at failed
  case add | subtract | multiply => cases failed
  case divide | modulo =>
    split at failed
    · cases failed
      nofun
    · cases failed

namespace Compile

variable {terms : Terms} {s : State}

private theorem located_blameless {α : Type} {outcome : Except Cause α}
    (kind : ∀ cause, outcome = .error cause → cause.kind ≠ .internal) : Blameless (located outcome pos) := by
  cases outcome with
  | ok value => exact .ok value
  | error cause => exact .error (kind cause rfl)

private theorem materialize_behaves (ready : s.Ready terms) {score : Score} :
    Behaves terms s (materialize score pos) (fun _ _ => True) := by
  unfold materialize
  refine .seq (temporary_behaves ready.toStable) ready ?_
  rintro id t ready₁ grows ⟨var, name, made, _⟩
  have isInt := made.typed ready.toStable grows
  have held := made.score (.inl rfl) (by simp)
  refine .seq (store_behaves ready₁.toStable isInt (.inl rfl) nofun) ready₁ ?_
  intro cmds u ready₂ later harmless
  refine .seq (emit_behaves ready₂ harmless) ready₂ ?_
  intro _ v _ last _
  obtain ⟨var₁, found₁, keeps₁⟩ := later.vars id var made.found
  obtain ⟨var₂, found₂, keeps₂⟩ := last.vars id var₁ found₁
  have held₂ := (keeps₁.trans keeps₂).register _ held
  refine .ok_bind (runFrom_registerOf? found₂) ?_
  rw [held₂]
  exact .pure trivial

private theorem addCommand_harmless {target : Register} (spared : ¬ terms.isGuarded target)
    (takes : s.TakesAny target) (amount : Score) : (addCommand target amount).Harmless terms s := by
  unfold addCommand
  split <;> exact ⟨spared, rfl, fun _ => .number rfl takes⟩

private theorem changeCommand_behaves (ready : s.Ready terms) {target : Register} (spared : ¬ terms.isGuarded target)
    (takes : s.TakesAny target) (kind : op.kind = .arithmetic) {right : Operand} :
    Behaves terms s (changeCommand target op right pos) (fun cmd t => cmd.Harmless terms t) := by
  unfold changeCommand
  cases right with
  | resident reg => exact .pure ⟨⟨kind, spared⟩, rfl, fun _ => .number rfl takes⟩
  | constant score =>
    dsimp only
    split
    · exact .pure (addCommand_harmless spared takes score)
    · split
      · exact .pure (addCommand_harmless spared takes (-score))
      · refine .seq (materialize_behaves ready) ready ?_
        intro _ t _ grows _
        have takes' := takes.keeps (grows.keepsTypes ready.usable ready.sound)
        exact .pure ⟨⟨kind, spared⟩, rfl, fun _ => .number rfl takes'⟩

theorem calculate_behaves (ready : s.Ready terms) (kind : op.kind = .arithmetic) {lhs rhs : Operand} : Behaves terms s
      (do
        let result ← temporary ValueType.int.name pos
        match ← registerOf? result with
        | none => throw ⟨.intWithoutRegister, pos⟩
        | some target =>
          let copied ← store lhs result pos
          let change ← changeCommand target op rhs pos
          emit (copied ++ [change])
          return result)
      (fun id u => u.Typed terms .int id) := by
  refine .seq (temporary_behaves ready.toStable) ready ?_
  rintro id u ready₁ grows ⟨var, name, made, _⟩
  have isInt := made.typed ready.toStable grows
  obtain ⟨inRegister, spared⟩ := temporary_register (.inl rfl) made ready.toStable grows
  refine .ok_bind inRegister ?_
  refine .seq (store_behaves ready₁.toStable isInt (.inl rfl) nofun) ready₁ ?_
  intro copied v ready₂ later harmless
  have takes : v.TakesAny (u.registerAt var.scope var.name) :=
    made.takesAny.keeps (later.keepsTypes ready₁.usable ready₁.sound)
  refine .seq (changeCommand_behaves ready₂ spared takes kind) ready₂ ?_
  intro change w ready₃ last harmless'
  refine .seq (emit_behaves ready₃ ((harmless.grows ready₂.toStable last).append
    (harmless_singleton.mpr harmless'))) ready₃ ?_
  intro _ x _ final _
  exact .pure (((isInt.grows ready₁.toStable later).grows ready₂.toStable last).grows
    ready₃.toStable final)

theorem arithmetic_behaves (ready : s.Ready terms) {left : Nat} (isLeft : s.IsVar .int left)
    (isRight : s.IsVar .int right) (kind : op.kind = .arithmetic) :
    Behaves terms s (arithmetic left op right pos) (fun id t => t.Typed terms .int id) := by
  unfold arithmetic
  refine .seq (operand_behaves ready.toStable isLeft (.inl rfl)) ready ?_
  rintro lhs _ ready₁ _ ⟨rfl, _⟩
  refine .seq (operand_behaves ready₁.toStable isRight (.inl rfl)) ready₁ ?_
  rintro rhs t ready₂ _ ⟨rfl, _⟩
  cases lhs with
  | resident reg => exact calculate_behaves ready₂ kind
  | constant a =>
    cases rhs with
    | resident reg => exact calculate_behaves ready₂ kind
    | constant b =>
      refine .seq (m := fun _ _ => True)
        (.lift (located_blameless (fun _ => Operator.fold_kind kind)) (fun _ _ => trivial)) ready₂ ?_
      exact fun score u ready₃ _ _ => constantInt_behaves ready₃.toStable

/-! ## Comparisons -/

section

variable (comparison : op.kind = .comparison)
include comparison

private theorem comparison?_isSome (positive : op ≠ .notEqual) : ∃ found, op.comparison? = some found := by
  cases op <;> first
    | exact ⟨_, rfl⟩
    | exact absurd rfl positive
    | cases comparison

private theorem range?_isSome (positive : op ≠ .notEqual) (c : Score) : ∃ found, op.range? c = some found := by
  cases op <;> first
    | exact ⟨_, rfl⟩
    | exact absurd rfl positive
    | cases comparison

private theorem holds?_isSome (a b : Score) : ∃ holds, op.holds? a b = some holds := by
  cases op <;> first
    | exact ⟨_, rfl⟩
    | cases comparison

private theorem flip?_isSome : ∃ flipped, op.flip? = some flipped ∧ flipped.kind = .comparison := by
  cases op <;> first
    | exact ⟨_, rfl, rfl⟩
    | cases comparison

theorem guardedSet_harmless {target : Register} (spared : ¬ terms.isGuarded target) (isTruth : s.HoldsTruth target)
    (left : Register) (right : Operand) (pos : Position) :
    ∃ cmds, guardedSet target left op right pos = .ok cmds ∧ Harmless terms s cmds := by
  have single : ∀ holds cond, Harmless terms s [.guarded holds cond (.set target 1)] :=
    fun _ _ => harmless_singleton.mpr ⟨spared, rfl, fun _ => .guarded (.truth isTruth (.inr rfl))⟩
  by_cases different : op = .notEqual
  · subst different
    cases right <;> exact ⟨_, rfl, single _ _⟩
  · cases right with
    | resident other =>
      obtain ⟨found, isFound⟩ := comparison?_isSome comparison different
      refine ⟨[.guarded true (.compare left found other) (.set target 1)], ?_, single _ _⟩
      simp only [guardedSet, if_neg different, isFound]
      rfl
    | constant c =>
      obtain ⟨range, isRange⟩ := range?_isSome comparison different c
      cases range with
      | none =>
        refine ⟨[], ?_, harmless_nil terms s⟩
        simp only [guardedSet, if_neg different, isRange]
        rfl
      | some range =>
        refine ⟨[.guarded true (.inRange left range) (.set target 1)], ?_, single _ _⟩
        simp only [guardedSet, if_neg different, isRange]
        rfl

end

private theorem compareRegister_behaves (ready : s.Ready terms) {left : Register}
    (comparison : op.kind = .comparison) {right : Operand} :
    Behaves terms s (compareRegister left op right pos) (fun id t => t.Typed terms .bool id) := by
  unfold compareRegister
  refine .seq (temporary_behaves ready.toStable) ready ?_
  rintro id t ready₁ grows ⟨var, name, made, _⟩
  have isBool := made.typed ready.toStable grows
  obtain ⟨inRegister, spared⟩ := temporary_register (.inr rfl) made ready.toStable grows
  obtain ⟨cmds, guarded, harmless⟩ :=
    guardedSet_harmless comparison spared (made.holdsTruth nofun) left right pos
  refine .ok_bind inRegister (.ok_bind (by rw [guarded]; rfl) ?_)
  have cleared : (Command.set (t.registerAt var.scope var.name) 0).Harmless terms t :=
    ⟨spared, rfl, fun _ => .truth (made.holdsTruth nofun) (.inl rfl)⟩
  refine .seq (emit_behaves ready₁ (harmless_cons.mpr ⟨cleared, harmless⟩)) ready₁ ?_
  exact fun _ _ _ later _ => .pure (isBool.grows ready₁.toStable later)

theorem compare_behaves (ready : s.Ready terms) {left : Operand} (comparison : op.kind = .comparison)
    {right : Operand} : Behaves terms s (compare left op right pos) (fun id t => t.Typed terms .bool id) := by
  unfold compare
  cases left with
  | resident reg => exact compareRegister_behaves ready comparison
  | constant a =>
    cases right with
    | constant b =>
      obtain ⟨holds, isHolds⟩ := holds?_isSome comparison a b
      dsimp only
      rw [isHolds]
      exact .ok_bind (runFrom_lift _) (constantBool_behaves ready.toStable)
    | resident reg =>
      obtain ⟨flipped, isFlipped, comparison'⟩ := flip?_isSome comparison
      dsimp only
      rw [isFlipped]
      exact .ok_bind (runFrom_lift _) (compareRegister_behaves ready comparison')

/-! ## Operators of a type -/

theorem undefinedOperation_behaves {α : Type} {type : ValueType} (isVar : s.IsVar type target)
    {post : α → State → Prop} : Behaves terms s (undefinedOperation target op pos) post := by
  obtain ⟨var, found, _⟩ := isVar
  exact .ok_bind (runFrom_var found) (.throw nofun)

theorem operateInt_behaves (ready : s.Ready terms) (typed : s.Typed terms .int target) (given : s.Clear terms right) :
    Behaves terms s (operateInt target op right pos) (fun id t => t.Clear terms id) := by
  unfold operateInt
  cases kind : op.kind with
  | assignment =>
    refine .seq (castInt_behaves ready.toStable given) ready ?_
    intro value t ready₁ grows isInt
    refine .seq (operand_behaves ready₁.toStable isInt (.inl rfl)) ready₁ ?_
    have target' := typed.grows ready.toStable grows
    rintro src _ ready₂ _ ⟨rfl, _⟩
    refine .seq (store_behaves ready₂.toStable target' (.inl rfl) nofun) ready₂ ?_
    intro cmds u ready₃ later harmless
    refine .seq (emit_behaves ready₃ harmless) ready₃ ?_
    exact fun _ _ _ last _ =>
      .pure ((target'.grows ready₂.toStable later).grows ready₃.toStable last).clear
  | arithmetic =>
    refine .seq (castInt_behaves ready.toStable given) ready ?_
    intro value t ready₁ grows isInt
    exact (arithmetic_behaves ready₁ (typed.isVar.grows grows) isInt kind).mono
      (fun _ _ _ isResult => isResult.clear)
  | comparison =>
    refine .seq (castInt_behaves ready.toStable given) ready ?_
    intro value t ready₁ grows isInt
    refine .seq (operand_behaves ready₁.toStable (typed.isVar.grows grows) (.inl rfl)) ready₁ ?_
    rintro lhs _ ready₂ _ ⟨rfl, _⟩
    refine .seq (operand_behaves ready₂.toStable isInt (.inl rfl)) ready₂ ?_
    rintro rhs _ ready₃ _ ⟨rfl, _⟩
    exact (compare_behaves ready₃ kind).mono (fun _ _ _ isResult => isResult.clear)
  | boolean => exact undefinedOperation_behaves typed.isVar
  | structural => exact undefinedOperation_behaves typed.isVar

theorem operateText_behaves (stable : s.Stable terms) (typed : s.Typed terms .string target)
    (given : s.Clear terms right) :
    Behaves terms s (operateText target op right pos) (fun id t => t.Clear terms id) := by
  have texts : ∀ (result : String → String → Compile VarId) (type : ValueType),
      (∀ (lhs rhs : String) (t : State), t.Stable terms →
        Behaves terms t (result lhs rhs) (fun id u => u.Typed terms type id)) →
      Behaves terms s
        (do
          let right ← cast right ValueType.string.name pos
          let lhs ← textOf target pos
          let rhs ← textOf right pos
          result lhs rhs)
        (fun id t => t.Clear terms id) := by
    intro result type behaves
    refine .bind (castText_behaves stable given) stable ?_
    intro value t stable₁ grows isText
    refine .bind (textOf_behaves stable₁ (typed.grows stable grows)) stable₁ ?_
    rintro lhs _ stable₂ _ rfl
    refine .bind (textOf_behaves stable₂ isText) stable₂ ?_
    rintro rhs _ stable₃ _ rfl
    exact (behaves lhs rhs _ stable₃).mono (fun _ _ _ isResult => isResult.clear)
  cases op with
  | assign =>
    refine .bind (castText_behaves stable given) stable ?_
    intro value t stable₁ grows isText
    have target' := typed.grows stable grows
    refine .bind (copyText_behaves stable₁ isText target'.clear) stable₁ ?_
    exact fun _ _ _ later _ => .pure (target'.grows stable₁ later).clear
  | add =>
    exact texts (fun lhs rhs => constantText (lhs ++ rhs) pos) .string
      (fun _ _ _ stable' => constantText_behaves stable')
  | equal =>
    exact texts (fun lhs rhs => constantBool (lhs == rhs) pos) .bool
      (fun _ _ _ stable' => constantBool_behaves stable')
  | notEqual =>
    exact texts (fun lhs rhs => constantBool (lhs != rhs) pos) .bool
      (fun _ _ _ stable' => constantBool_behaves stable')
  | _ => exact undefinedOperation_behaves typed.isVar

theorem operateObjective_behaves (ready : s.Ready terms) (typed : s.Typed terms .objective target)
    (given : s.Clear terms right) :
    Behaves terms s (operateObjective target op right pos) (fun id t => t.Clear terms id) := by
  cases op with
  | assign =>
    refine .seq (cast_behaves ready given nofun) ready ?_
    intro value t ready₁ grows isObjective
    have target' := typed.grows ready.toStable grows
    refine .seq (copyTo_behaves ready₁.toStable isObjective.isVar target'.clear) ready₁ ?_
    exact fun _ _ _ later _ => .pure (target'.grows ready₁.toStable later).clear
  | _ => exact undefinedOperation_behaves typed.isVar

end Compile

end ScoreScript
