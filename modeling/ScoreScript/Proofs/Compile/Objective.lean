import ScoreScript.Compile.Objective
import ScoreScript.Proofs.Compile.Conversion

/-!
# Objectives

An objective that is made is never the one of the registers, and neither is one that a variable
refers to; so what is read and written through an objective is not guarded.
-/

namespace ScoreScript.Compile

open List

variable {terms : Terms} {s : State} {pos : Position} {property : Property} {id name : String}

theorem objectiveOverloads_takeTexts : ∀ params ∈ objectiveOverloads, TakeTexts params := by
  have segments : IsSegment "criterion" ∧ IsSegment "name" :=
    ⟨.of_all rfl (by decide), .of_all rfl (by decide)⟩
  intro params mem param inside
  simp only [objectiveOverloads, mem_cons, not_mem_nil, or_false] at mem
  rcases mem with rfl | rfl | rfl <;>
    simp only [mem_cons, not_mem_nil, or_false] at inside
  · subst inside
    exact ⟨rfl, segments.1⟩
  · rcases inside with rfl | rfl
    · exact ⟨rfl, segments.1⟩
    · exact ⟨rfl, segments.2⟩

private theorem nextObjective_behaves : Behaves terms s nextObjective (fun _ _ => True) := by
  unfold nextObjective
  refine .get_bind (Ends.ok_bind (runFrom_modify _) (Ends.pure ?_ ⟨.of_units rfl, trivial⟩))
  exact .aside (.single .count) rfl rfl rfl rfl

private theorem claimObjective_behaves (stable : s.Stable terms) :
    Behaves terms s (claimObjective id pos) (fun _ t => id ∈ t.objectives ∧ id ≠ t.config.registerObjective) := by
  unfold claimObjective
  refine .get_bind ?_
  dsimp only
  split
  · exact .throw nofun
  · next unused =>
      have fresh : id ∉ s.objectives := fun mem => unused (contains_iff_mem.mpr mem)
      refine .of_ok (runFrom_modify _) (.aside (.single (.claim fresh)) rfl rfl rfl rfl) rfl ⟨?_, ?_⟩
      · exact mem_append_right _ (mem_singleton_self id)
      · intro same
        exact fresh (same ▸ stable.sound.objective)

private theorem establish_behaves (stable : s.Stable terms) {criterion : String} : Behaves terms s
      (do
        if !isObjectiveId id then throw ⟨.badName id .notAnObjective, pos⟩
        claimObjective id pos
        let result ← temporary ValueType.objective.name pos
        bindObjective result id criterion pos
        modifyVar result (fun var => { var with constructed := true })
        return result)
      (fun id t => t.Typed terms .objective id) := by
  dsimp only
  split
  · exact .throw nofun
  · refine .bind (claimObjective_behaves stable) stable ?_
    rintro _ t stable₁ _ ⟨inUse, foreign⟩
    refine .bind (temporary_behaves stable₁) stable₁ ?_
    rintro result u stable₂ grows ⟨var, name, made, _⟩
    have isObjective := made.typed stable₁ grows
    refine .bind (bindObjective_behaves stable₂ isObjective
      (State.Steps.objectives grows.steps inUse) (grows.config ▸ foreign)) stable₂ ?_
    intro _ v stable₃ later _
    have kept := isObjective.grows stable₂ later
    obtain ⟨owner, found, _⟩ := kept
    have constructed : State.Grows terms v
        (v.onVar result (fun var => { var with constructed := true })) :=
      .onVar .constructed (fun _ _ => .of_value rfl rfl rfl rfl rfl)
    exact Ends.ok_bind (runFrom_modifyVar found _)
      (Ends.pure constructed
        ⟨.of_units rfl, (isObjective.grows stable₂ later).grows stable₃ constructed⟩)

variable {args : List VarId}

theorem construct_behaves (stable : s.Stable terms) (clear : ∀ arg ∈ args, s.Clear terms arg) :
    Behaves terms s (construct args pos) (fun id t => t.Typed terms .objective id) := by
  unfold construct
  refine .bind (select_behaves stable objectiveOverloads_takeTexts clear) stable ?_
  rintro ⟨index, params⟩ t stable₁ _ typed
  match params with
  | [] =>
    refine .ok_bind (runFrom_pure _) (.bind nextObjective_behaves stable₁ ?_)
    exact fun id u stable₂ _ _ => establish_behaves stable₂
  | [param] =>
    refine .bind (textOf_behaves stable₁ (typed param (by simp))) stable₁ ?_
    rintro criterion _ stable₂ _ rfl
    refine .bind nextObjective_behaves stable₂ ?_
    exact fun id u stable₃ _ _ => establish_behaves stable₃
  | first :: second :: rest =>
    refine .bind (textOf_behaves stable₁ (typed first (by simp))) stable₁ ?_
    rintro criterion _ stable₂ _ rfl
    refine .bind (textOf_behaves stable₂ (typed second (by simp))) stable₂ ?_
    exact fun id u stable₃ _ _ => establish_behaves stable₃

/-! ## Members -/

theorem readProperty_behaves (stable : s.Stable terms) {owner : Nat} (clear : s.Clear terms owner) :
    Behaves terms s (readProperty property name owner pos) (fun id t => t.Typed terms .string id) := by
  cases property with
  | id =>
    refine .bind (referent_behaves stable clear) stable ?_
    rintro ⟨id, criterion⟩ t stable' _ _
    exact constantText_behaves stable'
  | displayName => exact .throw nofun

theorem assignProperty_behaves (ready : s.Ready terms)
    {owner value : Nat} (clear : s.Clear terms owner) (given : s.Clear terms value) :
    Behaves terms s (assignProperty property name owner value pos) (fun _ _ => True) := by
  cases property with
  | id => exact .throw nofun
  | displayName =>
    refine .seq (referent_behaves ready.toStable clear) ready ?_
    rintro ⟨id, criterion⟩ _ ready₁ _ ⟨rfl, _⟩
    refine .seq (castText_behaves ready₁.toStable given) ready₁ ?_
    intro text t ready₂ _ isText
    refine .seq (textOf_behaves ready₂.toStable isText) ready₂ ?_
    intro shown u ready₃ _ _
    exact emit_behaves ready₃ (harmless_singleton.mpr ⟨trivial, rfl, fun _ => .showObjective⟩)

private theorem holderOf_behaves (stable : s.Stable terms) {what : String} {expected : Nat}
    (clear : ∀ arg ∈ args, s.Clear terms arg) :
    Behaves terms s (holderOf what expected args pos) (fun _ _ => args.length = expected) := by
  cases args with
  | nil => exact .throw nofun
  | cons first rest =>
    unfold holderOf
    dsimp only
    split
    · exact .throw nofun
    · next length =>
        refine .bind (castText_behaves stable (clear _ (mem_cons_self ..))) stable ?_
        intro text t stable₁ _ isText
        refine .bind (textOf_behaves stable₁ isText) stable₁ ?_
        intro holder u _ _ _
        split
        · exact .throw nofun
        · exact .pure (Decidable.not_not.mp length)

theorem callMethod_behaves (ready : s.Ready terms) {method : Method} {owner : Nat} (clear : s.Clear terms owner)
    (given : ∀ arg ∈ args, s.Clear terms arg) : Behaves terms s (callMethod method owner args pos)
      (fun result t => ∀ id, result = some id → t.Clear terms id) := by
  cases method with
  | get =>
    refine .bind (holderOf_behaves ready.toStable given) ready.toStable ?_
    intro holder t stable₁ grows _
    refine .bind (referent_behaves stable₁ (clear.grows ready.toStable grows)) stable₁ ?_
    rintro ⟨objective, criterion⟩ _ stable₂ _ ⟨rfl, _, foreign⟩
    refine .bind (bindRegister_behaves stable₂ (stable₂.foreign_clear foreign) (.inl foreign)) stable₂ ?_
    rintro id u _ _ typed
    refine .pure ?_
    rintro _ ⟨⟩
    exact typed.clear
  | set =>
    refine .seq (holderOf_behaves ready.toStable given) ready ?_
    intro holder t ready₁ grows count
    refine .seq (referent_behaves ready₁.toStable (clear.grows ready.toStable grows)) ready₁ ?_
    rintro ⟨objective, criterion⟩ _ ready₂ _ ⟨rfl, _, foreign⟩
    match args with
    | [] => simp at count
    | [_] => simp at count
    | first :: value :: rest =>
      have given' := (given value (by simp)).grows ready.toStable grows
      refine .seq (castInt_behaves ready₂.toStable given') ready₂ ?_
      intro number u ready₃ later isInt
      have foreign' : objective ≠ u.config.registerObjective := later.config ▸ foreign
      refine .seq (operand_behaves ready₃.toStable isInt (.inl rfl)) ready₃ ?_
      rintro src _ ready₄ _ ⟨rfl, _⟩
      refine .seq (bindRegister_behaves ready₄.toStable
        (ready₄.toStable.foreign_clear foreign') (.inl foreign')) ready₄ ?_
      intro target v ready₅ _ isTarget
      refine .seq (store_behaves ready₅.toStable isTarget (.inl rfl) nofun) ready₅ ?_
      intro cmds w ready₆ _ harmless
      refine .seq (emit_behaves ready₆ harmless) ready₆ ?_
      exact fun _ _ _ _ _ => .pure (fun _ impossible => by cases impossible)
  | reset =>
    refine .seq (holderOf_behaves ready.toStable given) ready ?_
    intro holder t ready₁ grows _
    refine .seq (referent_behaves ready₁.toStable (clear.grows ready.toStable grows)) ready₁ ?_
    rintro ⟨objective, criterion⟩ _ ready₂ _ ⟨rfl, _, foreign⟩
    have spared : ¬ terms.isGuarded ⟨holder, objective⟩ := ready₂.toStable.foreign_clear foreign
    refine .seq (emit_behaves ready₂ (harmless_singleton.mpr
      ⟨spared, rfl, fun _ => .number rfl (.inl foreign)⟩)) ready₂ ?_
    exact fun _ _ _ _ _ => .pure (fun _ impossible => by cases impossible)

end ScoreScript.Compile
