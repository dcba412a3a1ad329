import ScoreScript.Proofs.Registration

/-!
# Objectives and their criteria

The criterion of an objective is kept twice: with the reference to it, and in a field of the variable,
which scripts can name. Both are written together. A script may give the field a text before the
variable refers to anything, which the first reference replaces; afterwards a text is there already.
-/

namespace ScoreScript

namespace State

open Compile

variable {s t : State} {id : Nat} {var : Variable}

/-- An objective variable has its field behind it, with the criterion of what it refers to. -/
structure HasField (s : State) (id : Nat) (var : Variable) : Prop where
  isObjective : var.type = .objective
  members : var.members = objectiveMembers (id + 1)
  field : ∃ other, s.vars[id + 1]? = some other ∧ other.type = .string ∧
    ∀ name criterion, var.value = .objective name criterion → other.value = .text criterion

/-- The variable has nothing to do with objectives. -/
structure Free (var : Variable) : Prop where
  other : var.type ≠ .objective
  unrelated : ∀ name criterion, var.value ≠ .objective name criterion

def Synced (s : State) : Prop :=
  ∀ (id : Nat) (var : Variable), s.vars[id]? = some var → Free var ∨ s.HasField id var

theorem Synced.of_vars (synced : s.Synced) (vars : t.vars = s.vars) : t.Synced := by
  intro id var found
  refine (synced id var (vars ▸ found)).imp_right (fun owns => { owns with field := ?_ })
  rw [vars]
  exact owns.field

theorem Synced.onVar (synced : s.Synced) (id : Nat) {change : Variable → Variable}
    (kept : ∀ var, (change var).type = var.type ∧ (change var).members = var.members)
    (values : ∀ var, s.vars[id]? = some var → (∀ name criterion, (change var).value = .objective name criterion →
        var.value = .objective name criterion) ∧
      ∀ text, var.value = .text text → (change var).value = .text text) : (s.onVar id change).Synced := by
  intro i var found
  obtain ⟨old, isOld, type, members, referred⟩ : ∃ old, s.vars[i]? = some old ∧ var.type = old.type ∧
      var.members = old.members ∧ ∀ name criterion, var.value = .objective name criterion →
        old.value = .objective name criterion := by
    obtain ⟨old, isOld, ⟨_, rfl⟩ | ⟨same, rfl⟩⟩ := vars_onVar_elim found
    · exact ⟨var, isOld, rfl, rfl, fun _ _ value => value⟩
    · exact ⟨old, isOld, (kept old).1, (kept old).2, (values old (same ▸ isOld)).1⟩
  refine (synced i old isOld).imp (fun free => ⟨type ▸ free.other, ?_⟩)
    (fun owns => ⟨type.trans owns.isObjective, members.trans owns.members, ?_⟩)
  · exact fun name criterion value => free.unrelated name criterion (referred _ _ value)
  · obtain ⟨other, there, isText, text⟩ := owns.field
    rw [vars_onVar]
    split
    · next same =>
        rw [there]
        refine ⟨change other, rfl, (kept other).1.trans isText, fun name criterion value => ?_⟩
        exact (values other (same ▸ there)).2 _ (text name criterion (referred _ _ value))
    · exact ⟨other, there, isText, fun name criterion value => text name criterion (referred _ _ value)⟩

theorem Synced.enterVar (synced : s.Synced) (free : Free var) : (s.enterVar var).Synced := by
  intro i owner found
  rcases var_enterVar_elim found with old | ⟨_, rfl⟩
  · refine (synced i owner old).imp_right (fun owns => { owns with field := ?_ })
    obtain ⟨other, there, rest⟩ := owns.field
    exact ⟨other, var_enterVar_old var there, rest⟩
  · exact .inl free

theorem Synced.withObjective (synced : s.Synced) (outer : Scope) (isObjective : var.type = .objective)
    (unset : var.value = .unset) : (withObjective s outer var).Synced := by
  have later {i : Nat} {owner : Variable} (found : s.vars[i]? = some owner) :
      (Compile.withObjective s outer var).vars[i]? = some owner := by
    have inside := (Array.getElem?_eq_some_iff.mp found).1
    rw [vars_withObjective, if_neg (Nat.ne_of_lt inside), if_neg (Nat.ne_of_lt (Nat.lt_succ_of_lt inside)), found]
  intro i owner found
  rw [vars_withObjective] at found
  split at found
  · next first =>
      cases found
      have field := vars_withObjective s outer var (i + 1)
      rw [first, if_neg (Nat.succ_ne_self _), if_pos rfl] at field
      refine .inr ⟨isObjective, by rw [first], _, first ▸ field, rfl, fun name criterion value => ?_⟩
      cases unset.symm.trans value
  · split at found
    · cases found
      exact .inl ⟨by rintro ⟨⟩, by rintro _ _ ⟨⟩⟩
    · refine (synced i owner found).imp_right (fun owns => { owns with field := ?_ })
      obtain ⟨other, there, rest⟩ := owns.field
      exact ⟨other, later there, rest⟩

/-- A variable refers to an objective, and its field takes over the criterion. -/
theorem Synced.refer (synced : s.Synced) (found : s.vars[id]? = some var) (isObjective : var.type = .objective)
    (name criterion : String) : ((s.refresh var criterion).onVar id
      (fun var => { var with value := .objective name criterion })).Synced := by
  have owns := (synced id var found).resolve_left (fun free => free.other isObjective)
  obtain ⟨field, there, isText, _⟩ := owns.field
  have mem : var.member? criterionField = some (.field (id + 1)) := by
    rw [Variable.member?, owns.members]
    rfl
  rw [refresh_of_field mem]
  intro i owner isOwner
  obtain ⟨old, isOld, ⟨other, rfl⟩ | ⟨rfl, rfl⟩⟩ := vars_onVar_elim isOwner
  · obtain ⟨old, before, ⟨second, rfl⟩ | ⟨rfl, rfl⟩⟩ := vars_onVar_elim isOld
    · refine (synced i owner before).imp_right (fun owns => { owns with field := ?_ })
      obtain ⟨next, isNext, isText, text⟩ := owns.field
      refine ⟨next, ?_, isText, text⟩
      rw [vars_onVar, if_neg, vars_onVar, if_neg (by omega), isNext]
      rintro rfl
      cases found.symm.trans isNext
      exact absurd (isObjective.symm.trans isText) (by decide)
    · cases there.symm.trans before
      exact .inl ⟨by rw [isText]; decide, by rintro _ _ ⟨⟩⟩
  · rw [vars_onVar, if_neg (Nat.succ_ne_self _)] at isOld
    cases found.symm.trans isOld
    refine .inr ⟨isObjective, owns.members, { field with value := .text criterion }, ?_, isText, ?_⟩
    · rw [vars_onVar, if_neg (Nat.succ_ne_self _).symm, vars_onVar, if_pos rfl, there]
      rfl
    · rintro _ _ ⟨⟩
      rfl

theorem lasting_synced : Lasting False Synced where
  lines := False.elim
  aside := fun synced beside _ => synced.of_vars beside.vars
  scope := fun _ _ _ synced => synced.of_vars rfl
  nest := fun _ _ _ _ _ synced => synced.of_vars rfl
  unit := fun _ _ synced => synced.of_vars rfl
  detail := fun id _ kept synced => synced.onVar id (fun var => ⟨(kept var).2.2.2.2.2, (kept var).2.2.1⟩)
    (fun var _ => by rw [(kept var).2.1]; exact ⟨fun _ _ value => value, fun _ value => value⟩)
  enter := fun _ _ _ _ other _ _ _ synced => synced.enterVar ⟨other, by rintro _ _ ⟨⟩⟩
  object := fun _ _ _ _ _ _ _ synced => synced.withObjective _ rfl rfl
  value := by
    intro s id var value found _ textless plain _ synced
    refine synced.onVar id (fun _ => ⟨rfl, rfl⟩) (fun owner there => ⟨fun name criterion value => ?_, ?_⟩)
    · exact absurd value (plain name criterion)
    · cases found.symm.trans there
      exact fun text value => absurd value (textless text)
  refer := fun criterion found isObjective _ _ synced => synced.refer found isObjective _ criterion

theorem Reachable.synced {config : Config} {src : Nat} (reachable : s.Reachable config src) : s.Synced :=
  lasting_synced.reachable reachable (by rintro _ _ ⟨⟩)

end State

/-- In every state that can be reached, a variable that refers to an objective has a field for the
criterion, and that holds the criterion of what the variable refers to. -/
theorem reachable_criterion {config : Config} {src : Nat} {s : State} (reachable : s.Reachable config src)
    {id : Nat} {var : Variable} {name criterion : String} (found : s.vars[id]? = some var)
    (refers : var.value = .objective name criterion) :
    ∃ field other, var.member? Compile.criterionField = some (.field field) ∧ s.vars[field]? = some other ∧
      other.value = .text criterion := by
  have owns := (reachable.synced id var found).resolve_left (fun free => free.unrelated _ _ refers)
  obtain ⟨other, there, _, text⟩ := owns.field
  exact ⟨id + 1, other, by rw [Variable.member?, owns.members]; rfl, there, text name criterion refers⟩

/-- The field is written to before the variable is bound, which replaces the text. -/
theorem reachable_criterion_replaced :
    let opened := (Compile.openEntry.runFrom (State.start {} 0)).2
    let declared := ((Compile.declare "objective" .hidden .ordinary "o" default).runFrom opened).2
    let given := ((Compile.constantText "early" default).runFrom declared).2
    let written := ((Compile.copyTo 2 1 default).runFrom given).2
    let made := ((Compile.construct [] default).runFrom written).2
    let bound := ((Compile.copyTo 3 0 default).runFrom made).2
    written.vars[1]?.map Variable.value = some (.text "early") ∧
      ∃ var field other, bound.vars[0]? = some var ∧ var.value = .objective "mcs.0" "dummy" ∧
        var.member? Compile.criterionField = some (.field field) ∧ bound.vars[field]? = some other ∧
        other.value = .text "dummy" := by
  intro opened declared given written made bound
  have reachable : bound.Reachable {} 0 :=
    (((((State.LeadsTo.refl.act .openEntry).act (.declare _ _ _ _ _)).act
      (.constantText _ _)).act (.copyTo _ _ _)).act (.construct _ _)).act (.copyTo _ _ _)
  obtain ⟨var, found, refers⟩ : ∃ var : Variable, bound.vars[0]? = some var ∧
      var.value = .objective "mcs.0" "dummy" := by
    have value : bound.vars[0]?.map Variable.value = some (.objective "mcs.0" "dummy") := by
      decide +kernel
    simpa only [Option.map_eq_some_iff] using value
  obtain ⟨field, other, rest⟩ := reachable_criterion reachable found refers
  exact ⟨by decide, var, field, other, found, refers, rest⟩

end ScoreScript
