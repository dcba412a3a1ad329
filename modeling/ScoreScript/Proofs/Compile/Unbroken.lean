import Mathlib.Tactic.SplitIfs
import ScoreScript.Compile.Objective
import ScoreScript.Proofs.Compile.Primitives

/-!
# Commands within one line

No command that the compiler enters holds a line break. What commands name comes from four places:
names are words, paths and holders are made of them, identifiers of objectives are checked, and the
holders that a script gives as texts must not hold blanks. The texts themselves can hold anything; they
reach a command only as the name that an objective is shown under, which is encoded.
-/

namespace ScoreScript

open List

open ScopeTree

/-! ## Texts without line breaks -/

def IsLine (text : String) : Prop :=
  '\n' ∉ text.toList

instance (text : String) : Decidable (IsLine text) :=
  inferInstanceAs (Decidable ('\n' ∉ text.toList))

theorem isLine_append {left right : String} : IsLine (left ++ right) ↔ IsLine left ∧ IsLine right := by
  simp [IsLine]

theorem IsLine.append {left right : String} (front : IsLine left) (back : IsLine right) : IsLine (left ++ right) :=
  isLine_append.mpr ⟨front, back⟩

private theorem isLine_of_all {text : String} {rule : Char → Bool} (all : ∀ c ∈ text.toList, rule c = true)
    (refuses : rule '\n' = false) : IsLine text := by
  intro broken
  have admitted := all '\n' broken
  rw [refuses] at admitted
  cases admitted

variable {name : String}

theorem IsSegment.isLine (segment : IsSegment name) : IsLine name :=
  isLine_of_all segment.word (by decide)

def IsUnquoted (name : String) : Prop :=
  IsLine name ∧ '"' ∉ name.toList

instance (name : String) : Decidable (IsUnquoted name) :=
  inferInstanceAs (Decidable (IsLine name ∧ '"' ∉ name.toList))

theorem IsSegment.isUnquoted (segment : IsSegment name) : IsUnquoted name :=
  ⟨segment.isLine, fun mem => absurd (segment.word _ mem) (by decide)⟩

theorem isLine_of_isPathSegment (segment : Config.isPathSegment name = true) : IsLine name := by
  simp only [Config.isPathSegment, Bool.and_eq_true, all_eq_true] at segment
  exact isLine_of_all segment.2 (by decide)

theorem isLine_of_no_blank (plain : name.toList.any Text.isBlank = false) : IsLine name := by
  intro broken
  have blank := any_eq_false.mp plain '\n' broken
  exact blank (by decide)

theorem isLine_of_isObjectiveId {id : String} (checked : Compile.isObjectiveId id = true) : IsLine id := by
  simp only [Compile.isObjectiveId, Bool.and_eq_true, all_eq_true] at checked
  exact isLine_of_all checked.2 (by decide)

theorem isUnquoted_objectiveOverloads :
    ∀ params ∈ Compile.objectiveOverloads, ∀ param ∈ params, IsUnquoted param.name := by
  decide

theorem Config.Usable.isLine_registerObjective {config : Config} (usable : config.Usable) :
    IsLine config.registerObjective := by
  have rule := usable.objective
  simp only [Config.isRegisterObjective, Bool.and_eq_true, Bool.not_eq_true'] at rule
  exact isLine_of_no_blank rule.2

theorem State.mem_intercalate (joint : Char) {c : Char} {parts : List (List Char)}
    (mem : c ∈ [joint].intercalate parts) : c = joint ∨ ∃ part ∈ parts, c ∈ part := by
  induction parts with
  | nil => cases mem
  | cons first rest ih =>
    cases rest with
    | nil => exact .inr ⟨first, mem_cons_self .., by simpa using mem⟩
    | cons second rest =>
      rw [intercalate_cons_cons, append_assoc, mem_append, mem_append] at mem
      rcases mem with here | between | later
      · exact .inr ⟨first, mem_cons_self .., here⟩
      · exact .inl (mem_singleton.mp between)
      · refine (ih later).imp_right ?_
        rintro ⟨part, isPart, inside⟩
        exact ⟨part, mem_cons_of_mem _ isPart, inside⟩

private theorem isLine_intercalate {parts : List String} (lines : ∀ part ∈ parts, IsLine part) :
    IsLine ("/".intercalate parts) := by
  intro broken
  rw [String.toList_intercalate] at broken
  rcases State.mem_intercalate '/' broken with isSlash | ⟨part, isPart, inside⟩
  · exact absurd isSlash (by decide)
  · obtain ⟨name, isName, rfl⟩ := mem_map.mp isPart
    exact lines name isName inside

theorem Score.mem_render (score : Score) {c : Char} (mem : c ∈ score.render.toList) :
    c.isDigit = true ∨ c = '-' := by
  have digit : ∀ {n : Nat}, c ∈ n.repr.toList → c.isDigit = true := by
    intro n inside
    rw [Nat.repr, String.toList_ofList] at inside
    exact Nat.isDigit_of_mem_toDigits (by decide) (by decide) inside
  rw [render, Int.toString_eq_repr, Int.repr.eq_def] at mem
  split at mem
  · exact .inl (digit mem)
  · rw [String.toList_append] at mem
    rcases mem_append.mp mem with sign | inside
    · exact .inr (mem_singleton.mp sign)
    · exact .inl (digit inside)

theorem Score.isLine_render (score : Score) : IsLine score.render := by
  intro broken
  rcases score.mem_render broken with isDigit | isSign
  · exact absurd isDigit (by decide)
  · exact absurd isSign (by decide)

theorem Operator.isLine_symbol (op : Operator) : IsLine op.symbol := by
  cases op <;> decide

namespace Json

/-- A character is written as a backslash and a letter, as the digits of a unit, or as it is. -/
theorem encodeChar_cases (c : Char) :
    (∃ e, encodeChar c = ['\\', e] ∧ (e ≠ 'u' ∧ e ≠ '\n') ∧ simpleEscape? e = some c) ∨
      (encodeChar c = '\\' :: 'u' :: hexDigits c.toNat ∧ c.toNat < 0x20) ∨
      (encodeChar c = [c] ∧ c ≠ '"' ∧ c ≠ '\\' ∧ c ≠ '\n' ∧ 0x20 ≤ c.toNat) := by
  have named {n : Nat} (same : c.toNat = n) : some (Char.ofNat n) = some c := by
    rw [← same, Char.ofNat_toNat]
  unfold encodeChar
  split_ifs with quote backslash back form line carriage tab control
  · exact .inl ⟨_, rfl, by decide, by rw [quote]; rfl⟩
  · exact .inl ⟨_, rfl, by decide, by rw [backslash]; rfl⟩
  · exact .inl ⟨_, rfl, by decide, named back⟩
  · exact .inl ⟨_, rfl, by decide, named form⟩
  · exact .inl ⟨_, rfl, by decide, line ▸ rfl⟩
  · exact .inl ⟨_, rfl, by decide, carriage ▸ rfl⟩
  · exact .inl ⟨_, rfl, by decide, tab ▸ rfl⟩
  · exact .inr (.inl ⟨rfl, control⟩)
  · exact .inr (.inr ⟨rfl, quote, backslash, line, Nat.le_of_not_lt control⟩)

private theorem plain_digitChar (n : Nat) : Nat.digitChar (n % 16) ≠ '\\' ∧ Nat.digitChar (n % 16) ≠ '"' ∧
    Nat.digitChar (n % 16) ≠ '\n' := by
  have digit : ∀ n < 16, Nat.digitChar n ≠ '\\' ∧ Nat.digitChar n ≠ '"' ∧ Nat.digitChar n ≠ '\n' := by decide
  exact digit _ (Nat.mod_lt n (by decide))

private theorem isLine_encodeText (text : String) : IsLine (encodeText text) := by
  have encoded (c : Char) : '\n' ∉ encodeChar c := by
    rcases encodeChar_cases c with ⟨e, written, ⟨_, notBreak⟩, _⟩ | ⟨written, _⟩ | ⟨written, _, _, notBreak, _⟩
    · simp [written, notBreak.symm]
    · simp [written, hexDigits, (plain_digitChar _).2.2.symm]
    · simp [written, notBreak.symm]
  intro broken
  rw [encodeText, String.toList_ofList, mem_cons, mem_append, mem_flatMap] at broken
  rcases broken with isQuote | ⟨c, _, inside⟩ | isQuote
  · exact absurd isQuote (by decide)
  · exact encoded c inside
  · exact absurd (mem_singleton.mp isQuote) (by decide)

end Json

/-! ## Commands -/

def Register.FitsLine (reg : Register) : Prop :=
  IsLine reg.holder ∧ IsLine reg.objective

theorem Register.isLine_render {reg : Register} (fits : reg.FitsLine) : IsLine reg.render :=
  (fits.1.append (by decide)).append fits.2

def Condition.FitsLine : Condition → Prop
  | inRange reg _ => reg.FitsLine
  | compare left _ right => left.FitsLine ∧ right.FitsLine

theorem Condition.isLine_render {cond : Condition} (fits : cond.FitsLine) : IsLine cond.render := by
  cases cond with
  | inRange reg range =>
    have scores : IsLine range.render := by
      cases range with
      | exactly score => exact score.isLine_render
      | atLeast low => exact low.isLine_render.append (by decide)
      | atMost high =>
        show IsLine (".." ++ high.render)
        exact isLine_append.mpr ⟨by decide, high.isLine_render⟩
    show IsLine ("score " ++ reg.render ++ " matches " ++ range.render)
    simp only [isLine_append]
    exact ⟨⟨⟨by decide, Register.isLine_render fits⟩, by decide⟩, scores⟩
  | compare left comparison right =>
    have symbol : IsLine comparison.symbol := by cases comparison <;> decide
    show IsLine ("score " ++ left.render ++ " " ++ comparison.symbol ++ " " ++ right.render)
    simp only [isLine_append]
    have isLeft := Register.isLine_render fits.1
    exact ⟨⟨⟨⟨⟨by decide, isLeft⟩, by decide⟩, symbol⟩, by decide⟩, Register.isLine_render fits.2⟩

namespace Command

def FitsLine : Command → Prop
  | set target _ | add target _ | remove target _ | reset target => target.FitsLine
  | copy target src | operate target _ src => target.FitsLine ∧ src.FitsLine
  | guarded _ cond cmd => cond.FitsLine ∧ cmd.FitsLine
  | call nameSpace path => IsLine nameSpace ∧ IsLine path
  | addObjective id criterion => IsLine id ∧ IsLine criterion
  | removeObjective id => IsLine id
  | showObjective id _ => IsLine id
  | verbatim line => IsLine line

variable {cmd : Command}

theorem isLine_render (fits : cmd.FitsLine) : IsLine cmd.render := by
  have phrase {front first joint second : String} (words : IsLine front ∧ IsLine joint)
      (isFirst : IsLine first) (isSecond : IsLine second) : IsLine (front ++ first ++ joint ++ second) :=
    ((words.1.append isFirst).append words.2).append isSecond
  induction cmd with
  | set target score =>
    exact @phrase "scoreboard players set " _ " " _ (by decide) (Register.isLine_render fits)
      score.isLine_render
  | add target score =>
    exact @phrase "scoreboard players add " _ " " _ (by decide) (Register.isLine_render fits)
      score.isLine_render
  | remove target score =>
    exact @phrase "scoreboard players remove " _ " " _ (by decide) (Register.isLine_render fits)
      score.isLine_render
  | copy target src =>
    exact @phrase "scoreboard players operation " _ " = " _ (by decide) (Register.isLine_render fits.1)
      (Register.isLine_render fits.2)
  | operate target op src =>
    have front : IsLine ("scoreboard players operation " ++ target.render ++ " ") :=
      (IsLine.append (by decide) (Register.isLine_render fits.1)).append (by decide)
    exact phrase ⟨front, by decide⟩ op.isLine_symbol (Register.isLine_render fits.2)
  | reset target =>
    exact @IsLine.append "scoreboard players reset " _ (by decide) (Register.isLine_render fits)
  | guarded holds cond cmd ih =>
    have isCondition := Condition.isLine_render fits.1
    cases holds with
    | true => exact @phrase "execute if " _ " run " _ (by decide) isCondition (ih fits.2)
    | false => exact @phrase "execute unless " _ " run " _ (by decide) isCondition (ih fits.2)
  | call nameSpace path => exact @phrase "function " _ ":" _ (by decide) fits.1 fits.2
  | addObjective id criterion => exact @phrase "scoreboard objectives add " _ " " _ (by decide) fits.1 fits.2
  | removeObjective id => exact @IsLine.append "scoreboard objectives remove " _ (by decide) fits
  | showObjective id name =>
    exact @phrase "scoreboard objectives modify " _ " displayname " _ (by decide) fits
      (Json.isLine_encodeText name)
  | verbatim line => exact fits

def AllFit (cmds : List Command) : Prop :=
  ∀ cmd ∈ cmds, cmd.FitsLine

theorem allFit_nil : AllFit [] := by
  rintro _ ⟨⟩

theorem allFit_cons {cmds : List Command} (fits : cmd.FitsLine) (fit : AllFit cmds) :
    AllFit (cmd :: cmds) :=
  forall_mem_cons.mpr ⟨fits, fit⟩

theorem FitsLine.only (fits : cmd.FitsLine) : AllFit [cmd] :=
  allFit_cons fits allFit_nil

end Command

/-! ## States -/

def Value.FitsLine : Value → Prop
  | .register cell => cell.FitsLine
  | .objective id _ => IsLine id
  | .unset | .int _ | .text _ => True

def Operand.FitsLine : Operand → Prop
  | .constant _ => True
  | .resident reg => reg.FitsLine

def Variable.FitsLine (var : Variable) : Prop :=
  IsUnquoted var.name ∧ var.value.FitsLine

namespace State

/-- Nothing that commands are made of holds a line break, and neither does a command entered so far. -/
structure FitsLines (s : State) : Prop where
  usable : s.config.Usable
  scopes : ∀ (id : Nat) (scope : Scope), s.scopes.scopes[id]? = some scope → IsLine scope.name
  vars : ∀ (id : Nat) (var : Variable), s.vars[id]? = some var → var.FitsLine
  log : ∀ entry ∈ s.scopes.log, ∀ emission, entry.event = .emitted emission →
    ∀ phase, ∀ cmd ∈ emission.commands phase, cmd.FitsLine

namespace FitsLines

variable {s : State}

theorem onScope (fits : s.FitsLines) (id : Nat) {change : Scope → Scope}
    (kept : ∀ scope, (change scope).name = scope.name) :
    ({ s with scopes := s.scopes.modifyScope id change } : State).FitsLines where
  usable := fits.usable
  vars := fits.vars
  log := fits.log
  scopes := by
    intro i scope found
    obtain ⟨old, there, rfl | ⟨_, rfl⟩⟩ := ScopeTree.getElem?_modifyScope_elim found
    · exact fits.scopes i scope there
    · exact kept old ▸ fits.scopes i old there

theorem nest (fits : s.FitsLines) {added : Scope} (isLine : IsLine added.name) :
    ({ s with scopes := s.scopes.addScope added } : State).FitsLines where
  usable := fits.usable
  vars := fits.vars
  log := fits.log
  scopes := by
    intro i scope found
    rcases ScopeTree.getElem?_addScope_elim found with old | ⟨_, rfl⟩
    · exact fits.scopes i scope old
    · exact isLine

theorem onVar (fits : s.FitsLines) {id : Nat} {change : Variable → Variable}
    (kept : ∀ var, var.FitsLine → (change var).FitsLine) : (s.onVar id change).FitsLines where
  usable := fits.usable
  scopes := fits.scopes
  log := fits.log
  vars := by
    intro i var found
    obtain ⟨old, there, ⟨_, rfl⟩ | ⟨_, rfl⟩⟩ := vars_onVar_elim found
    · exact fits.vars i _ there
    · exact kept old (fits.vars i old there)

theorem enterVar (fits : s.FitsLines) {var : Variable} (fitsLine : var.FitsLine) : (s.enterVar var).FitsLines where
  usable := fits.usable
  scopes := by
    have bound := fits.onScope s.current
      (fun scope => (rfl : { scope with names := scope.names ++ [(var.name, s.vars.size)] }.name = scope.name))
    exact bound.scopes
  log := by
    intro entry mem emission isEmission
    rcases mem_append.mp mem with old | new
    · exact fits.log entry old emission isEmission
    · rw [mem_singleton.mp new] at isEmission
      cases isEmission
  vars := by
    intro i owner found
    rcases var_enterVar_elim found with old | ⟨_, rfl⟩
    · exact fits.vars i owner old
    · exact fitsLine

theorem path (fits : s.FitsLines) {id : ScopeId} {path : String} (found : s.scopes.path id = .ok path) :
    IsLine path := by
  have ancestors (bound id : Nat) : ∀ scope ∈ s.scopes.ancestryUpTo bound id, IsLine scope.name := by
    induction bound generalizing id with
    | zero =>
      intro scope mem
      cases mem
    | succ bound ih =>
      intro scope mem
      rw [ancestryUpTo] at mem
      cases there : s.scopes.scopes[id]? with
      | none =>
        rw [there] at mem
        cases mem
      | some first =>
        rw [there] at mem
        have isFirst := fits.scopes id first there
        cases outer : first.parent with
        | none =>
          simp only [outer, mem_singleton] at mem
          exact mem ▸ isFirst
        | some parent =>
          simp only [outer, mem_cons] at mem
          rcases mem with rfl | later
          · exact isFirst
          · exact ih parent scope later
  have inside : id < s.scopes.size := by
    cases there : s.scopes.scopes[id]? with
    | none => simp [ScopeTree.path, ScopeTree.scope, there, bind, Except.bind] at found
    | some scope => exact lt_size_of_getElem? there
  rw [path_eq inside] at found
  cases found
  refine isLine_intercalate (fun part mem => ?_)
  rw [segments, mem_filter, mem_reverse, mem_map] at mem
  obtain ⟨⟨scope, isScope, rfl⟩, _⟩ := mem
  exact ancestors _ id scope isScope

end FitsLines

end State

end ScoreScript
