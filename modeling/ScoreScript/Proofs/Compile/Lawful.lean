import ScoreScript.Proofs.Compile.Calculation
import ScoreScript.Proofs.Compile.Objective
import ScoreScript.Proofs.Compile.Scripts
import ScoreScript.Proofs.Compile.Units
import ScoreScript.Proofs.Reading.Nesting

/-!
# Engines that keep the rules

What an engine must do with trees that nest no deeper than its budget: the state only grows, and a
fault is one of the script. A tree is bounded by the weight of its words, and its words are bounded
by the terms: a generated name stands in a script only where it is one that may be used.
-/

namespace ScoreScript

open List

variable {names : List String} {right value : Nat} {name word : String} {conjunction : Bool}
  {pos : Position}

namespace Terms

structure Allows (terms : Terms) (config : Config) (word : String) : Prop where
  named : ¬ terms.Guards ∨ config.isGenerated word = false ∨ word ∈ terms.names
  plain : terms.plain = true → '!' ∉ word.toList ∧ word ≠ "&&" ∧ word ≠ "||"

def AllowsAll (terms : Terms) (config : Config) (trees : List Tree) : Prop :=
  ∀ tree ∈ trees, ∀ token ∈ tree.tokens, terms.Allows config token.text

def keywords : List String :=
  ["if", "else", "true", "false"]

def marks : List String :=
  ["(", ")", "\x7b", "\x7d", "="]

def Suits (terms : Terms) (config : Config) : Prop :=
  ¬ terms.Guards ∨ ∀ word ∈ keywords, config.isGenerated word = false

end Terms

namespace Tree

structure Evaluable (terms : Terms) (config : Config) (budget : Nat) (items : List Tree) : Prop where
  words : terms.AllowsAll config items
  size : sizes items < budget

end Tree

namespace Engine

open Compile

def Generates (generate : String → Position → Compile String) (config : Config) (terms : Terms) : Prop :=
  ∀ (s : State) (names : List String) (script : String) (texts : List String) (pos : Position),
    s.Ready terms → s.Ready { terms with names, plain := true } → s.config = config →
    Token.Spells config.separator script.toList texts →
    (∀ text ∈ texts, ({ terms with names, plain := true } : Terms).Allows config text) →
    MakesUnit terms s (generate script pos)

/-- What an engine does with trees within its budget. -/
structure Lawful (engine : Engine) (config : Config) (terms : Terms) (budget : Nat) : Prop where
  suits : terms.Suits config
  /-- Generated names are used in generated scripts only. -/
  unnamed : terms.plain = false → terms.names = []
  evaluate : ∀ (s : State) (items : List Tree) (pos : Position),
    s.Ready terms → s.config = config → Tree.Evaluable terms config budget items →
    Behaves terms s (engine.evaluate items pos)
      (fun result t => ∀ id, result = some id → t.Clear terms id)
  write : terms.still = false → ∀ (s : State) (tree : Tree),
    s.Ready terms → s.config = config → tree.Within config.separator budget →
    terms.AllowsAll config [tree] →
    Behaves terms s (engine.write tree) (fun _ _ => True)
  generate : terms.plain = false → Generates engine.generate config terms

end Engine

/-! ## Words of generated scripts -/

namespace Config

variable {config : Config}

theorem isGenerated_of_head (usable : config.Usable) {c : Char} {rest : List Char}
    (starts : word.toList = c :: rest) (notWord : isWordChar c = false) : config.isGenerated word = false := by
  have rule := usable.anonymousPrefix
  simp only [isAnonymousPrefix, Bool.and_eq_true, Bool.not_eq_true', isEmpty_eq_false_iff,
    all_eq_true] at rule
  rw [isGenerated, starts]
  cases letters : config.anonymousPrefix.toList with
  | nil => exact absurd letters rule.1
  | cons first others =>
    have word := rule.2 first (letters ▸ mem_cons_self ..)
    have distinct : first ≠ c := by
      rintro rfl
      rw [show isWordChar first = true from word] at notWord
      cases notWord
    rw [isPrefixOf, beq_false_of_ne distinct, Bool.false_and]

end Config

namespace Terms

variable {terms : Terms} {config : Config}

def forScript (terms : Terms) (config : Config) (names : List String) : Terms :=
  { terms with names := names.filter config.isGenerated, plain := true }

theorem allows_name (mem : name ∈ names) (segment : IsSegment name) :
    (terms.forScript config names).Allows config name := by
  refine ⟨.inr ?_, fun _ => ⟨?_, ?_, ?_⟩⟩
  · cases generated : config.isGenerated name with
    | false => exact .inl rfl
    | true => exact .inr (mem_filter.mpr ⟨mem, generated⟩)
  · exact fun mark => absurd (segment.word '!' mark) (by decide)
  · rintro rfl
    exact absurd (segment.word '&' (by decide)) (by decide)
  · rintro rfl
    exact absurd (segment.word '|' (by decide)) (by decide)

theorem allows_keyword (suits : terms.Suits config) (names : List String) (mem : word ∈ keywords) :
    (terms.forScript config names).Allows config word := by
  have plain : ∀ word ∈ keywords, '!' ∉ word.toList ∧ word ≠ "&&" ∧ word ≠ "||" := by decide
  refine ⟨?_, fun _ => plain word mem⟩
  exact suits.imp_right (fun named => .inl (named word mem))

theorem allows_char (usable : config.Usable) {c : Char} (notWord : isWordChar c = false)
    (notMark : c ≠ '!') : terms.Allows config (String.ofList [c]) := by
  have letters : (String.ofList [c]).toList = [c] := String.toList_ofList
  refine ⟨.inr (.inl (Config.isGenerated_of_head usable letters notWord)), fun _ => ⟨?_, ?_, ?_⟩⟩
  · rw [letters, mem_singleton]
    exact notMark.symm
  · intro same
    rw [same] at letters
    exact absurd letters (by simp)
  · intro same
    rw [same] at letters
    exact absurd letters (by simp)

theorem allows_mark (usable : config.Usable) (mem : word ∈ marks) : terms.Allows config word := by
  simp only [marks, mem_cons, not_mem_nil, or_false] at mem
  rcases mem with rfl | rfl | rfl | rfl | rfl <;>
    exact allows_char usable (by decide) (by decide)

theorem allows_separator (usable : config.Usable) : terms.Allows config config.separator.toString := by
  have separates := Config.separates usable.separator
  refine allows_char usable separates.not_wordChar ?_
  rintro same
  exact separates.symbols .negation (same ▸ by decide)

theorem allows_filler (usable : config.Usable) {token : Token}
    (filler : token.IsFiller config.separator) : terms.Allows config token.text := by
  rcases filler with isChar | isChar | isChar
  · rw [Token.text_of_isChar isChar]
    exact allows_separator usable
  · rw [Token.text_of_isChar isChar]
    exact allows_char usable (by decide) (by decide)
  · rw [Token.text_of_isChar isChar]
    exact allows_char usable (by decide) (by decide)

def IsScriptWord (config : Config) (names : List String) (word : String) : Prop :=
  word ∈ names ∨ word ∈ keywords ∨ word ∈ marks ∨ word = config.separator.toString

theorem allows_script (usable : config.Usable) (suits : terms.Suits config) (segments : ∀ name ∈ names, IsSegment name)
    (isWord : IsScriptWord config names word) : (terms.forScript config names).Allows config word := by
  rcases isWord with name | keyword | mark | rfl
  · exact allows_name name (segments word name)
  · exact allows_keyword suits names keyword
  · exact allows_mark usable mark
  · exact allows_separator usable

theorem isScriptWord_assignment {value : String} (named : IsScriptWord config names name)
    (valued : IsScriptWord config names value) : ∀ word ∈ Compile.assignmentWords name value config.separator,
      IsScriptWord config names word := by
  have mark : ∀ word ∈ marks, IsScriptWord config names word := fun word mem =>
    .inr (.inr (.inl mem))
  simp only [Compile.assignmentWords, forall_mem_cons, not_mem_nil, false_implies, implies_true, and_true]
  exact ⟨mark _ (by decide), named, mark _ (by decide), valued, .inr (.inr (.inr rfl)),
    mark _ (by decide)⟩

theorem isScriptWord_condition (named : IsScriptWord config names name) :
    ∀ word ∈ ["if", "(", name, ")"], IsScriptWord config names word := by
  have mark : ∀ word ∈ marks, IsScriptWord config names word := fun word mem =>
    .inr (.inr (.inl mem))
  simp only [forall_mem_cons, not_mem_nil, false_implies, implies_true, and_true]
  exact ⟨.inr (.inl (by decide)), mark _ (by decide), named, mark _ (by decide)⟩

theorem isScriptWord_conditional {cond value : String} (tested : IsScriptWord config names cond)
    (named : IsScriptWord config names name) (valued : IsScriptWord config names value) :
    ∀ word ∈ Compile.conditionalWords cond name value config.separator, IsScriptWord config names word := by
  intro word mem
  rcases mem_append.mp mem with first | second
  · exact isScriptWord_condition tested word first
  · exact isScriptWord_assignment named valued word second

theorem isScriptWord_negation (name : String) :
    ∀ word ∈ Compile.negationWords name config.separator, IsScriptWord config [name] word := by
  have named : IsScriptWord config [name] name := .inl (mem_singleton.mpr rfl)
  have keyword : ∀ word ∈ keywords, IsScriptWord config [name] word := fun word mem =>
    .inr (.inl mem)
  intro word mem
  rcases mem_append.mp mem with first | second
  · rcases mem_append.mp first with first | other
    · exact isScriptWord_conditional named named (keyword _ (by decide)) word first
    · rw [mem_singleton.mp other]
      exact keyword _ (by decide)
  · exact isScriptWord_assignment named (keyword _ (by decide)) word second

end Terms

/-! ## Operations on truth values -/

namespace State

variable {terms : Terms} {s t : State}

/-- The variable is a truth value in a register that can be used. -/
structure HasTruth (terms : Terms) (s : State) (id : Nat) (var : Variable) : Prop where
  found : s.vars[id]? = some var
  isBool : var.type = .bool
  held : ∃ reg, var.value = .register reg
  isOpen : s.Open terms var

theorem HasTruth.typed {id : Nat} {var : Variable} (truth : s.HasTruth terms id var) : s.Typed terms .bool id :=
  ⟨var, truth.found, truth.isBool, truth.isOpen⟩

theorem HasTruth.grows {id : Nat} {var : Variable} (truth : s.HasTruth terms id var) (stable : s.Stable terms)
    (grows : Grows terms s t) : ∃ later, t.HasTruth terms id later ∧ later.name = var.name := by
  obtain ⟨later, found, isBool, isOpen⟩ := truth.typed.grows stable grows
  obtain ⟨other, isOther, keeps⟩ := grows.vars id var truth.found
  rw [found] at isOther
  cases isOther
  obtain ⟨reg, held⟩ := truth.held
  exact ⟨later, ⟨found, isBool, ⟨reg, keeps.register reg held⟩, isOpen⟩, keeps.name⟩

def NamesTruth (terms : Terms) (s : State) (name : String) : Prop :=
  ∃ id var, s.HasTruth terms id var ∧ var.name = name

theorem NamesTruth.grows (names : s.NamesTruth terms name) (stable : s.Stable terms)
    (grows : Grows terms s t) : t.NamesTruth terms name := by
  obtain ⟨id, var, truth, rfl⟩ := names
  obtain ⟨later, truth', called⟩ := truth.grows stable grows
  exact ⟨id, later, truth', called⟩

theorem NamesTruth.segment (names : s.NamesTruth terms name) (sound : s.Sound) : IsSegment name := by
  obtain ⟨id, var, truth, rfl⟩ := names
  exact (sound.declared id var truth.found).2.1

theorem Ready.forScript (ready : s.Ready terms) (guards : terms.Guards) (plain : terms.plain = false)
    (used : ∀ name ∈ names, s.NamesTruth terms name) : s.Ready (terms.forScript s.config names) := by
  refine { ready with names := ?_ }
  intro name mem
  obtain ⟨inside, generated⟩ := mem_filter.mp mem
  obtain ⟨id, var, truth, rfl⟩ := used name inside
  obtain ⟨reg, held⟩ := truth.held
  obtain ⟨spared, _, here, _⟩ := truth.isOpen reg held
  have place := here guards plain generated
  obtain ⟨scope, around⟩ := ScopeTree.exists_of_lt_size ready.sound.current
  have notText : var.type ≠ .string := by
    rw [truth.isBool]
    decide
  obtain ⟨n, drawn, called⟩ :=
    ready.sound.drawn id var scope truth.found notText (by rw [place]; exact around) generated
  have bound := (ready.sound.declared id var truth.found).2.2
  rw [place] at bound
  exact ⟨n, id, var, scope, reg, called, around, drawn,
    ready.sound.resolve_of_lookup ready.below bound, truth.found, held, spared, truth.isBool⟩

end State

namespace Compile

variable {terms : Terms} {s : State}

theorem copyIntoTemporary_behaves (ready : s.Ready terms) {type : ValueType} (isVar : s.IsVar type value) :
    Behaves terms s (copyIntoTemporary value pos) (fun id t => ∃ var, t.HasTruth terms id var) := by
  unfold copyIntoTemporary
  refine .seq (temporary_behaves ready.toStable) ready ?_
  rintro temp t ready' grows ⟨var, name, made, _⟩
  have typed := made.typed ready.toStable grows
  obtain ⟨_, found, _, isOpen⟩ := typed
  rw [made.found] at found
  cases found
  have truth : t.HasTruth terms temp var :=
    ⟨made.found, made.isType, ⟨_, made.score (.inr rfl) (by decide)⟩, isOpen⟩
  refine .seq (copyTo_behaves ready'.toStable (isVar.grows grows) truth.typed.clear) ready' ?_
  intro cmds u ready'' later harmless
  refine .seq (emit_behaves ready'' harmless) ready'' ?_
  intro _ v _ last _
  obtain ⟨var', truth', _⟩ := truth.grows ready'.toStable (later.trans last ready'.usable ready'.sound)
  exact .pure ⟨var', truth'⟩

theorem nameable_behaves (ready : s.Ready terms) {var : Variable} (truth : s.HasTruth terms value var) :
    Behaves terms s (nameable value pos) (fun name t => t.NamesTruth terms name) := by
  unfold nameable
  refine .ok_bind (runFrom_var truth.found) (.get_bind ?_)
  split
  · exact .pure ⟨value, var, truth, rfl⟩
  · refine .seq (copyIntoTemporary_behaves ready truth.typed.isVar) ready ?_
    rintro temp t ready' grows ⟨copied, truth'⟩
    exact .ok_bind (runFrom_var truth'.found) (.pure ⟨temp, copied, truth', rfl⟩)

end Compile

namespace Engine

open Compile

variable {terms : Terms} {s : State} {engine : Engine} {budget : Nat}

section

variable (lawful : engine.Lawful s.config terms budget) (ready : s.Ready terms)
include lawful ready

theorem Lawful.callGenerated_behaves (plain : terms.plain = false) (used : ∀ name ∈ names, s.NamesTruth terms name)
    {script : String} {texts : List String} (spells : Token.Spells s.config.separator script.toList texts)
    (words : ∀ text ∈ texts, Terms.IsScriptWord s.config names text) :
    Behaves terms s (engine.callGenerated script pos) (fun _ _ => True) := by
  unfold callGenerated
  have segments : ∀ name ∈ names, IsSegment name := fun name mem =>
    (used name mem).segment ready.sound
  have allows : ∀ text ∈ texts, (terms.forScript s.config names).Allows s.config text :=
    fun text mem => Terms.allows_script ready.usable lawful.suits segments (words text mem)
  have generates : MakesUnit terms s (engine.generate script pos) := by
    by_cases guards : terms.Guards
    · exact lawful.generate plain s _ script texts pos ready (ready.forScript guards plain used)
        rfl spells allows
    · -- Where nothing is guarded, any word may stand in the script.
      refine lawful.generate plain s [] script texts pos ready ?_ rfl spells ?_
      · exact { ready with names := fun _ mem => nomatch mem }
      · exact fun text mem => ⟨.inl guards, (allows text mem).plain⟩
  exact Ends.bind generates (fun path t grows new => emitCall_ends ready grows new)

theorem Lawful.negate_behaves (plain : terms.plain = false) (isVar : s.IsVar .bool value) :
    Behaves terms s (engine.negate value pos) (fun id t => t.Typed terms .bool id) := by
  obtain ⟨var, found, isBool⟩ := id isVar
  unfold negate
  rcases operand_cases ready.sound found (.inr isBool) pos with
    ⟨score, _, ran⟩ | ⟨reg, held, ran⟩ | ⟨_, fault, ran, blameless⟩
  · exact .ok_bind ran (constantBool_behaves ready.toStable)
  · refine .ok_bind ran ?_
    refine .seq (copyIntoTemporary_behaves ready isVar) ready ?_
    rintro result t ready' grows ⟨copied, truth⟩
    refine .ok_bind (runFrom_var truth.found) (.get_bind ?_)
    have used : ∀ name ∈ [copied.name], t.NamesTruth terms name := by
      intro name mem
      rw [mem_singleton.mp mem]
      exact ⟨result, copied, truth, rfl⟩
    have segment := (used _ (mem_singleton.mpr rfl)).segment ready'.sound
    refine .seq (Lawful.callGenerated_behaves (grows.config.symm ▸ lawful) ready' plain used
      (spells_negation ready'.usable.separator segment) (Terms.isScriptWord_negation copied.name)) ready' ?_
    exact fun _ u _ later _ => .pure (truth.typed.grows ready'.toStable later)
  · exact .error_bind ran blameless

theorem Lawful.connectRegisters_behaves (plain : terms.plain = false) {left : Nat}
    (isLeft : s.IsVar .bool left) {rightVar : Variable} (truth : s.HasTruth terms right rightVar) :
    Behaves terms s
      (do
        let result ← copyIntoTemporary left pos
        let name := (← var result).name
        let other ← nameable right pos
        let sep := (← get).config.separator
        let script := if conjunction then conjunctionScript name other sep
          else disjunctionScript name other sep
        engine.callGenerated script pos
        return result)
      (fun id t => t.Typed terms .bool id) := by
  refine .seq (copyIntoTemporary_behaves ready isLeft) ready ?_
  rintro result t ready' grows ⟨copied, isCopy⟩
  refine .ok_bind (runFrom_var isCopy.found) ?_
  obtain ⟨_, kept, _⟩ := truth.grows ready.toStable grows
  refine .seq (nameable_behaves ready' kept) ready' ?_
  intro other u ready'' later names
  refine .get_bind ?_
  have named : u.NamesTruth terms copied.name :=
    .grows ⟨result, copied, isCopy, rfl⟩ ready'.toStable later
  have used : ∀ name ∈ [copied.name, other], u.NamesTruth terms name := by
    simpa only [forall_mem_cons, not_mem_nil, false_implies, implies_true, and_true]
      using ⟨named, names⟩
  have isName : Terms.IsScriptWord u.config [copied.name, other] copied.name := .inl (by simp)
  have isOther : Terms.IsScriptWord u.config [copied.name, other] other := .inl (by simp)
  have isTrue : Terms.IsScriptWord u.config [copied.name, other] "true" := .inr (.inl (by decide))
  have sep := ready''.usable.separator
  have segment := named.segment ready''.sound
  have segment' := names.segment ready''.sound
  have lawful' : engine.Lawful u.config terms budget := by
    rw [later.config, grows.config]
    exact lawful
  have calls : Behaves terms u (engine.callGenerated
      (if conjunction then conjunctionScript copied.name other u.config.separator
        else disjunctionScript copied.name other u.config.separator) pos)
      (fun _ _ => True) := by
    cases conjunction with
    | true =>
      exact lawful'.callGenerated_behaves ready'' plain used
        (spells_conjunction sep segment segment')
        (Terms.isScriptWord_conditional isName isName isOther)
    | false =>
      exact lawful'.callGenerated_behaves ready'' plain used
        (spells_disjunction sep segment segment')
        (Terms.isScriptWord_conditional isOther isName isTrue)
  refine .seq calls ready'' ?_
  intro _ v _ last _
  exact .pure (isCopy.typed.grows ready'.toStable (later.trans last ready'.usable ready'.sound))

theorem Lawful.connect_behaves (plain : terms.plain = false) {left : Nat} (isLeft : s.Typed terms .bool left)
    (isRight : s.Typed terms .bool right) :
    Behaves terms s (engine.connect left conjunction right pos) (fun id t => t.Typed terms .bool id) := by
  obtain ⟨leftVar, foundLeft, boolLeft, openLeft⟩ := id isLeft
  obtain ⟨rightVar, foundRight, boolRight, openRight⟩ := id isRight
  unfold connect
  rcases operand_cases ready.sound foundLeft (.inr boolLeft) pos with
    ⟨a, _, ran⟩ | ⟨reg, heldLeft, ran⟩ | ⟨_, fault, ran, blameless⟩
  · refine .ok_bind ran ?_
    rcases operand_cases ready.sound foundRight (.inr boolRight) pos with
      ⟨b, _, ran⟩ | ⟨reg, heldRight, ran⟩ | ⟨_, fault, ran, blameless⟩
    · exact .ok_bind ran (constantBool_behaves ready.toStable)
    · refine .ok_bind ran ?_
      dsimp only
      split
      · exact .pure isRight
      · exact constantBool_behaves ready.toStable
    · exact .error_bind ran blameless
  · refine .ok_bind ran ?_
    rcases operand_cases ready.sound foundRight (.inr boolRight) pos with
      ⟨b, _, ran⟩ | ⟨register', heldRight, ran⟩ | ⟨_, fault, ran, blameless⟩
    · refine .ok_bind ran ?_
      dsimp only
      split
      · exact .pure isLeft
      · exact constantBool_behaves ready.toStable
    · refine .ok_bind ran ?_
      exact lawful.connectRegisters_behaves ready plain isLeft.isVar
        ⟨foundRight, boolRight, ⟨register', heldRight⟩, openRight⟩
    · exact .error_bind ran blameless
  · exact .error_bind ran blameless

theorem Lawful.operateBool_behaves {target : Nat} (typed : s.Typed terms .bool target) (given : s.Clear terms right)
    {op : Operator} (plain : op.kind = .boolean → terms.plain = false) :
    Behaves terms s (engine.operateBool target op right pos) (fun id t => t.Clear terms id) := by
  have connects : ∀ conjunction, terms.plain = false → Behaves terms s (do
        let value ← cast right ValueType.bool.name pos
        engine.connect target conjunction value pos) (fun id t => t.Clear terms id) := by
    intro conjunction plain
    refine .seq (cast_behaves ready given nofun) ready ?_
    intro value t ready' grows isValue
    exact (Lawful.connect_behaves (grows.config.symm ▸ lawful) ready' plain
      (typed.grows ready.toStable grows) isValue).mono
      (fun _ _ _ isBool => isBool.clear)
  have compares : op.kind = .comparison → Behaves terms s (do
      let right ← cast right ValueType.bool.name pos
      let lhs ← operand target pos
      let rhs ← operand right pos
      compare lhs op rhs pos) (fun id t => t.Clear terms id) := by
    intro comparison
    refine .seq (cast_behaves ready given nofun) ready ?_
    intro value t ready' grows isValue
    refine .seq (operand_behaves ready'.toStable (typed.isVar.grows grows) (.inr rfl)) ready' ?_
    rintro lhs _ _ _ ⟨rfl, _⟩
    refine .seq (operand_behaves ready'.toStable isValue.isVar (.inr rfl)) ready' ?_
    rintro rhs _ _ _ ⟨rfl, _⟩
    exact (compare_behaves ready' comparison).mono (fun _ _ _ isBool => isBool.clear)
  unfold operateBool
  cases op with
  | assign =>
    refine .seq (cast_behaves ready given nofun) ready ?_
    intro value t ready' grows isValue
    have kept := typed.grows ready.toStable grows
    refine .seq (copyTo_behaves ready'.toStable isValue.isVar kept.clear) ready' ?_
    intro cmds u ready'' later harmless
    refine .seq (emit_behaves ready'' harmless) ready'' ?_
    intro _ v _ last _
    exact .pure ((kept.grows ready'.toStable (later.trans last ready'.usable ready'.sound)).clear)
  | negation =>
    exact (lawful.negate_behaves ready (plain rfl) typed.isVar).mono (fun _ _ _ isBool => isBool.clear)
  | both => exact connects true (plain rfl)
  | either => exact connects false (plain rfl)
  | equal => exact compares rfl
  | notEqual => exact compares rfl
  | new | access | add | subtract | multiply | divide | modulo | greater | greaterEqual | less
  | lessEqual => exact undefinedOperation_behaves typed.isVar

theorem Lawful.operate_behaves {target : Nat} (clear : s.Clear terms target) (given : s.Clear terms right)
    {op : Operator} (valued : op.kind ≠ .structural) (plain : op.kind = .boolean → terms.plain = false) :
    Behaves terms s (engine.operate target op right pos) (fun id t => t.Clear terms id) := by
  obtain ⟨var, found, isOpen⟩ := id clear
  have typed := clear.typed found
  unfold operate
  rw [if_neg valued]
  refine .ok_bind (runFrom_var found) ?_
  cases type : var.type with
  | int =>
    rw [type] at typed
    exact operateInt_behaves ready typed given
  | bool =>
    rw [type] at typed
    exact lawful.operateBool_behaves ready typed given plain
  | string =>
    rw [type] at typed
    exact operateText_behaves ready.toStable typed given
  | objective =>
    rw [type] at typed
    exact operateObjective_behaves ready typed given

end

end Engine

end ScoreScript
