import ScoreScript.Compiler
import ScoreScript.Proofs.Compile.Additions
import ScoreScript.Proofs.Compile.Regular
import ScoreScript.Proofs.Compile.ScriptTrees

/-!
# Generated names in scripts

The scripts that stand for operations on truth values mention variables by their generated names. The
settings make sure that such a name is a word, but not that the word means nothing else: it can be
a number, a keyword or a type. A generated name reads back as its variable exactly where a script
could have declared it, but for the prefix.
-/

namespace ScoreScript

open List

variable {c : Char} {layout : Layout} {reg : Register} {scope : Scope} {s : State}
  {name word : String} {eq given token : Token} {id : VarId} {owner : Variable}

namespace Compile

def isPlainName (name : String) : Bool :=
  isIdentifier name && !reservedWords.contains name && (ValueType.ofName? name).isNone

theorem isDigit_eq_false (letter : (c.isAlpha || c == '_') = true) : c.isDigit = false := by
  have isAlpha : c.isAlpha = (c.isUpper || c.isLower) := rfl
  rw [← Bool.not_eq_true, isDigit_iff]
  simp only [isAlpha, Bool.or_eq_true, isUpper_iff, isLower_iff, beq_iff_eq] at letter
  rcases letter with letter | rfl
  · omega
  · decide

theorem isPlainName_elim (plain : isPlainName name = true) : name ∉ reservedWords ∧ ValueType.ofName? name = none ∧
      ∃ c rest, name.toList = c :: rest ∧ c.isDigit = false := by
  simp only [isPlainName, Bool.and_eq_true, Bool.not_eq_true', contains_eq_mem,
    decide_eq_false_iff_not, Option.isNone_iff_eq_none] at plain
  obtain ⟨⟨identifier, free⟩, noType⟩ := plain
  refine ⟨free, noType, ?_⟩
  cases chars : name.toList with
  | nil =>
    rw [isIdentifier, chars] at identifier
    cases identifier
  | cons c rest =>
    rw [isIdentifier, chars, Bool.and_eq_true] at identifier
    exact ⟨c, rest, rfl, isDigit_eq_false identifier.1⟩

theorem not_isPlainName_cases (segment : IsSegment name) (other : isPlainName name = false) :
    (∃ c rest, name.toList = c :: rest ∧ c.isDigit = true) ∨ name ∈ reservedWords ∨
      ∃ type : ValueType, name = type.name := by
  by_cases identifier : isIdentifier name = true
  · right
    by_cases reserved : name ∈ reservedWords
    · exact .inl reserved
    · have isType : (ValueType.ofName? name).isSome = true := by
        simpa [isPlainName, identifier, reserved] using other
      obtain ⟨type, found⟩ := Option.isSome_iff_exists.mp isType
      have same := find?_some found
      exact .inr ⟨type, (beq_iff_eq.mp same).symm⟩
  · left
    cases chars : name.toList with
    | nil => exact absurd chars segment.nonempty
    | cons c rest =>
      have all (other : Char) (mem : other ∈ c :: rest) : isWordChar other = true :=
        segment.word other (chars ▸ mem)
      have first := all c mem_cons_self
      have later : rest.all (fun c => c.isAlphanum || c == '_') = true :=
        all_eq_true.mpr (fun other mem => all other (mem_cons_of_mem _ mem))
      simp only [isIdentifier, chars, later, Bool.and_true, Bool.not_eq_true] at identifier
      have isAlphanum : c.isAlphanum = (c.isAlpha || c.isDigit) := rfl
      rw [isWordChar, isAlphanum] at first
      refine ⟨c, rest, rfl, ?_⟩
      cases digit : c.isDigit with
      | true => rfl
      | false =>
        rw [digit, Bool.or_false, identifier] at first
        exact first

theorem isPlainName_generatedName {config : Config} (usable : config.Usable)
    (starts : ∀ c ∈ config.anonymousPrefix.toList.head?, c.isDigit = false)
    (apart : ∀ word ∈ reservedWords ++ ValueType.all.map ValueType.name,
      ¬ config.anonymousPrefix.toList <+: word.toList) (n : Nat) : isPlainName (config.generatedName n) = true := by
  have whole : (config.generatedName n).toList =
      config.anonymousPrefix.toList ++ (Base62.render n).toList := String.toList_append
  have nonempty : config.anonymousPrefix.toList ≠ [] := by
    have rule := usable.anonymousPrefix
    simp only [Config.isAnonymousPrefix, Bool.and_eq_true, Bool.not_eq_true', isEmpty_eq_false_iff] at rule
    exact rule.1
  have distinct {word : String} (mem : word ∈ reservedWords ++ ValueType.all.map ValueType.name) :
      config.generatedName n ≠ word := by
    rintro rfl
    exact apart _ mem (whole ▸ prefix_append _ _)
  cases plain : isPlainName (config.generatedName n) with
  | true => rfl
  | false =>
    rcases not_isPlainName_cases (config.isSegment_generatedName usable n) plain with
      ⟨c, rest, chars, digit⟩ | reserved | ⟨type, isType⟩
    · obtain ⟨first, others, isFirst⟩ := exists_cons_of_ne_nil nonempty
      rw [whole, isFirst, cons_append] at chars
      rw [← (cons.inj chars).1, starts first (by rw [isFirst]; rfl)] at digit
      cases digit
    · exact absurd rfl (distinct (mem_append_left _ reserved))
    · exact absurd isType (distinct (mem_append_right _ (mem_map_of_mem (by cases type <;> decide))))

theorem isPlainName_default (n : Nat) : isPlainName (({} : Config).generatedName n) = true := by
  have valid : ({} : Config).Valid := by decide
  have apart : ∀ word ∈ reservedWords ++ ValueType.all.map ValueType.name,
      ¬ ['a', 'n', 'o', 'n', '_'] <+: word.toList := by decide
  refine isPlainName_generatedName valid.usable ?_ apart n
  rintro c ⟨⟩
  rfl

end Compile

namespace Engine

open Compile

variable {s : State}

/-! ## Words as values -/

theorem parse?_eq_none {rest : List Char} (chars : word.toList = c :: rest) (minus : c ≠ '-')
    (plus : c ≠ '+') (letter : c.isDigit = false) : Score.parse? word = none := by
  unfold Score.parse?
  simp only [chars]
  split
  · next same => exact absurd (cons.inj same).1 minus
  · next same => exact absurd (cons.inj same).1 plus
  · exact if_pos (by simp [letter])

theorem literal?_eq_none_iff {rest : List Char} (chars : word.toList = c :: rest) (isWord : isWordChar c = true)
    (pos : Position) : literal? word pos = none ↔ word ≠ "true" ∧ word ≠ "false" ∧ c.isDigit = false := by
  have distinct (other : Char) (notWord : isWordChar other = false) : c ≠ other := by
    rintro rfl
    rw [isWord] at notWord
    cases notWord
  by_cases isTrue : word = "true"
  · simp [literal?, isTrue]
  by_cases isFalse : word = "false"
  · simp [literal?, isFalse]
  have unquoted : ¬ (word.toList.head? == some '"') = true := by
    simpa [chars] using distinct '"' (by decide)
  rw [literal?, if_neg (by simpa using isTrue), if_neg (by simpa using isFalse), if_neg unquoted]
  simp only [ne_eq, isTrue, isFalse, not_false_eq_true, true_and, chars]
  cases letter : c.isDigit with
  | true =>
    cases Score.parse? word with
    | some score => simp
    | none =>
      dsimp only
      split
      · next same => exact absurd (cons.inj same).1 (distinct '-' (by decide))
      · simp [letter]
  | false =>
    rw [parse?_eq_none chars (distinct '-' (by decide)) (distinct '+' (by decide)) letter]
    dsimp only
    split
    · next same => exact absurd (cons.inj same).1 (distinct '-' (by decide))
    · simp [letter]

theorem size_le_of_literal? {pos : Position} {step : Compile VarId}
    (isLiteral : literal? word pos = some step) {t : State} (ran : step.runFrom s = (.ok id, t)) :
    s.vars.size ≤ id := by
  have constant (type : ValueType) (value : Value)
      (ran : (Compile.constant type value pos).runFrom s = (.ok id, t)) : s.vars.size ≤ id := by
    obtain ⟨_, _, _, made⟩ := valued_leads.of_ran ran
    exact made.new
  rcases literal?_cases isLiteral with ⟨_, rfl⟩ | ⟨_, rfl⟩ | ⟨_, rfl⟩ | ⟨_, rfl, _⟩
  · exact constant .bool _ ran
  · exact constant .string _ ran
  · exact constant .int _ ran
  · cases ran

theorem runFrom_named (noOperator : Operator.ofSymbol? word = none) (bound : s.scopes.lookup s.current word = some id)
    (pos : Position) : (named word pos).runFrom s = (.ok id, s) := by
  simp only [named, noOperator, Option.isSome_none, Bool.false_eq_true, if_false, runFrom_bind,
    runFrom_get, State.resolve, ScopeTree.resolve_of_lookup bound, runFrom_pure]

theorem ofSymbol?_of_isSegment (segment : IsSegment word) (other : word ≠ "new") : Operator.ofSymbol? word = none := by
  cases found : Operator.ofSymbol? word with
  | none => rfl
  | some op =>
    have symbol := Operator.symbol_of_ofSymbol? found
    have letters : op.symbol.toList.all isWordChar = true := by
      rw [symbol]
      exact all_eq_true.mpr segment.word
    cases op with
    | new => exact absurd symbol.symm other
    | _ => exact absurd letters (by decide)

theorem runFrom_evaluateSequence_word (engine : Engine) (segment : IsSegment token.text)
    (bound : s.scopes.lookup s.current token.text = some id) (inside : id < s.vars.size) (pos : Position) :
    (engine.evaluateSequence [.leaf token] pos).runFrom s = (.ok (some id), s) ↔
      token.text ≠ "new" ∧ literal? token.text token.position = none := by
  rw [evaluateSequence_segment engine segment]
  by_cases isNew : token.text = "new"
  · rw [if_pos isNew]
    refine iff_of_false ?_ (fun both => both.1 isNew)
    rintro ⟨⟩
  · rw [if_neg isNew]
    cases literal : literal? token.text token.position with
    | none =>
      refine iff_of_true ?_ ⟨isNew, rfl⟩
      rw [Option.getD_none, runFrom_bind_ok (runFrom_named (ofSymbol?_of_isSegment segment isNew) bound _)]
      rfl
    | some step =>
      refine iff_of_false ?_ (by rintro ⟨_, ⟨⟩⟩)
      intro ran
      obtain ⟨value, t, made, same⟩ := runFrom_bind_eq_ok.mp ran
      cases same
      exact absurd inside (Nat.not_lt_of_le (size_le_of_literal? literal made))

end Engine

/-! ## Assignments -/

namespace State

/-- A truth value that is known while compiling, under the next generated name of the current
scope. -/
def withTruth (s : State) (drawn : Nat) (holds : Bool) (pos : Position) : State :=
  s.draw.enterVar
    { type := .bool, access := .hidden, usage := .constant, name := s.config.generatedName drawn,
      scope := s.current, position := pos, value := .int (if holds then 1 else 0) }

theorem var_withTruth_old {id : Nat} (found : s.vars[id]? = some owner) (drawn : Nat) (holds : Bool)
    (pos : Position) : (s.withTruth drawn holds pos).vars[id]? = some owner :=
  var_enterVar_old _ found

theorem var_withTruth_new (s : State) (drawn : Nat) (holds : Bool) (pos : Position) :
    ∃ given, (s.withTruth drawn holds pos).vars[s.vars.size]? = some given ∧
      given.type = .bool ∧ given.value = .int (if holds then 1 else 0) :=
  ⟨_, var_enterVar_new s.draw _, rfl, rfl⟩

theorem scope_withTruth (here : s.scopes.scopes[s.current]? = some scope) (drawn : Nat) (holds : Bool)
    (pos : Position) : ∃ later, (s.withTruth drawn holds pos).scopes.scopes[s.current]? = some later := by
  refine ScopeTree.exists_of_lt_size ?_
  rw [withTruth, scopes_size_enterVar]
  exact ScopeTree.lt_size_of_getElem? (Compile.scope_draw here)

/-- What becomes of a state in which the register of a truth value is set to `false`: the value
gets a variable of its own first, which fails only where the next generated name is taken. -/
inductive Assigns (s : State) (reg : Register) : Except Fault Unit × State → Prop where
  | done {scope : Scope} (here : s.scopes.scopes[s.current]? = some scope)
      (free : s.scopes.lookup s.current (s.config.generatedName scope.drawn) = none)
      (pos : Position) :
      Assigns s reg
        (.ok (), (s.withTruth scope.drawn false pos).log { activation := [.set reg 0] })
  | taken {scope : Scope} (here : s.scopes.scopes[s.current]? = some scope) {other : VarId}
      (bound : s.scopes.lookup s.current (s.config.generatedName scope.drawn) = some other)
      (path : String) (pos : Position) :
      Assigns s reg
        (.error ⟨.duplicateVariable (s.config.generatedName scope.drawn) path, pos⟩, s.draw)

theorem draw_ne (here : s.scopes.scopes[s.current]? = some scope) : s.draw ≠ s := by
  intro same
  have drawn := Compile.scope_draw here
  rw [same, here] at drawn
  exact absurd (congrArg Scope.drawn (Option.some.inj drawn)) (Nat.ne_of_lt (Nat.lt_succ_self _))

theorem Assigns.ne_of_error {ran : Except Fault Unit × State} (assigns : s.Assigns reg ran)
    {fault : Fault} (failed : ran.1 = .error fault) : ran.2 ≠ s := by
  cases assigns with
  | done => cases failed
  | taken here => exact draw_ne here

end State

namespace Compile

variable {s : State}

theorem runFrom_constantBool (here : s.scopes.scopes[s.current]? = some scope)
    (free : s.scopes.lookup s.current (s.config.generatedName scope.drawn) = none) (holds : Bool)
    (pos : Position) :
    (constantBool holds pos).runFrom s = (.ok s.vars.size, s.withTruth scope.drawn holds pos) := by
  have memberless : ValueType.bool ≠ .objective := by decide
  exact runFrom_constant here free memberless _ pos

theorem runFrom_constantBool_taken (here : s.scopes.scopes[s.current]? = some scope) {other : VarId}
    (bound : s.scopes.lookup s.current (s.config.generatedName scope.drawn) = some other)
    (holds : Bool) (pos : Position) : ∃ path, (constantBool holds pos).runFrom s =
      (.error ⟨.duplicateVariable (s.config.generatedName scope.drawn) path, pos⟩, s.draw) := by
  have refused : (enterVariable .bool .hidden .constant (s.config.generatedName scope.drawn)
      pos).runFrom s.draw = _ :=
    runFrom_enterVariable_bound (scope_draw here) rfl ((s.lookup_draw _).trans bound)
  refine ⟨"/".intercalate (s.draw.scopes.segments s.draw.current), ?_⟩
  simp only [constantBool, constant, anonymous, declareInternal, typeNamed_name, runFrom_bind,
    runFrom_get, runFrom_nextAnonymous here, runFrom_lift, refused]

end Compile

namespace Engine

open Compile

variable {s : State}

theorem runFrom_operate_assign (engine : Engine) {target right : VarId} {given : Variable} {score : Score}
    (found : s.vars[target]? = some owner) (isBool : owner.type = .bool) (resident : owner.value = .register reg)
    (found' : s.vars[right]? = some given) (isBool' : given.type = .bool) (known : given.value = .int score)
    (here : s.scopes.scopes[s.current]? = some scope) (pos : Position) :
    (engine.operate target .assign right pos).runFrom s =
      (.ok target, s.log { activation := [.set reg (if score = 0 then 0 else 1)] }) := by
  have converted : (Compile.cast right ValueType.bool.name pos).runFrom s = (.ok right, s) := by
    rw [Compile.cast, castWith, runFrom_bind_ok (runFrom_var found'), isBool', if_pos rfl, runFrom_pure]
  have src : (operand right pos).runFrom s = (.ok (.constant score), s) := by
    simp only [operand, runFrom_bind, runFrom_var found', known, runFrom_pure]
  have stored : (copyTo right target pos).runFrom s = (.ok [.set reg (if score = 0 then 0 else 1)], s) := by
    rw [copyTo, runFrom_bind_ok (runFrom_var found'), isBool']
    simp only [runFrom_bind, runFrom_var found, isBool, ne_eq, not_true_eq_false, if_false, src,
      store, resident, Compile.normalize, runFrom_pure]
  rw [operate, if_neg (by decide)]
  dsimp only
  rw [runFrom_bind_ok (runFrom_var found), isBool]
  dsimp only
  rw [operateBool, runFrom_bind_ok converted, runFrom_bind_ok stored,
    runFrom_bind_ok (runFrom_emit_cons here _), runFrom_pure]

theorem runFrom_evaluateItems_word (generate : String → Position → Compile String) (depth : Nat)
    (segment : IsSegment token.text) (bound : s.scopes.lookup s.current token.text = some id)
    (inside : id < s.vars.size)
    (isName : token.text ≠ "new" ∧ literal? token.text token.position = none) (pos : Position) :
    ((ofDepth generate (depth + 1)).evaluateItems [.leaf token] pos).runFrom s = (.ok id, s) := by
  have evaluated := (runFrom_evaluateSequence_word (ofDepth generate depth) segment bound inside
    token.position).mpr isName
  exact runFrom_bind_ok evaluated _

theorem runFrom_evaluateItems_false (generate : String → Position → Compile String) (depth : Nat)
    (isFalse : token.text = "false") (pos : Position) :
    ((ofDepth generate (depth + 1)).evaluateItems [.leaf token] pos).runFrom s =
      (constantBool false token.position).runFrom s := by
  have segment : IsSegment token.text := isFalse ▸ isSegment_keywords.2.2.2
  have evaluated : (ofDepth generate (depth + 1)).evaluate [.leaf token] token.position =
      (do let value ← constantBool false token.position; return some value) := by
    rw [ofDepth]
    dsimp only
    rw [evaluateSequence_segment _ segment, isFalse]
    rfl
  rw [evaluateItems]
  dsimp only [startOf, Tree.position]
  rw [evaluated, runFrom_bind, runFrom_bind]
  cases (constantBool false token.position).runFrom s with
  | mk outcome t => cases outcome <;> rfl

theorem evaluateSequence_assignment (engine : Engine) {word : Token} (named : IsSegment word.text)
    (isEq : eq.text = "=") (pos : Position) :
    engine.evaluateSequence [.leaf word, .leaf eq, .leaf given] pos = (do
      let owner ← engine.evaluateItems [.leaf word] word.position
      let right ← engine.evaluateItems [.leaf given] eq.position
      return some (← engine.operate owner .assign right eq.position)) := by
  have split : splitAssignment [.leaf word, .leaf eq, .leaf given] =
      some ([.leaf word], .leaf eq, [.leaf given]) := by
    simp [splitAssignment, Tree.isWord, Tree.word?, ne_assign_of_isSegment named, isEq]
  have operator : operatorOf (.leaf eq) = .ok (.assign, eq.position) := by
    rw [operatorOf, isEq]
    rfl
  have operated (owner : VarId) : engine.operateWord owner (.leaf eq) [.leaf given] = (do
      let right ← engine.evaluateItems [.leaf given] eq.position
      return some (← engine.operate owner .assign right eq.position)) := by
    rw [operateWord, applyTrailer, operator]
    rfl
  rw [evaluateSequence, split]
  dsimp only
  rw [evaluateAssignment]
  simp only [operated]
  rfl

theorem writeStatement_assignment (engine : Engine) {word : Token} (free : word.text ∉ reservedWords)
    (noType : ValueType.ofName? word.text = none) (pos : Position) : engine.writeStatement
        (.group [.leaf word, .leaf eq, .leaf given] .line .space pos) = (do
      let _ ← engine.evaluate [.leaf word, .leaf eq, .leaf given] pos) := by
  simp only [reservedWords, mem_cons, not_mem_nil, or_false, not_or] at free
  obtain ⟨isIf, isElse, _, _, _, isPublic, isPrivate, isStatic, isConst⟩ := free
  have noModifier : isModifier word.text = false := by
    simp [isModifier, Access.ofWord?, Usage.ofWord?, Access.word, Usage.word, Ne.symm isPublic,
      Ne.symm isPrivate, Ne.symm isStatic, Ne.symm isConst]
  simp [writeStatement, Tree.items, Tree.word?, Tree.isWord, Tree.position, Reader.isKeyword, isIf,
    isElse, isBlock, isDeclaration, noModifier, noType]

theorem write_refused (generate : String → Position → Compile String) (depth : Nat) {word : Token}
    (isEq : eq.text = "=") (isFalse : given.text = "false")
    (taken : word.text ∈ ["else", "public", "private", "static", "const"] ∨
      ∃ type : ValueType, word.text = type.name) (pos : Position) : ∃ fault, ((ofDepth generate (depth + 1)).write
      (.group [.leaf word, .leaf eq, .leaf given] .line .space pos)).runFrom s = (.error fault, s) := by
  obtain ⟨text, place⟩ := word
  obtain ⟨_, place'⟩ := eq
  obtain ⟨_, place''⟩ := given
  cases isEq
  cases isFalse
  simp only [mem_cons, not_mem_nil, or_false] at taken
  rcases taken with (rfl | rfl | rfl | rfl | rfl) | ⟨type, rfl⟩
  · exact ⟨_, rfl⟩
  · exact ⟨_, rfl⟩
  · exact ⟨_, rfl⟩
  · exact ⟨_, rfl⟩
  · exact ⟨_, rfl⟩
  · cases type <;> exact ⟨_, rfl⟩

/-! ## Reading a name back -/

section

variable (valid : Config.isSeparator layout.separator = true) (segment : IsSegment name)
include valid segment

theorem tokenize_word : ∃ token, layout.tokenize name = .ok [token] ∧ token.text = name := by
  have spells : Token.Spells layout.separator (name.toList ++ []) [name] :=
    .segment valid segment (by rintro c rest ⟨⟩) .nil
  obtain ⟨tokens, scanned, texts⟩ := spells (Position.start layout.source)
  rw [append_nil] at scanned
  obtain ⟨token, rest, rfl, same, isNil⟩ := map_eq_cons_iff.mp texts
  rw [map_eq_nil_iff.mp isNil] at scanned
  exact ⟨token, scanned, same⟩

theorem tokenize_assignment : ∃ word eq given stop, layout.tokenize (name ++ " = false" ++ layout.separator.toString) =
      .ok [word, eq, given, stop] ∧ word.text = name ∧ eq.text = "=" ∧ given.text = "false" ∧
      stop.text = layout.separator.toString := by
  have spells : Token.Spells layout.separator
      (name.toList ++ ' ' :: '=' :: ' ' :: ("false".toList ++ [layout.separator]))
      [name, "=", "false", layout.separator.toString] :=
    .segment valid segment (Token.endsWord_space _) (.space (.equals valid
      (.segment valid isSegment_keywords.2.2.2 (Token.endsWord_separator valid _) (.stop valid .nil))))
  have chars : (name ++ " = false" ++ layout.separator.toString).toList =
      name.toList ++ ' ' :: '=' :: ' ' :: ("false".toList ++ [layout.separator]) := by
    rw [String.toList_append, String.toList_append, toList_stop, append_assoc]
    rfl
  obtain ⟨tokens, scanned, texts⟩ := spells (Position.start layout.source)
  rw [← chars] at scanned
  simp only [map_eq_cons_iff, map_eq_nil_iff] at texts
  obtain ⟨word, _, rfl, isName, eq, _, rfl, isEq, given, _, rfl, isFalse, stop, _, rfl, isStop, rfl⟩ :=
    texts
  exact ⟨word, eq, given, stop, scanned, isName, isEq, isFalse, isStop⟩

theorem parseStatements_assignment : ∃ word eq given : Token, word.text = name ∧ eq.text = "=" ∧ given.text = "false" ∧
      ∀ trees, layout.parseStatements (name ++ " = false" ++ layout.separator.toString) = .ok trees ↔ name ≠ "if" ∧
          trees = [.group [.leaf word, .leaf eq, .leaf given] .line .space word.position] := by
  obtain ⟨word, eq, given, stop, cut, rfl, isEq, isFalse, isStop⟩ := tokenize_assignment valid segment
  refine ⟨word, eq, given, rfl, isEq, isFalse, fun trees => ?_⟩
  have parsed : layout.parseStatements (word.text ++ " = false" ++ layout.separator.toString) =
      layout.readStatements [word, eq, given, stop] := by
    rw [Layout.parseStatements, cut]
    rfl
  rw [parsed]
  exact readStatements_assignment valid segment isEq (isFalse ▸ isSegment_keywords.2.2.2) (Token.isChar_of_text isStop)

end

/-- The word `name` gives the variable `id`, and assigning `false` to it sets `register`. -/
structure ReadsBack (engine : Engine) (s : State) (name : String) (id : VarId)
    (reg : Register) : Prop where
  value : ∃ token, s.layout.tokenize name = .ok [token] ∧
    (engine.evaluate [.leaf token] token.position).runFrom s = (.ok (some id), s)
  assignment : ∃ tree, s.layout.parseStatements (name ++ " = false" ++ s.config.separator.toString) = .ok [tree] ∧
    s.Assigns reg ((engine.write tree).runFrom s)

theorem isName_of_isPlainName (segment : IsSegment name) (plain : isPlainName name = true) (pos : Position) :
    name ≠ "new" ∧ literal? name pos = none := by
  obtain ⟨free, _, c, rest, chars, letter⟩ := isPlainName_elim plain
  have distinct {other : String} (reserved : other ∈ reservedWords) : name ≠ other := by
    rintro rfl
    exact free reserved
  refine ⟨distinct (by decide), (literal?_eq_none_iff chars ?_ pos).mpr
    ⟨distinct (by decide), distinct (by decide), letter⟩⟩
  exact segment.word c (chars ▸ mem_cons_self)

theorem isPlainName_of_isName (segment : IsSegment name) {pos : Position}
    (isName : name ≠ "new" ∧ literal? name pos = none) (notIf : name ≠ "if")
    (free : ¬ (name ∈ ["else", "public", "private", "static", "const"] ∨
      ∃ type : ValueType, name = type.name)) : isPlainName name = true := by
  obtain ⟨notNew, noLiteral⟩ := isName
  rw [not_or] at free
  have word {c : Char} {rest : List Char} (chars : name.toList = c :: rest) :
      name ≠ "true" ∧ name ≠ "false" ∧ c.isDigit = false :=
    (literal?_eq_none_iff chars (segment.word c (chars ▸ mem_cons_self)) pos).mp noLiteral
  cases plain : isPlainName name with
  | true => rfl
  | false =>
    rcases not_isPlainName_cases segment plain with ⟨c, rest, chars, digit⟩ | reserved | isType
    · rw [(word chars).2.2] at digit
      cases digit
    · obtain ⟨c, rest, chars⟩ := exists_cons_of_ne_nil segment.nonempty
      obtain ⟨notTrue, notFalse, _⟩ := word chars
      simp only [reservedWords, mem_cons, not_mem_nil, or_false, notIf, notNew, notTrue,
        notFalse, false_or] at reserved free
      exact absurd reserved free.1
    · exact absurd isType free.2

theorem write_assigns (generate : String → Position → Compile String) (depth : Nat) {word : Token}
    (segment : IsSegment word.text) (plain : isPlainName word.text = true) (isEq : eq.text = "=")
    (isFalse : given.text = "false") (bound : s.scopes.lookup s.current word.text = some id)
    (found : s.vars[id]? = some owner) (isBool : owner.type = .bool)
    (resident : owner.value = .register reg) (pos : Position) :
    s.Assigns reg (((ofDepth generate (depth + 3)).write
      (.group [.leaf word, .leaf eq, .leaf given] .line .space pos)).runFrom s) := by
  obtain ⟨free, noType, _⟩ := isPlainName_elim plain
  obtain ⟨scope, here, _⟩ := Option.bind_eq_some_iff.mp bound
  have inside : id < s.vars.size := (Array.getElem?_eq_some_iff.mp found).1
  have target := runFrom_evaluateItems_word generate depth segment bound inside
    (isName_of_isPlainName segment plain _) word.position
  have value := runFrom_evaluateItems_false (s := s) generate depth isFalse eq.position
  have written : (ofDepth generate (depth + 3)).write
      (.group [.leaf word, .leaf eq, .leaf given] .line .space pos) = (do
        let _ ← (ofDepth generate (depth + 1)).evaluateSequence [.leaf word, .leaf eq, .leaf given]
          pos) :=
    writeStatement_assignment (ofDepth generate (depth + 2)) free noType pos
  rw [written, evaluateSequence_assignment _ segment isEq]
  cases next : s.scopes.lookup s.current (s.config.generatedName scope.drawn) with
  | none =>
    rw [runFrom_constantBool here next] at value
    obtain ⟨_, here'⟩ := State.scope_withTruth here scope.drawn false given.position
    obtain ⟨_, found', isBool', known⟩ := s.var_withTruth_new scope.drawn false given.position
    have assigned := runFrom_operate_assign (ofDepth generate (depth + 1))
      (State.var_withTruth_old found scope.drawn false given.position) isBool resident found' isBool'
      known here' eq.position
    simp only [Bool.false_eq_true, if_false, if_true] at assigned
    simp only [runFrom_bind, target, value, assigned, runFrom_pure]
    exact .done here next given.position
  | some other =>
    obtain ⟨path, failed⟩ := runFrom_constantBool_taken here next false given.position
    rw [failed] at value
    simp only [runFrom_bind, target, value]
    exact .taken here next path given.position

end Engine

open Compile Engine

/-- A generated name reads back as its variable where it is a plain name, and only there. -/
theorem generatedName_readsBack_iff {s : State} (valid : s.config.Valid) {n : Nat} {id : VarId}
    {owner : Variable} {reg : Register} (bound : s.scopes.lookup s.current (s.config.generatedName n) = some id)
    (found : s.vars[id]? = some owner) (isBool : owner.type = .bool) (resident : owner.value = .register reg)
    (generate : String → Position → Compile String) (depth : Nat) :
    (ofDepth generate (depth + 3)).ReadsBack s (s.config.generatedName n) id reg ↔
      isPlainName (s.config.generatedName n) = true := by
  have segment := s.config.isSegment_generatedName valid.usable n
  have inside : id < s.vars.size := (Array.getElem?_eq_some_iff.mp found).1
  have sep : Config.isSeparator s.layout.separator = true := valid.usable.separator
  obtain ⟨token, read, text⟩ := tokenize_word sep segment
  obtain ⟨word, eq, given, same, isEq, isFalse, parses⟩ :=
    parseStatements_assignment sep segment
  have evaluates := runFrom_evaluateSequence_word (ofDepth generate (depth + 2)) (text ▸ segment)
    (text ▸ bound) inside token.position
  rw [text] at evaluates
  constructor
  · rintro ⟨⟨_, read', ran⟩, tree, parsed, assigns⟩
    cases read.symm.trans read'
    obtain ⟨notIf, isTree⟩ := (parses _).mp parsed
    cases isTree
    refine isPlainName_of_isName segment (evaluates.mp ran) notIf (fun taken => ?_)
    rw [← same] at taken
    obtain ⟨fault, failed⟩ := write_refused (s := s) generate (depth + 2) isEq isFalse taken
      word.position
    rw [failed] at assigns
    exact assigns.ne_of_error rfl rfl
  · intro plain
    have notIf : s.config.generatedName n ≠ "if" := by
      intro isIf
      rw [isIf] at plain
      exact absurd plain (by decide)
    refine ⟨⟨token, read, evaluates.mpr (isName_of_isPlainName segment plain _)⟩, ⟨_, (parses _).mpr ⟨notIf, rfl⟩, ?_⟩⟩
    rw [← same] at segment plain bound
    exact write_assigns generate depth segment plain isEq isFalse bound found isBool resident _

/-- The first truth value of a script with a register of its own, under the default prefix. -/
theorem generatedName_readsBack_default :
    let opened := (openEntry.runFrom (State.start {} 0)).2
    let s := ((temporary ValueType.bool.name default).runFrom opened).2
    s.config.generatedName 0 = "anon_0" ∧
      (forText "anon_0 = false;").ReadsBack s "anon_0" 0 ⟨"main.anon_0", "mcs.vars"⟩ := by
  intro opened s
  have name : s.config.generatedName 0 = "anon_0" := by decide
  have bound : s.scopes.lookup s.current (s.config.generatedName 0) = some 0 := by decide
  have made : s.vars[0]?.map (fun owner => (owner.type, owner.value)) =
      some (.bool, .register ⟨"main.anon_0", "mcs.vars"⟩) := by decide +kernel
  obtain ⟨owner, found, same⟩ := Option.map_eq_some_iff.mp made
  obtain ⟨isBool, resident⟩ := Prod.mk.inj same
  have back := generatedName_readsBack_iff (by decide) bound found isBool resident
    (generateWithin generationLimit) (depthFor "anon_0 = false;".length - 3)
  rw [name] at back
  exact ⟨name, back.mpr (isPlainName_default 0)⟩

/-- With a digit for a prefix the name of a truth value is a number, and that is what it gives. -/
theorem generatedName_reads_number :
    let config : Config := { anonymousPrefix := "1" }
    let opened := (openEntry.runFrom (State.start config 0)).2
    let s := ((temporary ValueType.bool.name default).runFrom opened).2
    config.Valid ∧ config.generatedName 0 = "10" ∧ s.scopes.lookup s.current "10" = some 0 ∧
      (((forText "10").evaluate [.leaf ⟨"10", default⟩] default).runFrom s).1.toOption = some (some 1) ∧
      ¬ (forText "10 = false;").ReadsBack s "10" 0 ⟨"main.10", "mcs.vars"⟩ := by
  intro config opened s
  have segment : IsSegment "10" := .of_all rfl (by decide)
  have bound : s.scopes.lookup s.current "10" = some 0 := by decide
  have inside : 0 < s.vars.size := by decide
  have sep : Config.isSeparator s.layout.separator = true := by decide
  have number : (((forText "10").evaluate [.leaf ⟨"10", default⟩] default).runFrom s).1.toOption =
      some (some 1) := by decide +kernel
  clear_value s
  refine ⟨by decide, by decide, bound, number, ?_⟩
  rintro ⟨⟨token, read, ran⟩, _⟩
  obtain ⟨_, read', text⟩ := tokenize_word sep segment
  rw [read] at read'
  cases read'
  rw [← text] at segment bound
  have isName := (runFrom_evaluateSequence_word (ofDepth (generateWithin generationLimit) 107) segment
    bound inside token.position).mp ran
  have chars : token.text.toList = ['1', '0'] := text ▸ rfl
  have letter := ((literal?_eq_none_iff chars (by decide) token.position).mp isName.2).2.2
  exact absurd letter (by decide)

end ScoreScript
