import ScoreScript.Proofs.Compile.Targets

/-!
# The statements of generated scripts

The scripts that stand for operations on truth values are read as the one statement they are meant
to be: an `if` whose bodies assign to a name. None of them assigns an objective, so constructed
variables keep what they refer to.
-/

namespace ScoreScript

open List

variable {layout : Layout} {items : List Tree.Item} {tokens : List Token}

namespace Compile

open Token Tree

variable {sep : Char} {name other value : String}

theorem role_of_plain {token : Token} {c : Char} (plain : IsPlain sep c)
    (text : token.text = String.ofList [c]) : token.role sep = .word := by
  have single : token.single? = some c := by simp [single?, text]
  obtain ⟨_, _, rule⟩ := plain
  simp only [isPunctuation, Bool.or_eq_false_iff, beq_eq_false_iff_ne, Bracket.isBracket,
    Option.isSome_eq_false_iff, Option.isNone_iff_eq_none] at rule
  simp [role, single, rule]

theorem role_of_segment (valid : Config.isSeparator sep = true) {token : Token}
    (segment : IsSegment token.text) : token.role sep = .word := by
  by_cases long : token.text.toList.length = 1
  · obtain ⟨c, chars⟩ := length_eq_one_iff.mp long
    have plain := isPlain_of_isWordChar valid (segment.word c (by simp [chars]))
    exact role_of_plain plain (by rw [← chars, String.ofList_toList])
  · exact Reader.role_word long

def assignmentBody (pos : Position) (name value : String) (sep : Char) : Tree :=
  .group [.group [.leaf ⟨name, pos⟩, .leaf ⟨"=", pos⟩, .leaf ⟨value, pos⟩]
    .line .space pos] .brace (.statement sep) pos

def nameCondition (pos : Position) (name : String) : Tree :=
  .group [.leaf ⟨name, pos⟩] .paren .space pos

def scriptTokens (pos : Position) (texts : List String) : List Token :=
  texts.map (fun text => ⟨text, pos⟩)

theorem isChar_stop (sep : Char) (pos : Position) :
    (⟨sep.toString, pos⟩ : Token).isChar sep = true := by
  simp [isChar, single?]

theorem close_assignment {stop : Token} (isStop : stop.isChar sep = true)
    (name value : String) (pos : Position) :
    close sep .brace pos [.tree (.leaf ⟨name, pos⟩), .tree (.leaf ⟨"=", pos⟩),
      .tree (.leaf ⟨value, pos⟩), .separator stop] = .ok (assignmentBody pos name value sep) := by
  simp [close, Item.isSeparator, isStop, Item.split, ofPiece, Item.toTree, line, ofChildren,
    assignmentBody, Tree.position]

theorem collects_assignment (valid : Config.isSeparator sep = true) (pos : Position)
    (named : IsSegment name) (valued : IsSegment value) (rest : Collects sep tokens items) :
    Collects sep (scriptTokens pos (assignmentWords name value sep) ++ tokens)
      (.tree (assignmentBody pos name value sep) :: items) := by
  have inside :
      Collects sep (scriptTokens pos [name, "=", value, sep.toString]) _ :=
    .word (role_of_segment valid named) (.word (role_of_plain (isPlain_equals valid) rfl)
      (.word (role_of_segment valid valued) (.separator (c := sep)
          (role_separator (Config.separates valid).bracket (isChar_stop sep pos)) .nil)))
  refine .group ?_ (Token.role_closing rfl rfl) inside
    (close_assignment (isChar_stop sep pos) name value pos) rest
  exact role_opening sep rfl (isChar_of_text rfl)

theorem collects_condition (valid : Config.isSeparator sep = true) (pos : Position)
    (named : IsSegment name) (rest : Collects sep tokens items) :
    Collects sep (scriptTokens pos ["if", "(", name, ")"] ++ tokens)
      (.tree (.leaf ⟨"if", pos⟩) :: .tree (nameCondition pos name) :: items) := by
  have inside :
      Collects sep (scriptTokens pos [name]) [.tree (.leaf ⟨name, pos⟩)] :=
    .word (role_of_segment valid named) .nil
  have closes : close sep .paren pos [.tree (.leaf ⟨name, pos⟩)] =
      .ok (nameCondition pos name) := rfl
  refine .word (role_of_segment valid isSegment_keywords.1) ?_
  refine .group ?_ (Token.role_closing rfl rfl) inside closes rest
  exact role_opening sep rfl (isChar_of_text rfl)

def conditionalTree (pos : Position) (cond name value : String) (sep : Char) : Tree :=
  .group [.leaf ⟨"if", pos⟩, nameCondition pos cond,
    assignmentBody pos name value sep] .line .space pos

def negationTree (pos : Position) (name : String) (sep : Char) : Tree :=
  .group [.leaf ⟨"if", pos⟩, nameCondition pos name,
    assignmentBody pos name "false" sep, .leaf ⟨"else", pos⟩,
    assignmentBody pos name "true" sep] .line .space pos

theorem readStatements_conditional (valid : Config.isSeparator layout.separator = true)
    (cond : IsSegment other) (named : IsSegment name) (valued : IsSegment value) (pos : Position) :
    layout.readStatements (scriptTokens pos (conditionalWords other name value layout.separator)) =
      .ok [conditionalTree pos other name value layout.separator] := by
  have collects := collects_condition valid pos cond (collects_assignment valid pos named valued .nil)
  rw [append_nil, scriptTokens, scriptTokens, ← map_append] at collects
  refine (Layout.readStatements_eq_ok_iff (Config.separates valid).bracket).mpr
    ⟨_, [_], collects, .next (.single rfl rfl (.braced rfl) rfl) .nil, rfl⟩

theorem readStatements_negation (valid : Config.isSeparator layout.separator = true) (named : IsSegment name)
    (pos : Position) : layout.readStatements (scriptTokens pos (negationWords name layout.separator)) =
      .ok [negationTree pos name layout.separator] := by
  obtain ⟨_, isElse, isTrue, isFalse⟩ := isSegment_keywords
  have otherwise : Collects layout.separator
      (scriptTokens pos (["else"] ++ assignmentWords name "true" layout.separator))
      [.tree (.leaf ⟨"else", pos⟩), .tree (assignmentBody pos name "true" layout.separator)] := by
    have body := collects_assignment valid pos named isTrue .nil
    rw [append_nil] at body
    exact .word (role_of_segment valid isElse) body
  have collects := collects_condition valid pos named (collects_assignment valid pos named isFalse otherwise)
  simp only [scriptTokens, ← map_append, ← append_assoc] at collects
  refine (Layout.readStatements_eq_ok_iff (Config.separates valid).bracket).mpr
    ⟨_, [_], collects, .next (.double rfl rfl (.braced rfl) rfl (.braced rfl)) .nil, rfl⟩

theorem not_takes_keyword {keyword word : Token} {all piece rest : List Item}
    (isIf : keyword.text = "if") (whole : all = .tree (.leaf keyword) :: .tree (.leaf word) :: items) :
    ¬ Takes sep .statement all piece rest := by
  intro takes
  cases takes with
  | line nonempty _ plain _ =>
    cases piece with
    | nil => exact nonempty rfl
    | cons item piece =>
      obtain ⟨rfl, _⟩ := cons.inj whole
      simp [Item.startWith, Item.toTree, isWord, word?, isIf] at plain
  | single _ paren _ _ =>
    cases whole
    cases paren
  | double _ paren _ _ _ =>
    cases whole
    cases paren

theorem readStatements_assignment (valid : Config.isSeparator layout.separator = true)
    {word eq given stop : Token} (named : IsSegment word.text) (isEq : eq.text = "=")
    (valued : IsSegment given.text) (isStop : stop.isChar layout.separator = true) {trees : List Tree} :
    layout.readStatements [word, eq, given, stop] = .ok trees ↔ word.text ≠ "if" ∧
      trees = [.group [.leaf word, .leaf eq, .leaf given] .line .space word.position] := by
  have bracket := (Config.separates valid).bracket
  have collects : Collects layout.separator [word, eq, given, stop]
      ([.tree (.leaf word), .tree (.leaf eq), .tree (.leaf given)] ++ [.separator stop]) :=
    .word (role_of_segment valid named) (.word (role_of_plain (isPlain_equals valid) isEq)
      (.word (role_of_segment valid valued) (.separator (role_separator bracket isStop) .nil)))
  have notKeyword (read : layout.readStatements [word, eq, given, stop] = .ok trees) : word.text ≠ "if" := by
    intro isIf
    obtain ⟨items, pieces, collected, takes, _⟩ := (Layout.readStatements_eq_ok_iff bracket).mp read
    have found := collect_eq_ok_iff.mpr collected
    rw [collect_eq_ok_iff.mpr collects] at found
    cases found
    cases takes with
    | next takes _ => exact not_takes_keyword isIf rfl takes
  have reads (plain : word.text ≠ "if") : layout.readStatements [word, eq, given, stop] =
      .ok [.group [.leaf word, .leaf eq, .leaf given] .line .space word.position] := by
    have line : Takes layout.separator .statement _ [.tree (.leaf word), .tree (.leaf eq), .tree (.leaf given)] [] :=
      .line nofun (by simp [Item.isSeparator])
        (by simp [Item.startWith, Item.toTree, isWord, word?, plain]) (.stop isStop)
    exact (Layout.readStatements_eq_ok_iff bracket).mpr ⟨_, _, collects, .next line .nil, rfl⟩
  constructor
  · intro read
    have plain := notKeyword read
    exact ⟨plain, Except.ok.inj (read.symm.trans (reads plain))⟩
  · rintro ⟨plain, rfl⟩
    exact reads plain

theorem readStatements_assignmentBody {pos : Position}
    (valid : Config.isSeparator layout.separator = true) (named : IsSegment name)
    (valued : IsSegment value) {trees : List Tree} (read : layout.readStatements
      (Engine.bodyTokens (assignmentBody pos name value layout.separator)) = .ok trees) :
    name ≠ "if" ∧ trees = [.group [.leaf ⟨name, pos⟩, .leaf ⟨"=", pos⟩,
      .leaf ⟨value, pos⟩] .line .space pos] := by
  have read' : layout.readStatements [⟨name, pos⟩, ⟨"=", pos⟩, ⟨value, pos⟩,
      .ofChar layout.separator pos] = .ok trees := read
  rw [readStatements_assignment valid named rfl valued (by rw [isChar_ofChar]; exact beq_self_eq_true _)] at read'
  exact read'

/-! ## What the scripts assign to -/

theorem ne_assign_of_isSegment {text : String} (segment : IsSegment text) : text ≠ "=" := by
  rintro rfl
  exact absurd (segment.word '=' (by decide)) (by decide)

theorem isBody_elim {block : Tree} (isBody : block.IsBody) (pos : Position) :
    (∀ token, block ≠ .leaf token) ∧ ∀ name, block ≠ nameCondition pos name := by
  obtain ⟨_, _, _, rfl⟩ := isBody
  exact ⟨nofun, nofun⟩

theorem faithful_assignmentBody {pos : Position} (valid : Config.isSeparator layout.separator = true)
    (config : Config) (named : IsSegment name) (truth : value = "true" ∨ value = "false") : layout.Faithful config
      (Engine.bodyTokens (assignmentBody pos name value layout.separator)) := by
  obtain ⟨_, _, isTrue, isFalse⟩ := isSegment_keywords
  have valued : IsSegment value := by
    rcases truth with rfl | rfl <;> assumption
  intro tree holds
  cases holds with
  | here read mem =>
    obtain ⟨_, rfl⟩ := readStatements_assignmentBody valid named valued read
    rw [mem_singleton.mp mem]
    have isTruth : isTruth [.leaf ⟨value, pos⟩] = true := by
      rcases truth with rfl | rfl <;> rfl
    simp [isFaithful, items, rebinds, sequencesIn, sequences, Engine.splitAssignment, isWord,
      word?, ne_assign_of_isSegment named, ne_assign_of_isSegment valued, isTruth]
  | inside read mem part isBody _ =>
    obtain ⟨_, rfl⟩ := readStatements_assignmentBody valid named valued read
    rw [mem_singleton.mp mem] at part
    have leaf := (isBody_elim isBody pos).1
    simp [items, leaf] at part

theorem faithful_script {config : Config} {tree : Tree}
    (read : layout.readStatements tokens = .ok [tree]) (own : isFaithful config tree.items = true)
    (bodies : ∀ block ∈ tree.items, block.IsBody →
      layout.Faithful config (Engine.bodyTokens block)) : layout.Faithful config tokens := by
  intro inner holds
  cases holds with
  | here read' mem =>
    rw [read] at read'
    cases read'
    rw [mem_singleton.mp mem]
    exact own
  | inside read' mem part isBody holds =>
    rw [read] at read'
    cases read'
    rw [mem_singleton.mp mem] at part
    exact bodies _ part isBody inner holds

theorem faithful_conditional (valid : Config.isSeparator layout.separator = true) (config : Config)
    (cond : IsSegment other) (named : IsSegment name) (pos : Position) : layout.Faithful config
      (scriptTokens pos (conditionalWords other name "true" layout.separator)) := by
  refine faithful_script (readStatements_conditional valid cond named isSegment_keywords.2.2.1 _) ?_ ?_
  · simp [conditionalTree, nameCondition, assignmentBody, isFaithful, items, rebinds, sequencesIn,
      sequences, Engine.splitAssignment, isWord, word?, ne_assign_of_isSegment cond]
  · intro block part isBody
    obtain ⟨leaf, group⟩ := isBody_elim isBody pos
    have same : block = assignmentBody pos name "true" layout.separator := by
      simpa [conditionalTree, items, leaf, group] using part
    rw [same]
    exact faithful_assignmentBody valid config named (.inl rfl)

theorem faithful_negation (valid : Config.isSeparator layout.separator = true) (config : Config)
    (named : IsSegment name) (pos : Position) :
    layout.Faithful config (scriptTokens pos (negationWords name layout.separator)) := by
  refine faithful_script (readStatements_negation valid named _) ?_ ?_
  · simp [negationTree, nameCondition, assignmentBody, isFaithful, items, rebinds, sequencesIn,
      sequences, Engine.splitAssignment, isWord, word?, ne_assign_of_isSegment named]
  · intro block part isBody
    obtain ⟨leaf, group⟩ := isBody_elim isBody pos
    have same : block = assignmentBody pos name "false" layout.separator ∨
        block = assignmentBody pos name "true" layout.separator := by
      simpa [negationTree, items, leaf, group] using part
    rcases same with rfl | rfl
    · exact faithful_assignmentBody valid config named (.inr rfl)
    · exact faithful_assignmentBody valid config named (.inl rfl)

theorem compiles_script {s : State} {script : String} (usable : s.config.Usable) (scripted : s.Scripted script)
    (pos : Position) : ∃ tokens, s.layout.tokenizeAt script pos = .ok tokens ∧ s.Compiles tokens := by
  have valid : Config.isSeparator s.layout.separator = true := usable.separator
  have same : s.config.separator = s.layout.separator := rfl
  cases scripted with
  | @negation name named =>
    rw [same]
    exact ⟨_, tokenizeAt_of_spells (spells_negation valid named) pos,
      .faithful (faithful_negation valid _ named pos)⟩
  | @conjunction name other named valued scored =>
    rw [same]
    refine ⟨_, tokenizeAt_of_spells (spells_conjunction valid named valued) pos,
      .single (fun trees read tree mem => ?_)⟩
    cases (readStatements_conditional valid named named valued pos).symm.trans read
    rw [mem_singleton.mp mem]
    refine ⟨rfl, .tests rfl rfl named scored (fun trees read tree mem => ?_)⟩
    obtain ⟨notKeyword, rfl⟩ := readStatements_assignmentBody valid named valued read
    rw [mem_singleton.mp mem]
    exact ⟨rfl, _, _, _, rfl, rfl, rfl, notKeyword⟩
  | @disjunction name other named cond =>
    rw [same]
    exact ⟨_, tokenizeAt_of_spells (spells_disjunction valid named cond) pos,
      .faithful (faithful_conditional valid _ cond named pos)⟩

end Compile

end ScoreScript
