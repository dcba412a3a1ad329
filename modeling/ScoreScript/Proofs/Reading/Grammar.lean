import ScoreScript.Proofs.Reading.Matched

/-!
# The grammar of statements

`Written` says which words a statement or a body of an `if` consists of, what is left after it and
which tree it is. The readers read exactly such words. What a statement is depends on the members of
its words only: `Takes` is the same grammar on members.
-/

namespace ScoreScript

open List

open Fault Token

variable {bracket : Bracket} {separator : Char} {items piece : List Tree.Item} {tokens : List Token}
  {token : Token} {tree : Tree}

theorem Bracket.opening_injective {a b : Bracket} (same : a.opening = b.opening) : a = b := by
  revert same
  cases a <;> cases b <;> decide

namespace Tree

namespace Item

def start : List Item → Position
  | [] => default
  | item :: _ => item.toTree.position

def startWith (text : String) : List Item → Bool
  | [] => false
  | item :: _ => item.toTree.isWord text

/-- Whether the members start with a group in brackets of a kind. -/
def startIn (bracket : Bracket) : List Item → Bool
  | [] => false
  | item :: _ => item.toTree.bracket? == some bracket

end Item

def ofStatement (piece : List Item) : Tree :=
  ofPiece (Item.start piece) piece

def ofBody (separator : Char) (piece : List Item) : Tree :=
  ofChildren [ofStatement piece] .brace (.statement separator) (Item.start piece)

theorem ofPiece_eq (nonempty : piece ≠ []) (pos : Position) : ofPiece pos piece = ofStatement piece := by
  cases piece with
  | nil => exact absurd rfl nonempty
  | cons item rest =>
    cases rest with
    | nil => cases toTree : item.toTree <;> simp [ofPiece, ofStatement, line, ofChildren, toTree]
    | cons second rest => simp [ofPiece, ofStatement, line, ofChildren]

inductive Stops (separator : Char) : List Item → List Item → Prop where
  | finish : Stops separator [] []
  | stop {token : Token} {rest : List Item} :
      token.isChar separator = true → Stops separator (.separator token :: rest) rest

inductive Part where
  | statement
  | body

/-- The members that a statement or a body is made of, and those that are left after it. -/
inductive Takes (separator : Char) : Part → List Item → List Item → List Item → Prop where
  | line {piece tail rest : List Item} :
      piece ≠ [] → (∀ item ∈ piece, item.isSeparator separator = false) →
      Item.startWith "if" piece = false → Stops separator tail rest →
      Takes separator .statement (piece ++ tail) piece rest
  | single {keyword : Token} {cond body : Tree} {items rest : List Item} :
      keyword.text = "if" → cond.bracket? = some .paren →
      Takes separator .body items [.tree body] rest → Item.startWith "else" rest = false →
      Takes separator .statement (.tree (leaf keyword) :: .tree cond :: items)
        [.tree (leaf keyword), .tree cond, .tree body] rest
  | double {keyword word : Token} {cond body other : Tree} {items middle rest : List Item} :
      keyword.text = "if" → cond.bracket? = some .paren →
      Takes separator .body items [.tree body] (.tree (leaf word) :: middle) →
      word.text = "else" → Takes separator .body middle [.tree other] rest →
      Takes separator .statement (.tree (leaf keyword) :: .tree cond :: items)
        [.tree (leaf keyword), .tree cond, .tree body, .tree (leaf word), .tree other] rest
  | braced {body : Tree} {rest : List Item} :
      body.bracket? = some .brace → Takes separator .body (.tree body :: rest) [.tree body] rest
  | bare {items piece rest : List Item} :
      Item.startIn .brace items = false → Takes separator .statement items piece rest →
      Takes separator .body items [.tree (ofBody separator piece)] rest

inductive TakesAll (separator : Char) : List Item → List (List Item) → Prop where
  | nil : TakesAll separator [] []
  | skip {token : Token} {rest : List Item} {pieces : List (List Item)} :
      token.isChar separator = true → TakesAll separator rest pieces →
      TakesAll separator (.separator token :: rest) pieces
  | next {items piece rest : List Item} {pieces : List (List Item)} :
      Takes separator .statement items piece rest → TakesAll separator rest pieces →
      TakesAll separator items (piece :: pieces)

theorem Takes.starts {rest : List Item} (takes : Takes separator .statement items piece rest) :
    ∃ item front back, items = item :: front ∧ piece = item :: back ∧ item.isSeparator separator = false := by
  cases takes with
  | @line piece tail rest nonempty whole _ _ =>
    cases piece with
    | nil => exact absurd rfl nonempty
    | cons item back => exact ⟨item, _, back, rfl, rfl, whole item (mem_cons_self ..)⟩
  | single | double => exact ⟨_, _, _, rfl, rfl, rfl⟩

/-! ## First words -/

/-- What the first word tells about the first member. -/
structure Leads (separator : Char) (token : Token) (item : Item) : Prop where
  position : item.toTree.position = token.position
  separates : item.isSeparator separator = token.isChar separator
  opens : ∀ bracket : Bracket, bracket.isWritten = true →
    (item.toTree.bracket? == some bracket) = token.isChar bracket.opening
  word : ∀ text : String, text.toList.length ≠ 1 → item.toTree.isWord text = (token.text == text)

variable {separator : Char}

private theorem leads_leaf (plain : Bracket.isBracket separator = false) (role : token.role separator = .word) :
    Leads separator token (.tree (leaf token)) where
  position := rfl
  separates := by
    refine (Bool.eq_false_iff.mpr ?_).symm
    intro isSeparator
    rw [role_separator plain isSeparator] at role
    cases role
  opens := by
    intro bracket written
    refine (Bool.eq_false_iff.mpr ?_).symm
    intro opens
    rw [role_opening separator written opens] at role
    cases role
  word := by
    intro text _
    simp [Item.toTree, isWord, word?]

theorem leads_separator {c : Char} (role : token.role separator = .separates c) :
    Leads separator token (.separator token) where
  position := rfl
  separates := rfl
  opens := by
    intro bracket written
    refine (Bool.eq_false_iff.mpr ?_).symm
    intro opens
    rw [role_opening separator written opens] at role
    cases role
  word := by
    intro text _
    simp [Item.toTree, isWord, word?]

theorem leads_group (plain : Bracket.isBracket separator = false) {opening : Token}
    {members : List Item} (role : opening.role separator = .opens bracket)
    (closed : close separator bracket opening.position members = .ok tree) : Leads separator opening (.tree tree) := by
  obtain ⟨text, written⟩ := text_of_opens role
  obtain ⟨children, divider, rfl⟩ := close_bracket written closed
  have isOpening : opening.isChar bracket.opening = true := isChar_of_text text
  refine ⟨rfl, ?_, ?_, ?_⟩
  · refine (Bool.eq_false_iff.mpr ?_).symm
    intro isSeparator
    rw [role_separator plain isSeparator] at role
    cases role
  · intro other _
    by_cases same : bracket = other
    · subst same
      simpa [Item.toTree, bracket?] using isOpening
    · rw [isChar_unique isOpening (fun sameChar => same (Bracket.opening_injective sameChar))]
      simpa [Item.toTree, bracket?] using same
  · intro other long
    have different : opening.text ≠ other := by
      rintro rfl
      simp [text] at long
    rw [beq_false_of_ne different]
    rfl

theorem Collects.leads (plain : Bracket.isBracket separator = false) {item : Item}
    (collects : Collects separator tokens (item :: items)) :
    ∃ token rest, tokens = token :: rest ∧ Leads separator token item := by
  cases collects with
  | word role _ => exact ⟨_, _, rfl, leads_leaf plain role⟩
  | separator role _ => exact ⟨_, _, rfl, leads_separator role⟩
  | group opens _ _ closed _ => exact ⟨_, _, rfl, leads_group plain opens closed⟩

end Tree

/-! ## Words of statements -/

/-- Where the words of a line end: at the separator, or with the last word there is. The words taken
and the words left. -/
inductive EndsLine (separator : Char) (words : List Token) : List Token → List Token → Prop where
  | finish : EndsLine separator words words []
  | stop {token : Token} {rest : List Token} :
      token.isChar separator = true → EndsLine separator words (words ++ [token]) rest

open Tree in
/-- The words that a statement or a body of an `if` is made of, those that are left, and its tree. -/
inductive Written (layout : Layout) : Part → List Token → List Token → Tree → Prop where
  | line {first : Token} {words used rest : List Token} {piece : List Item} :
      first.text ≠ "if" → first.isChar layout.separator = false →
      Collects layout.separator (first :: words) piece →
      (∀ item ∈ piece, item.isSeparator layout.separator = false) →
      EndsLine layout.separator (first :: words) used rest →
      Written layout .statement used rest (ofStatement piece)
  | single {keyword : Token} {test used rest : List Token} {cond body : Tree} :
      keyword.text = "if" → layout.block test = .ok cond →
      cond.bracket? = some .paren → Written layout .body used rest body →
      (∀ token ∈ rest.head?, token.text ≠ "else") →
      Written layout .statement (keyword :: (test ++ used)) rest
        (Tree.line [leaf keyword, cond, body] keyword.position)
  | double {keyword word : Token} {test used others rest : List Token}
      {cond body other : Tree} :
      keyword.text = "if" → layout.block test = .ok cond →
      cond.bracket? = some .paren → Written layout .body used (word :: (others ++ rest)) body →
      word.text = "else" → Written layout .body others rest other →
      Written layout .statement (keyword :: (test ++ (used ++ word :: others))) rest
        (Tree.line [leaf keyword, cond, body, leaf word, other] keyword.position)
  | braced {used rest : List Token} {body : Tree} :
      layout.block used = .ok body → body.bracket? = some .brace →
      Written layout .body used rest body
  | bare {first : Token} {words rest : List Token} {statement : Tree} :
      first.isChar Bracket.brace.opening = false →
      Written layout .statement (first :: words) rest statement →
      Written layout .body (first :: words) rest
        (ofChildren [statement] .brace (.statement layout.separator) first.position)

variable {layout : Layout}

theorem Layout.starts_of_block (plain : Bracket.isBracket layout.separator = false)
    (grouped : layout.block tokens = .ok tree) :
    ∃ token rest, tokens = token :: rest ∧ ∀ bracket : Bracket, bracket.isWritten = true →
      (tree.bracket? == some bracket) = token.isChar bracket.opening := by
  obtain ⟨token, rest, isRest, leads⟩ := (block_eq_ok_iff.mp grouped).1.leads plain
  exact ⟨token, rest, isRest, leads.opens⟩

namespace Written

variable {layout : Layout} {used rest : List Token}

theorem starts (written : Written layout .statement used rest tree) :
    ∃ first words, used = first :: words ∧ first.isChar layout.separator = false := by
  have keyword {token : Token} (isIf : token.text = "if") :
      token.isChar layout.separator = false := by
    refine Bool.eq_false_iff.mpr (fun isChar => ?_)
    have lengths := congrArg String.length (isIf.symm.trans (text_of_isChar isChar))
    simp only [String.length_ofList, length_singleton] at lengths
    exact absurd lengths (by decide)
  cases written with
  | @line first words _ _ _ _ other _ _ ends =>
    cases ends with
    | finish => exact ⟨first, words, rfl, other⟩
    | stop => exact ⟨first, words ++ [_], rfl, other⟩
  | single isIf => exact ⟨_, _, rfl, keyword isIf⟩
  | double isIf => exact ⟨_, _, rfl, keyword isIf⟩

end Written

namespace Reader

open Tree

variable {reader : Reader}

/-! ## Readers read such words -/

variable {words rest : List Token}

private theorem run_readGroup (grouped : reader.layout.block words = .ok tree) (isGroup : tree.bracket? = some bracket)
    (isRest : reader.rest = words ++ rest) : readGroup.run.run reader = (.ok tree, { reader with rest }) := by
  obtain ⟨opening, inside, closing, nothing, members, rfl, opens, closes, inner, _, last⟩ :=
    (Layout.block_eq_ok_iff.mp grouped).1.of_group isGroup
  cases last
  have size : inside.length + 1 + 1 = (opening :: (inside ++ [closing])).length := by simp
  have found : matchingClose reader.rest = .ok (inside.length + 1) := by
    rw [isRest, cons_append, append_assoc]
    exact matchingClose_eq opens closes inner
  have front : reader.rest.take (inside.length + 1 + 1) = opening :: (inside ++ [closing]) := by
    rw [isRest, size, take_left]
  have left : reader.rest.drop (inside.length + 1 + 1) = rest := by
    rw [isRest, size, drop_left]
  rw [readGroup, run_bind_ok (run_get reader),
    run_bind_ok (a := inside.length + 1) (t := reader) (by rw [found]; rfl), front,
    run_bind_ok (a := tree) (t := reader) (by rw [grouped]; rfl), left]
  rfl

private theorem run_readLine (plain : Bracket.isBracket reader.layout.separator = false) {used : List Token}
    (nonempty : piece ≠ []) (collects : Collects reader.layout.separator words piece)
    (whole : ∀ item ∈ piece, item.isSeparator reader.layout.separator = false)
    (ends : EndsLine reader.layout.separator words used rest) (isRest : reader.rest = used ++ rest) :
    readLine.run.run reader = (.ok (ofStatement piece), { reader with rest }) := by
  have taken : reader.layout.line words = .ok (ofStatement piece) := by
    rw [Layout.line, collect_eq_ok_iff.mpr collects]
    exact congrArg Except.ok (ofPiece_eq nonempty _)
  have found (after : List Token) : statementEnd reader.layout.separator (words ++ after) = _ :=
    separatorFrom_append collects (.inr whole) after
  have ran : readUntilSeparator.run.run reader = (.ok words, { reader with rest }) := by
    rw [readUntilSeparator, run_bind_ok (run_get reader)]
    cases ends with
    | finish =>
      rw [run_bind_ok (a := none) (t := reader) (by rw [isRest, found]; rfl), isRest,
        append_nil]
      rfl
    | @stop token _ isSeparator =>
      rw [append_assoc, singleton_append] at isRest
      have stops := found (token :: rest)
      rw [separatorFrom_cons, role_separator plain isSeparator] at stops
      dsimp only at stops
      rw [if_pos ⟨rfl, rfl⟩, ← isRest] at stops
      have front : reader.rest.take words.length = words := by rw [isRest, take_left]
      have left : reader.rest.drop (words.length + 1) = rest := by
        rw [isRest, ← drop_drop, drop_left]
        rfl
      rw [run_bind_ok (a := some (0 + words.length)) (t := reader) (by rw [stops]; rfl),
        Nat.zero_add]
      dsimp only
      rw [left, front]
      rfl
  rw [readLine, run_bind_ok ran]
  change (liftM (reader.layout.line words) : Read Tree).run.run _ = _
  rw [taken]
  rfl

theorem run_advance (rest : reader.rest = token :: tokens) :
    advance.run.run reader = (.ok (some token), { reader with rest := tokens }) := by
  rw [advance, run_bind_ok (run_get reader), rest]
  rfl

section If

variable {depth : Nat} {keyword : Token} {words tokens : List Token} {cond body : Tree}
  {second third : Reader} (isIf : keyword.text = "if") (starts : reader.rest = keyword :: words)
  (opens : ({ reader with rest := words } : Reader).peekIsChar Bracket.paren.opening = true)
  (conditionRead : readGroup.run.run { reader with rest := words } = (.ok cond, second))
  (bodyRead : (readBody (readIf depth) "if").run.run second = (.ok body, third))
include isIf starts opens conditionRead bodyRead

theorem run_readIf_single (last : ∀ token ∈ third.peek?, token.text ≠ "else") : (readIf (depth + 1)).run.run reader =
      (.ok (Tree.line [.leaf keyword, cond, body] keyword.position), third) := by
  rw [readIf, run_bind_ok (run_advance starts)]
  dsimp only
  rw [if_neg (by simp [isIf]), run_bind_ok (run_get _), if_neg (by simp [opens]),
    run_bind_ok conditionRead, run_bind_ok bodyRead,
    run_bind_ok (run_get _)]
  cases next : third.peek? with
  | none => rfl
  | some token =>
    dsimp only
    rw [if_neg (by simpa using last token next)]
    rfl

private theorem run_readIf_double {word : Token} (more : third.rest = word :: tokens) (isElse : word.text = "else")
    {other : Tree} {fourth : Reader}
    (otherRead : (readBody (readIf depth) "else").run.run { third with rest := tokens } = (.ok other, fourth)) :
    (readIf (depth + 1)).run.run reader =
      (.ok (Tree.line [.leaf keyword, cond, body, .leaf word, other] keyword.position), fourth) := by
  rw [readIf, run_bind_ok (run_advance starts)]
  dsimp only
  rw [if_neg (by simp [isIf]), run_bind_ok (run_get _), if_neg (by simp [opens]),
    run_bind_ok conditionRead, run_bind_ok bodyRead,
    run_bind_ok (run_get _), peek?, more]
  dsimp only [head?_cons]
  rw [if_pos (by simp [isElse]), run_bind_ok (run_advance more),
    run_bind_ok otherRead]
  rfl

end If

/-- The reader finds a tree at the words, and is then at the words after it. -/
def Finds (depth : Nat) (reader : Reader) (rest : List Token) (tree : Tree) : Part → Prop
  | .statement => (if reader.peekKeyword then readIf depth else readLine).run.run reader =
      (.ok tree, { reader with rest })
  | .body => ∀ word, (readBody (readIf depth) word).run.run reader = (.ok tree, { reader with rest })

theorem finds_of_written (plain : Bracket.isBracket layout.separator = false) {part : Part} {used : List Token}
    (written : Written layout part used rest tree) {depth : Nat} (same : reader.layout = layout)
    (isRest : reader.rest = used ++ rest) (enough : used.length < depth) : Finds depth reader rest tree part := by
  induction written generalizing reader depth with
  | line notIf _ collects whole ends =>
    subst same
    have keyword : reader.peekKeyword = false := by
      cases ends <;> simp [peekKeyword, isKeyword, isRest, notIf]
    rw [Finds, keyword]
    exact run_readLine plain (by rintro rfl; cases collects) collects whole ends isRest
  | @single keyword test used rest cond body isIf grouped isCondition _ notElse ih =>
    subst same
    cases depth with
    | zero => cases enough
    | succ depth =>
    rw [cons_append, append_assoc] at isRest
    rw [length_cons, length_append] at enough
    have isKeyword : reader.peekKeyword = true := by
      simp [peekKeyword, Reader.isKeyword, isRest, isIf]
    rw [Finds, isKeyword]
    refine run_readIf_single isIf isRest ?_ (run_readGroup grouped isCondition rfl)
      (@ih { reader with rest := used ++ rest } depth rfl rfl (by omega) "if") notElse
    obtain ⟨token, words, rfl, opens⟩ := Layout.starts_of_block plain grouped
    simp [peekIsChar, ← opens .paren rfl, isCondition]
  | @double keyword word test used others rest cond body other isIf grouped isCondition _ isElse _
      ih ih' =>
    subst same
    cases depth with
    | zero => cases enough
    | succ depth =>
    have isRest : reader.rest = keyword :: (test ++ (used ++ word :: (others ++ rest))) := by
      simpa using isRest
    simp only [length_cons, length_append] at enough
    have isKeyword : reader.peekKeyword = true := by
      simp [peekKeyword, Reader.isKeyword, isRest, isIf]
    rw [Finds, isKeyword]
    refine run_readIf_double isIf isRest ?_ (run_readGroup grouped isCondition rfl)
      (@ih { reader with rest := used ++ word :: (others ++ rest) } depth rfl rfl (by omega) "if") rfl
      isElse (@ih' { reader with rest := others ++ rest } depth rfl rfl (by omega) "else")
    obtain ⟨token, words, rfl, opens⟩ := Layout.starts_of_block plain grouped
    simp [peekIsChar, ← opens .paren rfl, isCondition]
  | braced grouped isBody =>
    subst same
    have read := run_readGroup grouped isBody isRest
    obtain ⟨token, words, rfl, opens⟩ := Layout.starts_of_block plain grouped
    have isBrace : token.isChar Bracket.brace.opening = true := by
      rw [← opens .brace rfl, isBody]
      rfl
    have other : token.isChar reader.layout.separator = false :=
      isChar_unique isBrace (by rintro same; rw [← same] at plain; cases plain)
    intro word
    rw [readBody, run_bind_ok (run_get reader), if_neg (by simp [atEnd, peekIsChar, isRest, other]),
      if_pos (by simp [peekIsChar, isRest, isBrace])]
    exact read
  | @bare first words rest statement notBrace written ih =>
    subst same
    obtain ⟨_, _, ⟨⟩, other⟩ := written.starts
    have read := ih rfl isRest enough
    rw [Finds] at read
    intro word
    rw [readBody, run_bind_ok (run_get reader), if_neg (by simp [atEnd, peekIsChar, isRest, other]),
      if_neg (by simp [peekIsChar, isRest, notBrace])]
    have pos : reader.position = first.position := by simp [Reader.position, isRest]
    cases keyword : reader.peekKeyword with
    | false =>
      rw [keyword] at read
      refine (run_bind_ok (show readLine.run.run reader = _ from read) _).trans ?_
      rw [pos]
      rfl
    | true =>
      rw [keyword] at read
      refine (run_bind_ok (show (readIf depth).run.run reader = _ from read) _).trans ?_
      rw [pos]
      rfl

/-! ## Readers read nothing else -/

variable {α β : Type}

/-- A read that fails does so because of the script, and one that succeeds has taken words from the
front: what holds of these, of the words that are left and of the result. -/
def Reads (step : Read α) (reader : Reader) (post : List Token → List Token → α → Prop) : Prop :=
  Blameless (step.run.run reader).1 ∧ ∀ a after, step.run.run reader = (.ok a, after) →
    ∃ used rest, reader.rest = used ++ rest ∧ after = { reader with rest } ∧ post used rest a

namespace Reads

variable {step : Read α} {post : List Token → List Token → α → Prop}

theorem of_ok {a : α} {used rest : List Token} (ran : step.run.run reader = (.ok a, { reader with rest }))
    (taken : reader.rest = used ++ rest) (result : post used rest a) : Reads step reader post := by
  refine ⟨by rw [ran]; exact .ok a, ?_⟩
  intro b after succeeded
  cases ran.symm.trans succeeded
  exact ⟨used, rest, taken, rfl, result⟩

theorem of_error {fault : Fault} {after : Reader} (ran : step.run.run reader = (.error fault, after))
    (blameless : fault.kind ≠ .internal) : Reads step reader post := by
  refine ⟨by rw [ran]; exact .error blameless, ?_⟩
  intro b after succeeded
  cases ran.symm.trans succeeded

theorem pure {a : α} (result : post [] reader.rest a) : Reads (Pure.pure a) reader post :=
  of_ok rfl rfl result

theorem throw {fault : Fault} (blameless : fault.kind ≠ .internal) : Reads (MonadExcept.throw fault) reader post :=
  of_error rfl blameless

theorem bind {next : α → Read β} {m : List Token → List Token → α → Prop}
    {post : List Token → List Token → β → Prop} (first : Reads step reader m)
    (later : ∀ a used rest, reader.rest = used ++ rest → m used rest a →
      Reads (next a) { reader with rest } (fun more => post (used ++ more))) :
    Reads (step >>= next) reader post := by
  obtain ⟨blameless, result⟩ := first
  rcases ran : step.run.run reader with ⟨fault | a, after⟩
  · rw [ran] at blameless
    exact of_error (by rw [run_bind, ran]) (blameless fault rfl)
  · obtain ⟨used, rest, taken, rfl, holds⟩ := result a after ran
    obtain ⟨blameless', result'⟩ := later a used rest taken holds
    rw [Reads, run_bind_ok ran]
    refine ⟨blameless', ?_⟩
    intro b last succeeded
    obtain ⟨more, left, taken', rfl, holds'⟩ := result' b last succeeded
    refine ⟨used ++ more, left, ?_, rfl, holds'⟩
    rw [taken, show rest = more ++ left from taken', append_assoc]

theorem get_bind {next : Reader → Read β} {post : List Token → List Token → β → Prop}
    (rest : Reads (next reader) reader post) : Reads (get >>= next) reader post := by
  rw [Reads, run_bind_ok (run_get reader)]
  exact rest

theorem lift_bind {outcome : Except Fault α} {next : α → Read β}
    {post : List Token → List Token → β → Prop} (blameless : Blameless outcome)
    (rest : ∀ a, outcome = .ok a → Reads (next a) reader post) : Reads (liftM outcome >>= next) reader post := by
  cases outcome with
  | error fault => exact of_error rfl (blameless fault rfl)
  | ok a => exact (rest a rfl : Reads (next a) reader post)

theorem mono {post' : List Token → List Token → α → Prop} (reads : Reads step reader post)
    (results : ∀ used rest a, reader.rest = used ++ rest → post used rest a → post' used rest a) :
    Reads step reader post' := by
  refine ⟨reads.1, ?_⟩
  intro a after ran
  obtain ⟨used, rest, taken, same, holds⟩ := reads.2 a after ran
  exact ⟨used, rest, taken, same, results used rest a taken holds⟩

end Reads

theorem readGroup_reads (written : bracket.isWritten = true) (opens : reader.peekIsChar bracket.opening = true) :
    Reads readGroup reader (fun used _ tree => reader.layout.block used = .ok tree ∧ tree.bracket? = some bracket) := by
  cases isRest : reader.rest with
  | nil => simp [peekIsChar, isRest] at opens
  | cons token words =>
    rw [peekIsChar, isRest] at opens
    unfold readGroup
    refine .get_bind (.lift_bind (closeFrom_blameless _ _) ?_)
    intro n found
    rw [isRest] at found ⊢
    obtain ⟨blameless, bracketed⟩ := reader.layout.block_closes written opens found
    refine .lift_bind blameless ?_
    intro tree grouped
    exact .of_ok rfl (isRest.trans (take_append_drop ..).symm) ⟨grouped, bracketed tree grouped⟩

private theorem statementEnd_lt (collects : Collects separator words items)
    (divided : ∃ item ∈ items, item.isSeparator separator = true) (after : List Token) :
    ∃ n < words.length, statementEnd separator (words ++ after) = .ok (some n) := by
  cases found : items.find? (Item.isSeparator separator) with
  | none =>
    obtain ⟨item, mem, isSeparator⟩ := divided
    exact absurd isSeparator (find?_eq_none.mp found item mem)
  | some item =>
    obtain ⟨isSeparator, front, back, rfl, whole⟩ := find?_eq_some_iff_append.mp found
    obtain ⟨before, rest, rfl, isFront, isBack⟩ := collects.split
    cases item with
    | tree _ => cases isSeparator
    | separator token =>
      cases isBack with
      | @separator _ c _ _ role later =>
        have same : c = separator := by
          refine Decidable.byContradiction (fun other => ?_)
          exact Bool.eq_false_iff.mp (isChar_unique (isChar_of_separates role) other)
            isSeparator
        refine ⟨before.length, by simp, ?_⟩
        rw [statementEnd, append_assoc, separatorFrom_append isFront
            (.inr (fun item mem => by simpa using whole item mem)),
          cons_append, separatorFrom_cons, role]
        dsimp only
        rw [if_pos ⟨same, rfl⟩]
        exact congrArg (fun n => Except.ok (some n)) (Nat.zero_add _)

private theorem readUntilSeparator_reads (reader : Reader) : Reads readUntilSeparator reader (fun used rest words =>
      EndsLine reader.layout.separator words used rest ∧ ∀ items, Collects reader.layout.separator words items →
          ∀ item ∈ items, item.isSeparator reader.layout.separator = false) := by
  have whole {words tail : List Token} (isRest : reader.rest = words ++ tail)
      (bound : ∀ n, statementEnd reader.layout.separator reader.rest = .ok (some n) → words.length ≤ n) :
      ∀ items, Collects reader.layout.separator words items →
        ∀ item ∈ items, item.isSeparator reader.layout.separator = false := by
    intro items collects item mem
    refine Bool.eq_false_iff.mpr (fun isSeparator => ?_)
    obtain ⟨n, few, found⟩ := statementEnd_lt collects ⟨item, mem, isSeparator⟩ tail
    exact Nat.not_lt_of_le (bound n (isRest ▸ found)) few
  unfold readUntilSeparator
  refine .get_bind (.lift_bind (separatorFrom_blameless _ _) ?_)
  intro stop found
  cases stop with
  | none =>
    refine .of_ok rfl (append_nil _).symm ⟨.finish, whole (append_nil _).symm ?_⟩
    intro n found'
    cases found.symm.trans found'
  | some n =>
    obtain ⟨token, rest, after, role⟩ := separator_of_separatorFrom found
    have isRest : reader.rest = reader.rest.take n ++ token :: rest := by
      rw [← after, take_append_drop]
    have left : reader.rest.drop (n + 1) = rest := by
      rw [← drop_drop, after]
      rfl
    dsimp only
    rw [left]
    refine .of_ok rfl (by rw [append_assoc]; exact isRest)
      ⟨.stop (isChar_of_separates role), whole isRest ?_⟩
    intro n' found'
    cases found.symm.trans found'
    exact length_take_le ..

private theorem readLine_reads {first : Token} {words : List Token} (isRest : reader.rest = first :: words)
    (other : first.isChar reader.layout.separator = false) (notIf : first.text ≠ "if") :
    Reads readLine reader (fun used rest tree => Written reader.layout .statement used rest tree) := by
  unfold readLine
  refine .bind (readUntilSeparator_reads reader) ?_
  rintro line used rest taken ⟨ends, whole⟩
  refine .get_bind ?_
  have blameless : Blameless (reader.layout.line line) :=
    .bind (collect_blameless _ _) (fun _ _ => .ok _)
  rw [← bind_pure (liftM _)]
  refine .lift_bind blameless (fun tree isTree => .pure ?_)
  obtain ⟨piece, collected, ⟨⟩⟩ := of_bind isTree
  have collects := collect_eq_ok_iff.mp collected
  rw [append_nil]
  cases line with
  | nil =>
    rw [isRest] at taken
    cases ends with
    | finish => cases taken
    | stop isSeparator =>
      cases taken
      rw [other] at isSeparator
      cases isSeparator
  | cons token line =>
    obtain rfl : first = token := by
      rw [isRest] at taken
      cases ends <;> exact (cons.inj taken).1
    rw [ofPiece_eq (by rintro rfl; cases collects)]
    exact .line notIf other collects (whole piece collects) ends

private theorem readBody_reads {depth : Nat} (nested : reader.peekKeyword = true → Reads (readIf depth) reader
      (fun used rest tree => Written reader.layout .statement used rest tree)) (word : String) :
    Reads (readBody (readIf depth) word) reader (fun used rest tree => Written reader.layout .body used rest tree) := by
  unfold readBody
  refine .get_bind ?_
  dsimp only
  split
  · exact .throw (by rintro ⟨⟩)
  next present =>
  rw [Bool.or_eq_true, not_or, Bool.not_eq_true, Bool.not_eq_true] at present
  obtain ⟨first, words, isRest⟩ := exists_cons_of_ne_nil (isEmpty_eq_false_iff.mp present.1)
  have other : first.isChar reader.layout.separator = false := by
    simpa [peekIsChar, isRest] using present.2
  split
  · next opens =>
    exact (readGroup_reads rfl opens).mono (fun _ _ _ _ grouped => .braced grouped.1 grouped.2)
  next closed =>
  have bare {step : Read Tree} (statement : Reads step reader
      (fun used rest tree => Written reader.layout .statement used rest tree)) :
      Reads (step >>= fun statement => Pure.pure (ofChildren [statement] .brace
        (.statement reader.layout.separator) reader.position)) reader
        (fun used rest tree => Written reader.layout .body used rest tree) := by
    refine .bind statement ?_
    intro tree used rest taken written
    obtain ⟨token, words, rfl, _⟩ := written.starts
    have pos : reader.position = token.position := by simp [Reader.position, taken]
    refine .pure ?_
    rw [append_nil, pos]
    refine .bare ?_ written
    simpa [peekIsChar, taken] using closed
  split
  · next isIf => exact bare (nested isIf)
  · next notIf =>
    refine bare (readLine_reads isRest other ?_)
    simpa [peekKeyword, isKeyword, isRest] using notIf

private theorem advance_reads (isRest : reader.rest = token :: tokens) :
    Reads advance reader (fun used rest next => used = [token] ∧ rest = tokens ∧ next = some token) :=
  .of_ok (run_advance isRest) isRest ⟨rfl, rfl, rfl⟩

/-- An `if` can be read, and the bound on the nesting is never reached. -/
theorem readIf_reads (depth : Nat) (enough : reader.rest.length < depth) (isKeyword : reader.peekKeyword = true) :
    Reads (readIf depth) reader (fun used rest tree => Written reader.layout .statement used rest tree) := by
  induction depth generalizing reader with
  | zero => cases enough
  | succ depth ih =>
    have bodies (word : String) {rest : List Token} (shorter : rest.length < reader.rest.length) :
        Reads (readBody (readIf depth) word) { reader with rest }
          (fun used rest tree => Written reader.layout .body used rest tree) :=
      readBody_reads (ih (show rest.length < depth by omega)) word
    cases isRest : reader.rest with
    | nil => simp [peekKeyword, isRest] at isKeyword
    | cons keyword words =>
    have isIf : keyword.text = "if" := by simpa [peekKeyword, Reader.isKeyword, isRest] using isKeyword
    unfold readIf
    refine .bind (advance_reads isRest) ?_
    rintro _ _ _ _ ⟨rfl, rfl, rfl⟩
    dsimp only
    rw [if_neg (by simp [isIf])]
    refine .get_bind ?_
    split
    · exact .get_bind (.throw (by rintro ⟨⟩))
    next opens =>
    refine .bind (@readGroup_reads .paren _ rfl (by simpa using opens)) ?_
    rintro cond test middle taken ⟨grouped, isCondition⟩
    dsimp only at taken
    subst taken
    refine .bind (bodies "if" (by simp only [isRest, length_cons, length_append]; omega)) ?_
    rintro body used left taken written
    dsimp only at taken
    subst taken
    have single (notElse : ∀ token ∈ left.head?, token.text ≠ "else") :
        Reads (Pure.pure (Tree.line [.leaf keyword, cond, body] keyword.position))
          { reader with rest := left } (fun more rest tree =>
            Written reader.layout .statement ([keyword] ++ (test ++ (used ++ more))) rest tree) := by
      refine .pure ?_
      rw [append_nil]
      change Written reader.layout .statement (keyword :: (test ++ used)) left _
      exact .single isIf grouped isCondition written notElse
    refine .get_bind ?_
    cases left with
    | nil => exact single (by rintro _ ⟨⟩)
    | cons word left =>
      dsimp only [peek?, head?_cons]
      split
      · next isElse =>
        refine .bind (advance_reads rfl) ?_
        rintro _ _ _ _ ⟨rfl, rfl, rfl⟩
        refine .bind (bodies "else" (by simp [isRest]; omega)) ?_
        rintro other others rest taken written'
        dsimp only at taken
        subst taken
        refine .pure ?_
        rw [append_nil]
        change Written reader.layout .statement (keyword :: (test ++ (used ++ word :: others))) rest _
        exact .double isIf grouped isCondition written (by simpa using isElse) written'
      · next notElse =>
        refine single ?_
        rintro _ ⟨⟩
        simpa using notElse

end Reader

/-! ## Words and members of statements -/

theorem Reader.role_word (long : token.text.toList.length ≠ 1) : token.role separator = .word := by
  have several : token.single? = none := by
    unfold single?
    split
    · next single =>
        rw [single] at long
        exact absurd rfl long
    · rfl
  rw [Token.role, several]

theorem Tree.isGroup_of_bracket (bracketed : tree.bracket? = some bracket) : tree.isGroup = true := by
  cases tree with
  | leaf => cases bracketed
  | group => rfl

def Tree.Part.Makes : Part → List Item → Tree → Prop
  | .statement, found, tree => tree = ofStatement found
  | .body, found, tree => found = [.tree tree]

open Tree in
/-- The words of a statement are those of members that the grammar takes. -/
theorem Written.takes (plain : Bracket.isBracket layout.separator = false) {part : Part} {used rest : List Token}
    (written : Written layout part used rest tree) : ∃ front found, part.Makes found tree ∧
      (part = .statement → ∀ token ∈ used.head?, Item.start found = token.position) ∧
      ∀ items, Collects layout.separator rest items → Collects layout.separator (used ++ rest) (front ++ items) ∧
          Takes layout.separator part (front ++ items) found items := by
  induction written with
  | @line first words used rest piece notIf _ collects whole ends =>
    cases piece with
    | nil => cases collects
    | cons item piece =>
    obtain ⟨_, _, ⟨⟩, leads⟩ := collects.leads plain
    have plainStart : Item.startWith "if" (item :: piece) = false := by
      rw [Item.startWith, leads.word "if" (by decide), beq_eq_false_iff_ne]
      exact notIf
    cases ends with
    | finish =>
      refine ⟨item :: piece, _, rfl, fun _ => by rintro _ ⟨⟩; exact leads.position, ?_⟩
      intro items later
      cases later
      exact ⟨collects.append .nil, .line (cons_ne_nil _ _) whole plainStart .finish⟩
    | @stop token _ isSeparator =>
      refine ⟨item :: piece ++ [.separator token], _, rfl, fun _ => by rintro _ ⟨⟩; exact leads.position, ?_⟩
      intro items later
      rw [append_assoc, append_assoc]
      exact ⟨collects.append (.separator (role_separator plain isSeparator) later),
        .line (cons_ne_nil _ _) whole plainStart (.stop isSeparator)⟩
  | @single keyword test used rest cond body isIf grouped isCondition _ notElse ih =>
    obtain ⟨front, _, rfl, _, bodies⟩ := ih
    refine ⟨.tree (leaf keyword) :: .tree cond :: front,
      [.tree (leaf keyword), .tree cond, .tree body], rfl, fun _ => by rintro _ ⟨⟩; rfl, ?_⟩
    intro items later
    obtain ⟨collects, takes⟩ := bodies items later
    have whole := (Layout.block_eq_ok_iff.mp grouped).1.append collects
    rw [← append_assoc] at whole
    refine ⟨.word (Reader.role_word (by rw [isIf]; decide)) whole, .single isIf isCondition takes ?_⟩
    cases items with
    | nil => rfl
    | cons item items =>
      obtain ⟨token, _, rfl, leads⟩ := later.leads plain
      rw [Item.startWith, leads.word "else" (by decide), beq_eq_false_iff_ne]
      exact notElse token rfl
  | @double keyword word test used others rest cond body other isIf grouped isCondition _ isElse _
      ih ih' =>
    obtain ⟨front, _, rfl, _, bodies⟩ := ih
    obtain ⟨front', _, rfl, _, bodies'⟩ := ih'
    refine ⟨.tree (leaf keyword) :: .tree cond :: (front ++ .tree (leaf word) :: front'),
      [.tree (leaf keyword), .tree cond, .tree body, .tree (leaf word), .tree other], rfl,
      fun _ => by rintro _ ⟨⟩; rfl, ?_⟩
    intro items later
    obtain ⟨collects', takes'⟩ := bodies' items later
    obtain ⟨collects, takes⟩ := bodies _ (.word (Reader.role_word (by rw [isElse]; decide)) collects')
    have whole := (Layout.block_eq_ok_iff.mp grouped).1.append collects
    simp only [cons_append, append_assoc]
    exact ⟨.word (Reader.role_word (by rw [isIf]; decide)) (by simpa using whole),
      .double isIf isCondition takes isElse takes'⟩
  | @braced used rest body grouped isBody =>
    exact ⟨[.tree body], _, rfl, by rintro ⟨⟩, fun items later =>
      ⟨(Layout.block_eq_ok_iff.mp grouped).1.append later, .braced isBody⟩⟩
  | @bare first words rest statement notBrace _ ih =>
    obtain ⟨front, piece, rfl, start, all⟩ := ih
    refine ⟨front, [.tree (ofBody layout.separator piece)], ?_, by rintro ⟨⟩, fun items later => ?_⟩
    · rw [ofBody, start rfl first rfl]
      rfl
    · obtain ⟨collects, takes⟩ := all items later
      refine ⟨collects, .bare ?_ takes⟩
      obtain ⟨item, _, _, isFront, _, _⟩ := takes.starts
      rw [isFront] at collects ⊢
      obtain ⟨_, _, ⟨⟩, leads⟩ := collects.leads plain
      exact (leads.opens .brace rfl).trans notBrace

/-- Members that the grammar takes are those of the words of a statement. -/
theorem Tree.Takes.written (plain : Bracket.isBracket layout.separator = false) {part : Part} {found rest : List Item}
    (takes : Takes layout.separator part items found rest) (collects : Collects layout.separator tokens items) :
    ∃ used after tree, tokens = used ++ after ∧ Collects layout.separator after rest ∧
      0 < used.length ∧ part.Makes found tree ∧ Written layout part used after tree := by
  induction takes generalizing tokens with
  | @line piece tail rest nonempty whole notIf stops =>
    obtain ⟨words, after, rfl, isPiece, isTail⟩ := collects.split
    cases piece with
    | nil => exact absurd rfl nonempty
    | cons item piece =>
    obtain ⟨first, words, rfl, leads⟩ := isPiece.leads plain
    have notIf : first.text ≠ "if" := by
      rwa [Item.startWith, leads.word "if" (by decide), beq_eq_false_iff_ne] at notIf
    have other : first.isChar layout.separator = false := by
      rw [← leads.separates, whole item (mem_cons_self ..)]
    cases stops with
    | finish =>
      cases isTail
      exact ⟨_, [], _, rfl, .nil, Nat.succ_pos _, rfl, .line notIf other isPiece whole .finish⟩
    | stop isSeparator =>
      cases isTail with
      | separator _ later =>
        exact ⟨first :: words ++ [_], _, _, by simp, later, by simp, rfl,
          .line notIf other isPiece whole (.stop isSeparator)⟩
  | @single keyword cond body items rest isIf isCondition _ notElse ih =>
    obtain ⟨words, rfl, inner⟩ := collects.of_leaf
    obtain ⟨test, words, rfl, isTest, inner⟩ := @Collects.split _ _ [_] items inner
    obtain ⟨used, after, _, rfl, later, _, ⟨⟩, written⟩ := ih inner
    have grouped := Layout.block_eq_ok_iff.mpr ⟨isTest, isGroup_of_bracket isCondition⟩
    refine ⟨keyword :: (test ++ used), after, _, by simp, later, Nat.succ_pos _, rfl,
      .single isIf grouped isCondition written ?_⟩
    rintro token isNext isElse
    cases rest with
    | nil =>
      cases later
      cases isNext
    | cons item rest =>
      obtain ⟨_, _, rfl, leads⟩ := later.leads plain
      cases isNext
      rw [Item.startWith, leads.word "else" (by decide), beq_eq_false_iff_ne] at notElse
      exact notElse isElse
  | @double keyword word cond body other items middle rest isIf isCondition _ isElse _ ih ih' =>
    obtain ⟨words, rfl, inner⟩ := collects.of_leaf
    obtain ⟨test, words, rfl, isTest, inner⟩ := @Collects.split _ _ [_] items inner
    obtain ⟨used, _, _, rfl, later, _, ⟨⟩, written⟩ := ih inner
    obtain ⟨words, rfl, beyond⟩ := later.of_leaf
    obtain ⟨others, after, _, rfl, last, _, ⟨⟩, written'⟩ := ih' beyond
    have grouped := Layout.block_eq_ok_iff.mpr ⟨isTest, isGroup_of_bracket isCondition⟩
    exact ⟨keyword :: (test ++ (used ++ word :: others)), after, _, by simp, last, Nat.succ_pos _, rfl,
      .double isIf grouped isCondition written isElse written'⟩
  | @braced body rest isBody =>
    obtain ⟨used, after, rfl, isGroup, later⟩ := @Collects.split _ _ [_] rest collects
    have grouped := Layout.block_eq_ok_iff.mpr ⟨isGroup, isGroup_of_bracket isBody⟩
    obtain ⟨token, words, rfl, _⟩ := Layout.starts_of_block plain grouped
    exact ⟨_, after, body, rfl, later, Nat.succ_pos _, rfl, .braced grouped isBody⟩
  | @bare items piece rest notBrace takes ih =>
    obtain ⟨item, front, back, rfl, rfl, _⟩ := takes.starts
    obtain ⟨used, after, _, rfl, later, some, rfl, written⟩ := ih collects
    obtain ⟨first, words, rfl, _⟩ := written.starts
    obtain ⟨_, _, ⟨⟩, leads⟩ := collects.leads plain
    refine ⟨_, after, _, rfl, later, some, ?_, .bare ((leads.opens .brace rfl).symm.trans notBrace) written⟩
    rw [← leads.position]
    rfl

namespace Reader

open Tree

variable {reader : Reader}

/-! ## Statements -/

theorem startWith_of_leaf {text : String} (isText : token.text = text) (items : List Item) :
    Item.startWith text (.tree (leaf token) :: items) = true := by
  simp [Item.startWith, Item.toTree, isWord, word?, isText]

theorem run_skip (bound : Nat) (rest : reader.rest = token :: tokens)
    (isSeparator : token.isChar reader.layout.separator = true) : (readStatementsUpTo (bound + 1)).run.run reader =
      (readStatementsUpTo (bound + 1)).run.run { reader with rest := tokens } := by
  have skipped : skipSeparators.run.run reader = skipSeparators.run.run { reader with rest := tokens } := by
    rw [skipSeparators, run_modify, run_modify, rest]
    dsimp only
    rw [dropWhile_cons, if_pos isSeparator]
  rw [readStatementsUpTo, run_bind, skipped, ← run_bind]

theorem run_next (plain : Bracket.isBracket reader.layout.separator = false) {used rest : List Token}
    (first : Written reader.layout .statement used rest tree) (isRest : reader.rest = used ++ rest) (bound : Nat) :
    (readStatementsUpTo (bound + 1)).run.run reader = (do
        let trees ← readStatementsUpTo bound
        return tree :: trees : Read (List Tree)).run.run { reader with rest } := by
  have found := finds_of_written plain first rfl isRest
    (show used.length < reader.rest.length + 1 by rw [isRest, length_append]; omega)
  obtain ⟨token, words, rfl, other⟩ := first.starts
  have skipped : skipSeparators.run.run reader = (.ok (), reader) := by
    rw [skipSeparators, run_modify]
    dsimp only
    rw [isRest, cons_append, dropWhile_cons_of_neg (by simp [other]), ← cons_append,
      ← isRest]
  have read : readStatement.run.run reader = (.ok tree, { reader with rest }) := by
    rw [readStatement, run_bind_ok (run_get _)]
    rw [Finds] at found
    cases keyword : reader.peekKeyword with
    | false =>
      rw [keyword, if_neg Bool.false_ne_true] at found
      rw [if_neg Bool.false_ne_true, found]
    | true =>
      rw [keyword, if_pos rfl] at found
      rw [if_pos rfl, readIfStatement, run_bind_ok (run_get reader), found]
  rw [readStatementsUpTo, run_bind_ok skipped, run_bind_ok (run_get _),
    if_neg (by simp [atEnd, isRest]), run_bind_ok read]

/-- The words of statements, with separators among them. -/
inductive WrittenAll (layout : Layout) : List Token → List Tree → Prop where
  | finish : WrittenAll layout [] []
  | skip {token : Token} {tokens : List Token} {trees : List Tree} :
      token.isChar layout.separator = true → WrittenAll layout tokens trees →
      WrittenAll layout (token :: tokens) trees
  | next {used rest : List Token} {tree : Tree} {trees : List Tree} :
      Written layout .statement used rest tree → WrittenAll layout rest trees →
      WrittenAll layout (used ++ rest) (tree :: trees)

namespace WrittenAll

variable {layout : Layout} {trees : List Tree}

theorem skips {skipped : List Token} (separators : ∀ token ∈ skipped, token.isChar layout.separator = true)
    (written : WrittenAll layout tokens trees) : WrittenAll layout (skipped ++ tokens) trees := by
  induction skipped with
  | nil => exact written
  | cons token skipped ih =>
    rw [forall_mem_cons] at separators
    exact .skip separators.1 (ih separators.2)

section

variable (plain : Bracket.isBracket layout.separator = false)
include plain

theorem takes (written : WrittenAll layout tokens trees) :
    ∃ items pieces, Collects layout.separator tokens items ∧ TakesAll layout.separator items pieces ∧
      trees = pieces.map ofStatement := by
  induction written with
  | finish => exact ⟨[], [], .nil, .nil, rfl⟩
  | skip isSeparator _ ih =>
    obtain ⟨items, pieces, collects, takes, rfl⟩ := ih
    exact ⟨_, pieces, .separator (role_separator plain isSeparator) collects, .skip isSeparator takes, rfl⟩
  | next first _ ih =>
    obtain ⟨items, pieces, collects, takes, rfl⟩ := ih
    obtain ⟨front, piece, rfl, _, all⟩ := first.takes plain
    obtain ⟨collects, first⟩ := all items collects
    exact ⟨_, piece :: pieces, collects, .next first takes, rfl⟩

private theorem of_takes {pieces : List (List Item)} (takes : TakesAll layout.separator items pieces)
    (collects : Collects layout.separator tokens items) : WrittenAll layout tokens (pieces.map ofStatement) := by
  induction takes generalizing tokens with
  | nil =>
    cases collects
    exact .finish
  | skip isSeparator _ ih =>
    cases collects with
    | separator _ later => exact .skip isSeparator (ih later)
  | next takes _ ih =>
    obtain ⟨used, rest, _, rfl, later, _, rfl, written⟩ := takes.written plain collects
    exact .next written (ih later)

theorem run (written : WrittenAll layout tokens trees) {bound : Nat} (same : reader.layout = layout)
    (isRest : reader.rest = tokens) (enough : tokens.length < bound) :
    ((readStatementsUpTo bound).run.run reader).1 = .ok trees := by
  induction written generalizing reader bound with
  | finish =>
    cases bound with
    | zero => cases enough
    | succ bound =>
      have skipped : skipSeparators.run.run reader = (.ok (), reader) := by
        obtain ⟨_, _, _⟩ := reader
        cases isRest
        rfl
      rw [readStatementsUpTo, run_bind_ok skipped, run_bind_ok (run_get _), if_pos (by rw [atEnd, isRest]; rfl)]
      rfl
  | @skip token tokens trees isSeparator _ ih =>
    subst same
    cases bound with
    | zero => cases enough
    | succ bound =>
      rw [run_skip bound isRest isSeparator]
      exact @ih { reader with rest := tokens } _ rfl rfl (Nat.lt_of_succ_lt enough)
  | @next used rest tree trees first _ ih =>
    subst same
    cases bound with
    | zero => cases enough
    | succ bound =>
      have fewer : rest.length < bound := by
        obtain ⟨_, _, rfl, _⟩ := first.starts
        rw [length_append, length_cons] at enough
        omega
      have others := @ih { reader with rest } bound rfl rfl fewer
      rw [run_next plain first isRest]
      rcases ran : (readStatementsUpTo bound).run.run { reader with rest } with ⟨outcome, after⟩
      rw [ran] at others
      cases others
      rw [run_bind_ok ran]
      rfl

end

end WrittenAll

private theorem readStatement_reads {words : List Token} (isRest : reader.rest = token :: words)
    (other : token.isChar reader.layout.separator = false) : Reads readStatement reader
      (fun used rest tree => Written reader.layout .statement used rest tree) := by
  unfold readStatement
  refine .get_bind ?_
  split
  · next isKeyword => exact .get_bind (readIf_reads _ (Nat.lt_succ_self _) isKeyword)
  · next notIf =>
    refine readLine_reads isRest other ?_
    simpa [peekKeyword, isKeyword, isRest] using notIf

private theorem skipSeparators_reads (reader : Reader) : Reads skipSeparators reader (fun used rest _ =>
      (∀ token ∈ used, token.isChar reader.layout.separator = true) ∧
        ∀ token ∈ rest.head?, token.isChar reader.layout.separator = false) := by
  refine .of_ok rfl takeWhile_append_dropWhile.symm ⟨all_eq_true.mp all_takeWhile, ?_⟩
  intro token first
  have none := head?_dropWhile_not (fun token => token.isChar reader.layout.separator) reader.rest
  rw [Option.mem_def.mp first] at none
  exact none

/-- Only words of statements are read. -/
private theorem readStatementsUpTo_reads (bound : Nat) (enough : reader.rest.length < bound) :
    Reads (readStatementsUpTo bound) reader
      (fun used rest trees => rest = [] ∧ WrittenAll reader.layout used trees) := by
  induction bound generalizing reader with
  | zero => cases enough
  | succ bound ih =>
    unfold readStatementsUpTo
    refine .bind (skipSeparators_reads reader) ?_
    rintro _ skipped rest taken ⟨separators, other⟩
    refine .get_bind ?_
    split
    · next ended =>
      have ended : rest = [] := isEmpty_iff.mp ended
      exact .pure ⟨ended, .skips separators .finish⟩
    next more =>
    obtain ⟨token, words, rfl⟩ := exists_cons_of_ne_nil
      (fun ended : rest = [] => more (isEmpty_iff.mpr ended))
    refine .bind (readStatement_reads rfl (other token rfl)) ?_
    intro tree used left taken' written
    obtain ⟨first, others, rfl, _⟩ := written.starts
    change token :: words = first :: others ++ left at taken'
    have enough' : left.length < bound := by
      rw [taken, taken', length_append, length_append, length_cons] at enough
      omega
    refine .bind (@ih { reader with rest := left } enough') ?_
    rintro trees others last taken'' ⟨rfl, all⟩
    dsimp only at taken''
    subst taken''
    refine .pure ⟨rfl, ?_⟩
    rw [append_nil]
    rw [append_nil] at written
    exact .skips separators (.next written all)

end Reader

namespace Layout

theorem readStatements_reads (layout : Layout) (tokens : List Token) :
    Blameless (layout.readStatements tokens) ∧ ∀ trees, layout.readStatements tokens = .ok trees →
      Reader.WrittenAll layout tokens trees := by
  have reads : Reader.Reads Reader.readStatements (Reader.start layout tokens)
      (fun used rest trees => rest = [] ∧ Reader.WrittenAll layout used trees) :=
    .get_bind (Reader.readStatementsUpTo_reads _ (Nat.lt_succ_self _))
  refine ⟨reads.1, ?_⟩
  intro trees read
  obtain ⟨used, _, taken, _, rfl, written⟩ := reads.2 trees _ (Prod.ext read rfl)
  rw [append_nil] at taken
  exact (show tokens = used from taken) ▸ written

theorem readStatements_eq_ok_iff (plain : Bracket.isBracket layout.separator = false) {trees : List Tree} :
    layout.readStatements tokens = .ok trees ↔ ∃ items pieces, Tree.Collects layout.separator tokens items ∧
        Tree.TakesAll layout.separator items pieces ∧ trees = pieces.map Tree.ofStatement := by
  refine ⟨fun read => ((layout.readStatements_reads tokens).2 trees read).takes plain, ?_⟩
  rintro ⟨items, pieces, collects, takes, rfl⟩
  rw [readStatements, Reader.readStatements, run_bind_ok (run_get _)]
  exact (Reader.WrittenAll.of_takes plain takes collects).run plain rfl rfl (Nat.lt_succ_self _)

end Layout

end ScoreScript
