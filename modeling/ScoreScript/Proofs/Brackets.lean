import Mathlib.Data.List.Chain
import ScoreScript.Proofs.Reading.Matched

/-!
# Which words are grouped

`Token.Outlines` says that brackets are nested and match by kind, without a stack and without trees.
Words are grouped exactly where their brackets are so and no list of arguments has an empty item, and
then no word is lost.
-/

namespace ScoreScript

open List

variable {separator : Char}

namespace Token

/-- The brackets of the words are nested and match. The outline is what stands outside all of them:
the character of a separator or a comma, and nothing for any other word and for a whole group. -/
inductive Outlines (separator : Char) : List Token → List (Option Char) → Prop where
  | nil : Outlines separator [] []
  | word {token : Token} {rest : List Token} {outline : List (Option Char)} :
      token.role separator = .word → Outlines separator rest outline →
      Outlines separator (token :: rest) (none :: outline)
  | divider {token : Token} {c : Char} {rest : List Token} {outline : List (Option Char)} :
      token.role separator = .separates c → Outlines separator rest outline →
      Outlines separator (token :: rest) (some c :: outline)
  | group {opening closing : Token} {bracket : Bracket} {inside rest : List Token}
      {inner outline : List (Option Char)} :
      opening.role separator = .opens bracket → closing.role separator = .closes bracket →
      Outlines separator inside inner → Outlines separator rest outline →
      Outlines separator (opening :: (inside ++ closing :: rest)) (none :: outline)

/-- A group with commas and without separators has something around every comma: with a comma put at
both ends, no two of them stand side by side. -/
def Listed (separator : Char) (outline : List (Option Char)) : Prop :=
  some separator ∈ outline ∨ some ',' ∉ outline ∨
    (some ',' :: (outline ++ [some ','])).IsChain (fun a b => a ≠ some ',' ∨ b ≠ some ',')

/-- The words have a group with this outline, which starts at this bracket. -/
def HasGroup (separator : Char) (tokens : List Token) (opening : Token) (outline : List (Option Char)) : Prop :=
  ∃ (before inside after : List Token) (closing : Token) (bracket : Bracket),
    tokens = before ++ opening :: (inside ++ closing :: after) ∧
      opening.role separator = .opens bracket ∧ closing.role separator = .closes bracket ∧
      Outlines separator inside outline

def isOrdinary (separator : Char) (token : Token) : Bool :=
  !(token.isChar separator || token.isChar ',' || token.single?.any Bracket.isBracket)

variable {separator : Char} {token opening : Token} {tokens : List Token}
  {outline : List (Option Char)}

private theorem single?_of_separates {c : Char} (role : token.role separator = .separates c) :
    token.single? = some c ∧ (c = separator ∨ c = ',') := by
  unfold Token.role at role
  repeat' split at role
  all_goals cases role
  next single _ _ divides => exact ⟨single, divides⟩

private theorem isOrdinary_eq (token : Token) : token.isOrdinary separator = decide (token.role separator = .word) := by
  unfold isOrdinary Token.role
  cases single : token.single? with
  | none => simp [isChar, single]
  | some c =>
    cases opens : Bracket.ofOpening? c <;> cases closes : Bracket.ofClosing? c <;>
      simp [isChar, single, Bracket.isBracket, opens, closes, Bool.beq_eq_decide_eq]

theorem HasGroup.widen (has : HasGroup separator tokens opening outline) (front back : List Token) :
    HasGroup separator (front ++ (tokens ++ back)) opening outline := by
  obtain ⟨before, inside, after, closing, bracket, rfl, opens, closes, outlines⟩ := has
  exact ⟨front ++ before, inside, after ++ back, closing, bracket, by simp, opens, closes, outlines⟩

end Token

namespace Tree

open Token (Outlines Listed HasGroup)

variable {separator : Char} {bracket : Bracket} {pos : Position} {items : List Item} {tree : Tree}
  {tokens : List Token}

/-! ## Lists without empty items -/

def Item.mark : Item → Option Char
  | .tree _ => none
  | .separator token => token.single?

theorem Item.isSeparator_eq (c : Char) (item : Item) : item.isSeparator c = (item.mark == some c) := by
  cases item <;> rfl

theorem any_isSeparator_iff (c : Char) : items.any (Item.isSeparator c) = true ↔ some c ∈ items.map Item.mark := by
  simp [Item.isSeparator_eq]

theorem isChain_iff (c : Char) (mark : Option Char) (items : List Item) :
    (mark :: (items.map Item.mark ++ [some c])).IsChain (fun a b => a ≠ some c ∨ b ≠ some c) ↔
      ∃ piece pieces, Item.split c items = piece :: pieces ∧ (mark = some c → piece ≠ []) ∧
        ∀ other ∈ pieces, other ≠ [] := by
  induction items generalizing mark with
  | nil => simp [Item.split]
  | cons item items ih =>
    rw [map_cons, cons_append, isChain_cons_cons, ih, Item.split, Item.isSeparator_eq]
    obtain ⟨piece, pieces, isSplit⟩ := exists_split c items
    by_cases divides : item.mark = some c
    · simp [divides, isSplit]
    · simp [divides, isSplit]

theorem close_cases (bracket : Bracket) (pos : Position) (items : List Item) :
    (∃ tree, close separator bracket pos items = .ok tree ∧ Listed separator (items.map Item.mark)) ∨
      close separator bracket pos items = .error ⟨.emptyListItem, pos⟩ ∧
        ¬ Listed separator (items.map Item.mark) := by
  unfold close
  split
  · next divided => exact .inl ⟨_, rfl, .inl ((any_isSeparator_iff _).mp divided)⟩
  next whole =>
  split
  · next commas =>
    have chain := isChain_iff ',' (some ',') items
    obtain ⟨piece, pieces, isSplit⟩ := exists_split ',' items
    have full : (Item.split ',' items).any isEmpty = false ↔
        (some ',' :: (items.map Item.mark ++ [some ','])).IsChain
          (fun a b => a ≠ some ',' ∨ b ≠ some ',') := by
      rw [chain, isSplit]
      simp
    dsimp only
    split
    · next empty =>
      refine .inr ⟨rfl, ?_⟩
      rintro (divided | none | listed)
      · exact whole ((any_isSeparator_iff _).mpr divided)
      · exact none ((any_isSeparator_iff _).mp commas)
      · rw [full.mpr listed] at empty
        cases empty
    · next filled => exact .inl ⟨_, rfl, .inr (.inr (full.mp (Bool.not_eq_true _ ▸ filled)))⟩
  · next none => exact .inl ⟨_, rfl, .inr (.inl (fun comma => none ((any_isSeparator_iff _).mpr comma)))⟩

/-! ## Words that are grouped -/

theorem Collects.outlines (collects : Collects separator tokens items) :
    Outlines separator tokens (items.map Item.mark) := by
  induction collects with
  | nil => exact .nil
  | word role _ ih => exact .word role ih
  | separator role _ ih =>
    rw [map_cons, Item.mark, (Token.single?_of_separates role).1]
    exact .divider role ih
  | group opens closes _ _ _ insideIH restIH => exact .group opens closes insideIH restIH

variable {outline : List (Option Char)}

theorem Collects.of_outlines (outlines : Outlines separator tokens outline)
    (listed : ∀ opening inner, HasGroup separator tokens opening inner → Listed separator inner) :
    ∃ items, Collects separator tokens items ∧ items.map Item.mark = outline := by
  induction outlines with
  | nil => exact ⟨[], .nil, rfl⟩
  | @word token rest _ role _ ih =>
    obtain ⟨items, collects, rfl⟩ := ih (fun opening inner has =>
      listed opening inner (by simpa using has.widen [token] []))
    exact ⟨_, .word role collects, rfl⟩
  | @divider token c rest _ role _ ih =>
    obtain ⟨items, collects, rfl⟩ := ih (fun opening inner has =>
      listed opening inner (by simpa using has.widen [token] []))
    refine ⟨_, .separator role collects, ?_⟩
    rw [map_cons, Item.mark, (Token.single?_of_separates role).1]
  | @group opening closing bracket inside rest inner _ opens closes within _ insideIH restIH =>
    obtain ⟨members, collected, rfl⟩ := insideIH (fun other inner has =>
      listed other inner (has.widen [opening] (closing :: rest)))
    obtain ⟨items, collects, rfl⟩ := restIH (fun other inner has =>
      listed other inner (by simpa using has.widen (opening :: (inside ++ [closing])) []))
    have own := listed opening _ ⟨[], inside, rest, closing, bracket, rfl, opens, closes, within⟩
    rcases close_cases bracket opening.position members with ⟨tree, closed, _⟩ | ⟨_, empty⟩
    · exact ⟨_, .group opens closes collected closed collects, rfl⟩
    · exact absurd own empty

namespace Pending

variable {pending : Pending}

private theorem steps_append {before after : List Token} {last : Pending}
    (ran : (before ++ after).foldlM (step separator) pending = .ok last) :
    ∃ middle, before.foldlM (step separator) pending = .ok middle ∧
      after.foldlM (step separator) middle = .ok last := by
  rw [foldlM_append] at ran
  cases first : before.foldlM (step separator) pending with
  | error fault =>
    rw [first] at ran
    cases ran
  | ok middle =>
    rw [first] at ran
    exact ⟨middle, rfl, ran⟩

/-- Words with matching brackets that are taken in are grouped. -/
private theorem collects_of_steps (outlines : Outlines separator tokens outline) {last : Pending}
    (ran : tokens.foldlM (step separator) pending = .ok last) :
    ∃ items, Collects separator tokens items ∧ items.map Item.mark = outline := by
  induction outlines generalizing pending last with
  | nil => exact ⟨[], .nil, rfl⟩
  | word role _ ih =>
    rw [foldlM_cons, step, role] at ran
    obtain ⟨items, collects, rfl⟩ := ih ran
    exact ⟨_, .word role collects, rfl⟩
  | divider role _ ih =>
    rw [foldlM_cons, step, role] at ran
    obtain ⟨items, collects, rfl⟩ := ih ran
    refine ⟨_, .separator role collects, ?_⟩
    rw [map_cons, Item.mark, (Token.single?_of_separates role).1]
  | @group opening closing bracket inside rest inner _ opens closes _ _ insideIH restIH =>
    rw [foldlM_cons, step, opens] at ran
    obtain ⟨middle, first, second⟩ := steps_append ran
    obtain ⟨members, collected, rfl⟩ := insideIH first
    rw [steps_of_collects collected, foldl_add_inside, append_nil] at first
    cases first
    rw [foldlM_cons, step_closing closes] at second
    rcases close_cases bracket opening.position members with
      ⟨tree, closed, _⟩ | ⟨failed, _⟩
    · rw [closed] at second
      obtain ⟨items, collects, rfl⟩ := restIH second
      exact ⟨_, .group opens closes collected closed collects, rfl⟩
    · rw [failed] at second
      cases second

/-- The word that cannot be taken in closes a bracket that is not open, or a list of arguments with an
empty item. -/
private theorem step_fault {token : Token} {fault : Fault} (holds : Holds separator tokens pending.top pending.stack)
    (failed : pending.step separator token = .error fault) (after : List Token) : fault.kind = .mismatchedBracket ∨
      ∃ opening outline, HasGroup separator (tokens ++ token :: after) opening outline ∧
        ¬ Listed separator outline ∧ fault = ⟨.emptyListItem, opening.position⟩ := by
  obtain ⟨stack, top⟩ := pending
  unfold step at failed
  split at failed
  · cases failed
  · next bracket closes =>
    cases stack with
    | nil =>
      cases failed
      exact .inl rfl
    | cons inner outer =>
      dsimp only at failed
      split at failed
      · cases failed
        exact .inl rfl
      · next same =>
        obtain ⟨before, inside, opening, rfl, _, opens, pos, members⟩ := holds
        rw [Decidable.not_not.mp same] at opens
        rcases close_cases bracket inner.position inner.members.reverse with
          ⟨tree, closed, _⟩ | ⟨empty, unlisted⟩
        · rw [closed] at failed
          cases failed
        · rw [empty] at failed
          cases failed
          exact .inr ⟨opening, _, ⟨before, inside, after, token, bracket, by simp, opens, closes,
            members.outlines⟩, unlisted, by rw [pos]⟩
  · cases failed
  · cases failed

theorem steps_fault {words : List Token} {fault : Fault} (holds : Holds separator tokens pending.top pending.stack)
    (failed : words.foldlM (step separator) pending = .error fault) : fault.kind = .mismatchedBracket ∨
      ∃ opening outline, HasGroup separator (tokens ++ words) opening outline ∧
        ¬ Listed separator outline ∧ fault = ⟨.emptyListItem, opening.position⟩ := by
  induction words generalizing tokens pending with
  | nil => cases failed
  | cons token words ih =>
    rw [foldlM_cons] at failed
    cases stepped : step separator pending token with
    | error other =>
      rw [stepped] at failed
      cases failed
      exact step_fault holds stepped words
    | ok next =>
      rw [stepped] at failed
      rw [append_cons]
      exact ih (step_holds holds stepped) failed

end Pending

private theorem collect_fault {fault : Fault} (failed : collect separator tokens = .error fault) :
    fault.kind = .mismatchedBracket ∨ ∃ opening outline, HasGroup separator tokens opening outline ∧
        ¬ Listed separator outline ∧ fault = ⟨.emptyListItem, opening.position⟩ := by
  unfold collect at failed
  cases ran : tokens.foldlM (Pending.step separator) {} with
  | error other =>
    rw [ran] at failed
    cases failed
    have nothing : Pending.Holds separator [] [] [] := .nil
    exact Pending.steps_fault nothing ran
  | ok last =>
    rw [ran] at failed
    obtain ⟨stack, top⟩ := last
    cases stack with
    | nil => cases failed
    | cons inner outer =>
      cases failed
      exact .inl rfl

theorem Collects.listed (collects : Collects separator tokens items) {opening : Token}
    (has : HasGroup separator tokens opening outline) : Listed separator outline := by
  obtain ⟨before, inside, after, closing, bracket, rfl, opens, closes, outlines⟩ := has
  obtain ⟨first, _, ran⟩ := Pending.steps_append (Pending.steps_of_collects collects {})
  rw [foldlM_cons, Pending.step, opens] at ran
  obtain ⟨second, taken, rest⟩ := Pending.steps_append ran
  obtain ⟨members, collected, rfl⟩ := Pending.collects_of_steps outlines taken
  rw [Pending.steps_of_collects collected, Pending.foldl_add_inside, append_nil] at taken
  cases taken
  rw [foldlM_cons, Pending.step_closing closes] at rest
  rcases close_cases bracket opening.position members with ⟨_, _, listed⟩ | ⟨failed, _⟩
  · exact listed
  · rw [failed] at rest
    cases rest

/-! ## Words that are kept -/

private theorem leaves_ofChildren (children : List Tree) (bracket : Bracket) (divider : Divider) (pos : Position) :
    (ofChildren children bracket divider pos).leaves = children.flatMap leaves := by
  unfold ofChildren
  split <;> simp [leaves, leavesList_eq]

theorem flatten_split (c : Char) (items : List Item) :
    (Item.split c items).flatten = items.filter (fun item => !item.isSeparator c) := by
  induction items with
  | nil => rfl
  | cons item items ih =>
    obtain ⟨piece, pieces, isSplit⟩ := exists_split c items
    rw [isSplit, flatten_cons] at ih
    rw [Item.split, isSplit]
    cases divides : item.isSeparator c <;> simp [divides, ← ih]

theorem leaves_pieces (pieces : List (List Item)) (pos : Position) :
    (pieces.map (ofPiece pos)).flatMap leaves = pieces.flatten.flatMap (fun item => item.toTree.leaves) := by
  induction pieces with
  | nil => rfl
  | cons piece pieces ih => simp [ofPiece, line, leaves_ofChildren, flatMap_map, ih]

def Item.kept : Item → List Token
  | .tree tree => tree.leaves.filter (fun token => !token.isChar ',')
  | .separator _ => []

/-- Separators of one kind, and commas, are all that is lost. -/
private theorem filter_leaves (c : Char)
    (dividers : ∀ token, .separator token ∈ items → token.isChar c = true ∨ token.isChar ',' = true) :
    ((items.filter (fun item => !item.isSeparator c)).flatMap (fun item => item.toTree.leaves)).filter
        (fun token => !token.isChar ',') = items.flatMap Item.kept := by
  induction items with
  | nil => rfl
  | cons item items ih =>
    have later := ih (fun token mem => dividers token (mem_cons_of_mem _ mem))
    rw [filter_cons, flatMap_cons, ← later]
    cases item with
    | tree tree => simp [Item.isSeparator, Item.kept, Item.toTree]
    | separator token =>
      cases divides : token.isChar c with
      | true => simp [Item.isSeparator, Item.kept, divides]
      | false =>
        have comma := (dividers token (mem_cons_self ..)).resolve_left (by simp [divides])
        simp [Item.isSeparator, Item.kept, Item.toTree, leaves, divides, comma]

theorem statements_words (pos : Position) (dividers : ∀ token, .separator token ∈ items →
      token.isChar separator = true ∨ token.isChar ',' = true) :
    ((((Item.split separator items).filter (fun piece => !piece.isEmpty)).map
        (ofPiece pos)).flatMap leaves).filter (fun token => !token.isChar ',') = items.flatMap Item.kept := by
  rw [leaves_pieces, flatten_filter_not_isEmpty, flatten_split, filter_leaves separator dividers]

theorem close_words (closed : close separator bracket pos items = .ok tree)
    (dividers : ∀ token, .separator token ∈ items → token.isChar separator = true ∨ token.isChar ',' = true) :
    tree.leaves.filter (fun token => !token.isChar ',') = items.flatMap Item.kept := by
  unfold close at closed
  split at closed
  · cases closed
    rw [leaves_ofChildren, statements_words pos dividers]
  next whole =>
  have commas (token : Token) (mem : .separator token ∈ items) : token.isChar ',' = true :=
    (dividers token mem).resolve_left
      (fun divides => whole (any_eq_true.mpr ⟨.separator token, mem, divides⟩))
  split at closed
  · dsimp only at closed
    split at closed
    · cases closed
    · cases closed
      rw [leaves_ofChildren, leaves_pieces, flatten_split,
        filter_leaves ',' (fun token mem => .inl (commas token mem))]
  · next none =>
    cases closed
    have all : items.filter (fun item => !item.isSeparator ',') = items :=
      filter_eq_self.mpr (fun item mem => by
        simpa using fun divides => none (any_eq_true.mpr ⟨item, mem, divides⟩))
    rw [leaves_ofChildren, flatMap_map, ← filter_leaves ',' (fun token mem => .inl (commas token mem)), all]

theorem Collects.dividers (collects : Collects separator tokens items) (token : Token)
    (mem : .separator token ∈ items) : token.isChar separator = true ∨ token.isChar ',' = true := by
  induction collects with
  | nil => cases mem
  | word _ _ ih => exact ih (by simpa using mem)
  | separator role _ ih =>
    rcases mem_cons.mp mem with same | later
    · cases same
      obtain ⟨single, rfl | rfl⟩ := Token.single?_of_separates role
      · exact .inl (by simp [Token.isChar, single])
      · exact .inr (by simp [Token.isChar, single])
    · exact ih later
  | group _ _ _ _ _ _ restIH => exact restIH (by simpa using mem)

/-- The words of the members are those that were grouped, in order. -/
theorem Collects.words (collects : Collects separator tokens items) :
    items.flatMap Item.kept = tokens.filter (Token.isOrdinary separator) := by
  have other {token : Token} {role : Role} (is : token.role separator = role) (special : role ≠ .word) :
      token.isOrdinary separator = false := by
    rw [Token.isOrdinary_eq, is, decide_eq_false special]
  induction collects with
  | nil => rfl
  | @word token rest items role _ ih =>
    have ordinary : token.isOrdinary separator = true := by
      rw [Token.isOrdinary_eq, role, decide_eq_true rfl]
    have noComma : token.isChar ',' = false := by
      simp only [Token.isOrdinary, Bool.not_or, Bool.and_eq_true, Bool.not_eq_true'] at ordinary
      exact ordinary.1.2
    simp [Item.kept, leaves, noComma, ordinary, ih]
  | separator role _ ih =>
    rw [flatMap_cons, ih, filter_cons, other role (by rintro ⟨⟩)]
    rfl
  | group opens closes inside closed _ insideIH restIH =>
    rw [flatMap_cons, Item.kept, close_words closed inside.dividers, insideIH, restIH]
    simp [other opens (by rintro ⟨⟩), other closes (by rintro ⟨⟩)]

end Tree

/-- Words are grouped exactly where brackets are nested and match by kind and no list of arguments has
an empty item. A failure is that of a bracket or of such a list, at the bracket that starts it. Where
words are grouped, all of them are kept in order but brackets, separators and commas. -/
theorem Layout.group_exact (layout : Layout) (tokens : List Token) : ((∃ trees, layout.group tokens = .ok trees) ↔
      (∃ outline, Token.Outlines layout.separator tokens outline) ∧
        ∀ opening outline, Token.HasGroup layout.separator tokens opening outline →
          Token.Listed layout.separator outline) ∧
    (∀ fault, layout.group tokens = .error fault → fault.kind = .mismatchedBracket ∨
      ∃ opening outline, Token.HasGroup layout.separator tokens opening outline ∧
        ¬ Token.Listed layout.separator outline ∧ fault = ⟨.emptyListItem, opening.position⟩) ∧
    ∀ trees, layout.group tokens = .ok trees → (trees.flatMap Tree.leaves).filter (fun token => !token.isChar ',') =
        tokens.filter (Token.isOrdinary layout.separator) := by
  unfold group
  cases collected : Tree.collect layout.separator tokens with
  | error fault =>
    refine ⟨⟨?_, ?_⟩, ?_, ?_⟩
    · rintro ⟨_, ⟨⟩⟩
    · rintro ⟨⟨outline, outlines⟩, listed⟩
      obtain ⟨items, collects, _⟩ := Tree.Collects.of_outlines outlines listed
      rw [Tree.collect_eq_ok_iff.mpr collects] at collected
      cases collected
    · rintro _ ⟨⟩
      exact Tree.collect_fault collected
    · rintro _ ⟨⟩
  | ok items =>
    have collects := Tree.collect_eq_ok_iff.mp collected
    refine ⟨⟨fun _ => ⟨⟨_, collects.outlines⟩, fun _ _ => collects.listed⟩, fun _ => ⟨_, rfl⟩⟩, ?_, ?_⟩
    · rintro _ ⟨⟩
    · rintro _ ⟨⟩
      rw [Tree.statements_words _ collects.dividers, collects.words]

end ScoreScript
