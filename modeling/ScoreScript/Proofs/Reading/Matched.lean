import ScoreScript.Proofs.Reading.Grouping
import ScoreScript.Statement.Reader

/-!
# Words with matching brackets

`Collects` says how words are grouped, bracket by bracket, without the stack of open groups that
the one pass over the words keeps. The pass succeeds exactly on words whose brackets match, and the
ends of groups and of statements are found where the members of such words end.
-/

namespace ScoreScript

open List

open Token Bracket

variable {tokens : List Token} {token : Token}

namespace Token

variable {separator : Char} {bracket : Bracket}

theorem closeFrom_cons (separator : Char) (fallback : Position) (stack : OpenBrackets) (token : Token)
    (tokens : List Token) : closeFrom fallback stack (token :: tokens) =
      match token.role separator with
      | .opens bracket =>
        (· + 1) <$> closeFrom fallback ((bracket, token.position) :: stack) tokens
      | .closes bracket => do
          match ← stack.pop bracket token.position with
          | [] => return 0
          | outer => (· + 1) <$> closeFrom fallback outer tokens
      | .separates _ | .word => (· + 1) <$> closeFrom fallback stack tokens := by
  rw [closeFrom, Token.role]
  cases token.single? with
  | none => rfl
  | some c =>
    dsimp only
    cases ofOpening? c with
    | some bracket => rfl
    | none =>
      cases ofClosing? c with
      | some bracket => rfl
      | none =>
        by_cases divides : c = separator ∨ c = ','
        · rw [if_pos divides]
        · rw [if_neg divides]

theorem separatorFrom_cons (stack : OpenBrackets) (token : Token) (tokens : List Token) :
    separatorFrom separator stack (token :: tokens) =
      match token.role separator with
      | .opens bracket => Option.map (· + 1) <$>
          separatorFrom separator ((bracket, token.position) :: stack) tokens
      | .closes bracket => do
          let outer ← stack.pop bracket token.position
          Option.map (· + 1) <$> separatorFrom separator outer tokens
      | .separates c =>
        if c = separator ∧ stack.isEmpty then .ok (some 0)
        else Option.map (· + 1) <$> separatorFrom separator stack tokens
      | .word => Option.map (· + 1) <$> separatorFrom separator stack tokens := by
  rw [separatorFrom, Token.role]
  cases token.single? with
  | none => rfl
  | some c =>
    dsimp only
    cases ofOpening? c with
    | some bracket => rfl
    | none =>
      cases ofClosing? c with
      | some bracket => rfl
      | none =>
        by_cases divides : c = separator ∨ c = ','
        · rw [if_pos divides]
        · rw [if_neg divides, if_neg (fun both => divides (.inl both.1))]

theorem isChar_of_separates {c : Char} (role : token.role separator = .separates c) : token.isChar c = true := by
  unfold Token.role at role
  split at role
  · cases role
  · next d single =>
      split at role
      · cases role
      · split at role
        · cases role
        · split at role
          · cases role
            exact isChar_of_single single
          · cases role

theorem role_opening (separator : Char) (written : bracket.isWritten = true)
    (opens : token.isChar bracket.opening = true) : token.role separator = .opens bracket := by
  have single : token.single? = some bracket.opening := by simpa [isChar] using opens
  have found : ofOpening? bracket.opening = some bracket := by
    cases bracket with
    | line => cases written
    | _ => decide
  rw [Token.role, single]
  dsimp only
  rw [found]

theorem role_closing (written : bracket.isWritten = true) (closes : token.text = String.ofList [bracket.closing]) :
    token.role separator = .closes bracket := by
  have single : token.single? = some bracket.closing := by simp [single?, closes]
  rw [Token.role, single]
  cases bracket with
  | line => cases written
  | paren | brace | square => rfl

theorem role_of_single {e : Char} (single : token.single? = some e) (plain : Bracket.isBracket e = false) :
    token.role separator = if e = separator ∨ e = ',' then .separates e else .word := by
  rw [Bracket.isBracket, Bool.or_eq_false_iff, Option.isSome_eq_false_iff, Option.isSome_eq_false_iff,
    Option.isNone_iff_eq_none, Option.isNone_iff_eq_none] at plain
  rw [Token.role, single]
  dsimp only
  rw [plain.1]
  dsimp only
  rw [plain.2]

end Token

variable {bracket : Bracket} {words : List Token}

namespace Tree

section Roles

variable {separator : Char}

theorem role_separator (plain : Bracket.isBracket separator = false) (isSeparator : token.isChar separator = true) :
    token.role separator = .separates separator := by
  have single : token.single? = some separator := by simpa [isChar] using isSeparator
  rw [role_of_single single plain, if_pos (.inl rfl)]

theorem role_congr {a b : Token} (same : a.text = b.text) : a.role separator = b.role separator := by
  simp only [Token.role, single?, same]

end Roles

/-- The brackets of the words match, and the words are grouped into these members. -/
inductive Collects (separator : Char) : List Token → List Item → Prop where
  | nil : Collects separator [] []
  | word {token : Token} {rest : List Token} {items : List Item} :
      token.role separator = .word → Collects separator rest items →
      Collects separator (token :: rest) (.tree (leaf token) :: items)
  | separator {token : Token} {c : Char} {rest : List Token} {items : List Item} :
      token.role separator = .separates c → Collects separator rest items →
      Collects separator (token :: rest) (.separator token :: items)
  | group {opening closing : Token} {bracket : Bracket} {inside rest : List Token}
      {members items : List Item} {tree : Tree} :
      opening.role separator = .opens bracket → closing.role separator = .closes bracket →
      Collects separator inside members →
      close separator bracket opening.position members = .ok tree →
      Collects separator rest items →
      Collects separator (opening :: (inside ++ closing :: rest)) (.tree tree :: items)

namespace Collects

variable {separator : Char} {tokens others : List Token} {items members : List Item}

theorem append (first : Collects separator tokens items) (second : Collects separator others members) :
    Collects separator (tokens ++ others) (items ++ members) := by
  induction first with
  | nil => exact second
  | word role _ ih => exact .word role ih
  | separator role _ ih => exact .separator role ih
  | group opens closes inside closed _ _ ih =>
    rw [cons_append, append_assoc, cons_append]
    exact .group opens closes inside closed ih

theorem split {front back : List Item} (collects : Collects separator tokens (front ++ back)) :
    ∃ before after, tokens = before ++ after ∧ Collects separator before front ∧ Collects separator after back := by
  induction front generalizing tokens with
  | nil => exact ⟨[], tokens, rfl, .nil, collects⟩
  | cons item front ih =>
    cases collects with
    | word role rest =>
      obtain ⟨before, after, rfl, first, second⟩ := ih rest
      exact ⟨_ :: before, after, rfl, .word role first, second⟩
    | separator role rest =>
      obtain ⟨before, after, rfl, first, second⟩ := ih rest
      exact ⟨_ :: before, after, rfl, .separator role first, second⟩
    | group opens closes inside closed rest =>
      obtain ⟨before, after, rfl, first, second⟩ := ih rest
      exact ⟨_, after, by simp, .group opens closes inside closed first, second⟩

theorem nil_of_nil (collects : Collects separator tokens []) : tokens = [] := by
  cases collects
  rfl

theorem of_leaf (collects : Collects separator tokens (.tree (leaf token) :: items)) :
    ∃ rest, tokens = token :: rest ∧ Collects separator rest items := by
  cases collects with
  | word role rest => exact ⟨_, rfl, rest⟩
  | group opens _ _ closed _ =>
    obtain ⟨_, _, impossible⟩ := close_bracket (text_of_opens opens).2 closed
    cases impossible

theorem of_group {tree : Tree} (isGroup : tree.bracket? = some bracket)
    (collects : Collects separator tokens (.tree tree :: items)) :
    ∃ opening inside closing rest members, tokens = opening :: (inside ++ closing :: rest) ∧
      opening.role separator = .opens bracket ∧ closing.role separator = .closes bracket ∧
      Collects separator inside members ∧ close separator bracket opening.position members = .ok tree ∧
      Collects separator rest items := by
  cases collects with
  | word role rest => cases isGroup
  | group opens closes inside closed rest =>
    obtain ⟨_, _, rfl⟩ := close_bracket (text_of_opens opens).2 closed
    cases isGroup
    exact ⟨_, _, _, _, _, rfl, opens, closes, inside, closed, rest⟩

theorem reshapes (collects : Collects separator tokens items) : Token.Reshapes separator tokens (flat items) := by
  induction collects with
  | nil => exact .refl _
  | word _ _ ih => exact (Token.Reshapes.refl [_]).append ih
  | separator _ _ ih => exact (Token.Reshapes.refl [_]).append ih
  | @group opening closing bracket inside rest members items tree opens closes _ closed _ insideIH
      restIH =>
    obtain ⟨text, written⟩ := text_of_opens opens
    have renamed : Token.Reshapes separator (opening :: (inside ++ [closing]))
        (.ofChar bracket.opening opening.position :: (inside ++ [.ofChar bracket.closing opening.position])) :=
      .of_texts (by simp [ofChar, text, (text_of_closes closes).1])
    have inner (first last : Token) :=
      (Token.Reshapes.refl [first]).append (insideIH.append (.refl [last]))
    simpa [flat_cons, Item.tokens] using
      (renamed.trans ((inner _ _).trans (close_reshapes written closed))).append restIH

theorem solid (collects : Collects separator tokens items) : AllSolid separator items := by
  have word {token : Token} (role : ∀ bracket, token.role separator ≠ .closes bracket)
      (other : token.isChar separator = false) : (leaf token).Solid separator := by
    intro word mem
    rw [mem_singleton.mp mem]
    exact cost_pos_of_role role other
  induction collects with
  | nil => exact forall_mem_nil _
  | word role _ ih => exact ih.cons (fun _ => word (by simp [role]) (isChar_of_word role))
  | separator role _ ih => exact ih.cons (word (by simp [role]))
  | group _ _ _ closed _ insideIH restIH => exact restIH.cons (fun _ => close_solid insideIH closed)

end Collects

/-! ## The pass over the words -/

namespace Pending

variable {separator : Char}

private theorem foldl_add_outside (items top : List Item) : items.foldl add ⟨[], top⟩ = ⟨[], items.reverse ++ top⟩ := by
  induction items generalizing top with
  | nil => rfl
  | cons item items ih =>
    rw [foldl_cons, add, ih]
    simp

theorem foldl_add_inside (items top members : List Item) (bracket : Bracket) (pos : Position)
    (outer : List OpenGroup) : items.foldl add ⟨⟨bracket, pos, members⟩ :: outer, top⟩ =
      ⟨⟨bracket, pos, items.reverse ++ members⟩ :: outer, top⟩ := by
  induction items generalizing members with
  | nil => rfl
  | cons item items ih =>
    rw [foldl_cons, add]
    dsimp only
    rw [ih]
    simp

theorem step_closing (closes : token.role separator = .closes bracket) (pos : Position) (members top : List Item)
    (outer : List OpenGroup) : step separator ⟨⟨bracket, pos, members.reverse⟩ :: outer, top⟩ token =
      (close separator bracket pos members >>= fun tree => .ok (add ⟨outer, top⟩ (.tree tree))) := by
  rw [step, closes]
  dsimp only
  rw [if_neg (not_not_intro rfl), reverse_reverse]
  rfl

theorem steps_of_collects {items : List Item} (collects : Collects separator tokens items) (pending : Pending) :
    tokens.foldlM (step separator) pending = .ok (items.foldl add pending) := by
  induction collects generalizing pending with
  | nil => rfl
  | word role _ ih =>
    rw [foldlM_cons, step, role]
    exact ih _
  | separator role _ ih =>
    rw [foldlM_cons, step, role]
    exact ih _
  | @group opening closing bracket inside rest members items tree opens closes _ closed _ insideIH
      restIH =>
      rw [foldlM_cons, step, opens]
      change foldlM (step separator) _ (inside ++ closing :: rest) = _
      rw [foldlM_append, insideIH, foldl_add_inside, append_nil]
      change foldlM (step separator) _ (closing :: rest) = _
      rw [foldlM_cons, step_closing closes, closed]
      exact restIH _

/-- The words that were taken in so far: those of every open group, and those outside. -/
def Holds (separator : Char) (tokens : List Token) (top : List Item) : List OpenGroup → Prop
  | [] => Collects separator tokens top.reverse
  | inner :: outer => ∃ (before inside : List Token) (opening : Token),
      tokens = before ++ opening :: inside ∧ Holds separator before top outer ∧
        opening.role separator = .opens inner.bracket ∧ opening.position = inner.position ∧
        Collects separator inside inner.members.reverse

private theorem holds_add {item : Item} (pending : Pending) (holds : Holds separator tokens pending.top pending.stack)
    (collects : Collects separator words [item]) :
    Holds separator (tokens ++ words) (pending.add item).top (pending.add item).stack := by
  obtain ⟨stack, top⟩ := pending
  cases stack with
  | nil =>
    simp only [Holds, add, reverse_cons] at holds ⊢
    exact holds.append collects
  | cons inner outer =>
    obtain ⟨before, inside, opening, rfl, outside, opens, pos, members⟩ := holds
    refine ⟨before, inside ++ words, opening, by simp, outside, opens, pos, ?_⟩
    simp only [reverse_cons]
    exact members.append collects

theorem step_holds {pending next : Pending} (holds : Holds separator tokens pending.top pending.stack)
    (stepped : pending.step separator token = .ok next) : Holds separator (tokens ++ [token]) next.top next.stack := by
  unfold step at stepped
  split at stepped
  · next bracket role =>
      cases stepped
      exact ⟨tokens, [], token, rfl, holds, role, rfl, .nil⟩
  · next bracket role =>
      obtain ⟨stack, top⟩ := pending
      cases stack with
      | nil => cases stepped
      | cons inner outer =>
        dsimp only at stepped
        split at stepped
        · cases stepped
        · next same =>
            rcases closed : close separator bracket inner.position inner.members.reverse with
              fault | tree
            · rw [closed] at stepped
              cases stepped
            · rw [closed] at stepped
              cases stepped
              obtain ⟨before, inside, opening, rfl, outside, opens, pos, members⟩ := holds
              rw [Decidable.not_not.mp same] at opens
              rw [append_assoc, cons_append]
              exact holds_add ⟨outer, top⟩ outside (.group opens role members (pos ▸ closed) .nil)
  · next role =>
      cases stepped
      exact holds_add pending holds (.separator role .nil)
  · next role =>
      cases stepped
      exact holds_add pending holds (.word role .nil)

theorem steps_hold (pending : Pending) {last : Pending} (holds : Holds separator tokens pending.top pending.stack)
    (ran : words.foldlM (step separator) pending = .ok last) :
    Holds separator (tokens ++ words) last.top last.stack := by
  induction words generalizing tokens pending with
  | nil =>
    cases ran
    rwa [append_nil]
  | cons token words ih =>
    rw [foldlM_cons] at ran
    rcases stepped : step separator pending token with fault | next
    · rw [stepped] at ran
      cases ran
    · rw [stepped] at ran
      rw [append_cons]
      exact ih next (step_holds holds stepped) ran

end Pending

theorem collect_eq_ok_iff {separator : Char} {items : List Item} :
    collect separator tokens = .ok items ↔ Collects separator tokens items := by
  constructor
  · intro collected
    unfold collect at collected
    rcases ran : tokens.foldlM (Pending.step separator) {} with fault | last
    · rw [ran] at collected
      cases collected
    · rw [ran] at collected
      have holds := Pending.steps_hold {} (show Pending.Holds separator [] [] [] from .nil) ran
      obtain ⟨stack, top⟩ := last
      cases stack with
      | nil =>
        cases collected
        exact holds
      | cons inner outer => cases collected
  · intro collects
    rw [collect, Pending.steps_of_collects collects, Pending.foldl_add_outside, append_nil]
    exact congrArg Except.ok (reverse_reverse items)

end Tree

theorem Layout.block_eq_ok_iff {layout : Layout} {tree : Tree} : layout.block tokens = .ok tree ↔
      Tree.Collects layout.separator tokens [.tree tree] ∧ tree.isGroup = true := by
  rw [block, ← Tree.collect_eq_ok_iff]
  cases Tree.collect layout.separator tokens with
  | error fault => exact ⟨by rintro ⟨⟩, by rintro ⟨⟨⟩, _⟩⟩
  | ok items =>
    -- The only item there can be is a group.
    rcases items with _ | ⟨other | token, _ | _⟩
    · exact ⟨by rintro ⟨⟩, by rintro ⟨⟨⟩, _⟩⟩
    · change (if other.isGroup = true then pure other else throw _ : Except Fault Tree) =
        .ok tree ↔ _
      split
      · next isGroup =>
        exact ⟨by rintro ⟨⟩; exact ⟨rfl, isGroup⟩, by rintro ⟨⟨⟩, _⟩; rfl⟩
      · next isLeaf =>
        exact ⟨by rintro ⟨⟩, by rintro ⟨⟨⟩, isGroup⟩; exact absurd isGroup isLeaf⟩
    all_goals exact ⟨by rintro ⟨⟩, by rintro ⟨⟨⟩, _⟩⟩

/-! ## Ends -/

namespace Token

variable {separator : Char}

private theorem map_add_map_add (m n : Nat) (outcome : Except Fault Nat) :
    (· + n) <$> ((· + m) <$> outcome) = (· + (m + n)) <$> outcome := by
  cases outcome with
  | error fault => rfl
  | ok count => exact congrArg Except.ok (Nat.add_assoc ..)

variable {stack : OpenBrackets}

private theorem closeFrom_append (fallback : Position) {items : List Tree.Item}
    (collects : Tree.Collects separator tokens items) (opened : stack ≠ []) (after : List Token) :
    closeFrom fallback stack (tokens ++ after) = (· + tokens.length) <$> closeFrom fallback stack after := by
  induction collects generalizing stack after with
  | nil =>
    rw [nil_append]
    cases closeFrom fallback stack after <;> rfl
  | word role _ ih | separator role _ ih =>
    rw [cons_append, closeFrom_cons separator, role]
    dsimp only
    rw [ih opened after, map_add_map_add, length_cons]
  | @group opening closing bracket inside rest members items tree opens closes _ _ _ insideIH
      restIH =>
      have outer : closeFrom fallback ((bracket, opening.position) :: stack)
          (closing :: (rest ++ after)) = (· + 1) <$> closeFrom fallback stack (rest ++ after) := by
        rw [closeFrom_cons separator, closes]
        simp only [OpenBrackets.pop, if_pos]
        cases stack with
        | nil => exact absurd rfl opened
        | cons next others => rfl
      rw [cons_append, append_assoc, cons_append, closeFrom_cons separator, opens]
      dsimp only
      rw [insideIH (cons_ne_nil _ _), outer, restIH opened, map_add_map_add, map_add_map_add, map_add_map_add]
      congr 2
      simp only [length_cons, length_append]
      funext count
      omega

theorem matchingClose_eq {opening closing : Token} {inside rest : List Token} {members : List Tree.Item}
    (opens : opening.role separator = .opens bracket) (closes : closing.role separator = .closes bracket)
    (collects : Tree.Collects separator inside members) :
    matchingClose (opening :: (inside ++ closing :: rest)) = .ok (inside.length + 1) := by
  rw [matchingClose, closeFrom_cons separator, opens]
  dsimp only
  rw [closeFrom_append _ collects (cons_ne_nil _ _), closeFrom_cons separator, closes]
  simp only [OpenBrackets.pop, if_pos]
  exact congrArg Except.ok (by simp)

private theorem map_map_add (m n : Nat) (outcome : Except Fault (Option Nat)) :
    Option.map (· + n) <$> (Option.map (· + m) <$> outcome) = Option.map (· + (m + n)) <$> outcome := by
  rcases outcome with fault | _ | count
  · rfl
  · rfl
  · exact congrArg (fun total => Except.ok (some total)) (Nat.add_assoc ..)

/-- The end of a statement is not inside words whose brackets match, unless a separator is a member
of theirs. -/
theorem separatorFrom_append {items : List Tree.Item} (collects : Tree.Collects separator tokens items)
    (plain : stack ≠ [] ∨ ∀ item ∈ items, item.isSeparator separator = false) (after : List Token) :
    separatorFrom separator stack (tokens ++ after) =
      Option.map (· + tokens.length) <$> separatorFrom separator stack after := by
  induction collects generalizing stack after with
  | nil =>
    rw [nil_append]
    rcases separatorFrom separator stack after with fault | _ | count <;> rfl
  | word role _ ih =>
    have later := plain.imp_right (fun all item mem => all item (mem_cons_of_mem _ mem))
    rw [cons_append, separatorFrom_cons, role]
    dsimp only
    rw [ih later after, map_map_add, length_cons]
  | @separator token c rest items role _ ih =>
    have later := plain.imp_right (fun all item mem => all item (mem_cons_of_mem _ mem))
    have goesOn : ¬ (c = separator ∧ stack.isEmpty = true) := by
      rintro ⟨rfl, empty⟩
      rcases plain with opened | all
      · exact opened (isEmpty_iff.mp empty)
      · have isSeparator := all _ (mem_cons_self ..)
        rw [Tree.Item.isSeparator, isChar_of_separates role] at isSeparator
        cases isSeparator
    rw [cons_append, separatorFrom_cons, role]
    dsimp only
    rw [if_neg goesOn, ih later after, map_map_add, length_cons]
  | @group opening closing bracket inside rest members items tree opens closes _ _ _ insideIH
      restIH =>
      have later := plain.imp_right (fun all item mem => all item (mem_cons_of_mem _ mem))
      have outer : separatorFrom separator ((bracket, opening.position) :: stack)
          (closing :: (rest ++ after)) = Option.map (· + 1) <$> separatorFrom separator stack (rest ++ after) := by
        rw [separatorFrom_cons, closes]
        simp only [OpenBrackets.pop, if_pos]
        rfl
      rw [cons_append, append_assoc, cons_append, separatorFrom_cons, opens]
      dsimp only
      rw [insideIH (.inl (cons_ne_nil _ _)), outer, restIH later, map_map_add, map_map_add, map_map_add]
      congr 3
      simp only [length_cons, length_append]
      funext count
      omega

/-- From inside brackets, the end of a statement is looked for behind what closes them all. -/
private theorem separatorFrom_eq_closeFrom (fallback : Position) (opened : stack ≠ []) (tokens : List Token) :
    separatorFrom separator stack tokens = closeFrom fallback stack tokens >>= fun n =>
      Option.map (· + (n + 1)) <$> separatorFrom separator [] (tokens.drop (n + 1)) := by
  induction tokens generalizing stack with
  | nil =>
    cases stack with
    | nil => exact absurd rfl opened
    | cons entry outer => rfl
  | cons token tokens ih =>
    have later {stack : OpenBrackets} (opened : stack ≠ []) :
        Option.map (· + 1) <$> separatorFrom separator stack tokens =
          ((· + 1) <$> closeFrom fallback stack tokens) >>= fun n =>
          Option.map (· + (n + 1)) <$> separatorFrom separator [] ((token :: tokens).drop (n + 1)) := by
      rw [ih opened]
      cases closeFrom fallback stack tokens with
      | error fault => rfl
      | ok n => exact map_map_add (n + 1) 1 _
    rw [closeFrom_cons separator, separatorFrom_cons]
    cases token.role separator with
    | opens bracket => exact later (cons_ne_nil _ _)
    | closes bracket =>
      dsimp only
      cases stack.pop bracket token.position with
      | error fault => rfl
      | ok outer =>
        cases outer with
        | nil => rfl
        | cons entry outer => exact later (cons_ne_nil _ _)
    | separates c =>
      dsimp only
      rw [if_neg (fun both => opened (isEmpty_iff.mp both.2))]
      exact later opened
    | word => exact later opened

/-- The end of a statement is found word by word, where a bracket is passed over as a whole: the one pass
with a stack goes on behind what closes the bracket. -/
theorem statementEnd_cons (token : Token) (tokens : List Token) :
    statementEnd separator (token :: tokens) =
      match token.role separator with
      | .opens _ => do
          let n ← matchingClose (token :: tokens)
          Option.map (· + (n + 1)) <$> statementEnd separator ((token :: tokens).drop (n + 1))
      | .closes bracket => .error ⟨.strayClose bracket.closing, token.position⟩
      | .separates c => if c = separator then .ok (some 0) else Option.map (· + 1) <$> statementEnd separator tokens
      | .word => Option.map (· + 1) <$> statementEnd separator tokens := by
  rw [statementEnd, separatorFrom_cons, matchingClose, closeFrom_cons separator]
  cases token.role separator with
  | opens bracket =>
    dsimp only
    rw [separatorFrom_eq_closeFrom token.position (cons_ne_nil _ _)]
    cases closeFrom token.position [(bracket, token.position)] tokens with
    | error fault => rfl
    | ok n => exact map_map_add (n + 1) 1 _
  | closes bracket => rfl
  | separates c =>
    dsimp only
    by_cases isSeparator : c = separator
    · rw [if_pos ⟨isSeparator, rfl⟩, if_pos isSeparator]
    · rw [if_neg (fun both => isSeparator both.1), if_neg isSeparator]
      rfl
  | word => rfl

private theorem pop_blameless (stack : OpenBrackets) (bracket : Bracket) {pos : Position} :
    Blameless (stack.pop bracket pos) := by
  unfold OpenBrackets.pop
  split
  · exact .error nofun
  · split
    · exact .ok _
    · exact .error nofun

theorem closeFrom_blameless {fallback : Position} (stack : OpenBrackets) (tokens : List Token) :
    Blameless (closeFrom fallback stack tokens) := by
  induction tokens generalizing stack with
  | nil => cases stack <;> exact .error nofun
  | cons token tokens ih =>
    have later (stack : OpenBrackets) :
        Blameless ((· + 1) <$> closeFrom fallback stack tokens) :=
      .bind (ih stack) (fun _ _ => .ok _)
    rw [closeFrom_cons ';']
    split
    · exact later _
    · refine .bind (pop_blameless _ _) ?_
      intro outer _
      split
      · exact .ok _
      · exact later _
    · exact later _
    · exact later _

theorem separatorFrom_blameless (stack : OpenBrackets) (tokens : List Token) :
    Blameless (separatorFrom separator stack tokens) := by
  induction tokens generalizing stack with
  | nil =>
    cases stack with
    | nil => exact .ok _
    | cons inner outer => exact .error nofun
  | cons token tokens ih =>
    have later (stack : OpenBrackets) :
        Blameless (Option.map (· + 1) <$> separatorFrom separator stack tokens) :=
      .bind (ih stack) (fun _ _ => .ok _)
    rw [separatorFrom]
    split
    · exact later _
    · split
      · exact later _
      · exact .bind (pop_blameless _ _) (fun _ _ => later _)
      · split
        · exact .ok _
        · exact later _

theorem separator_of_separatorFrom {n : Nat} (found : separatorFrom separator stack tokens = .ok (some n)) :
    ∃ token rest, tokens.drop n = token :: rest ∧ token.role separator = .separates separator := by
  induction tokens generalizing stack n with
  | nil => cases stack <;> cases found
  | cons token tokens ih =>
    have later (stack : OpenBrackets)
        (found : Option.map (· + 1) <$> separatorFrom separator stack tokens = .ok (some n)) :
        ∃ stop rest, (token :: tokens).drop n = stop :: rest ∧ stop.role separator = .separates separator := by
      rcases result : separatorFrom separator stack tokens with fault | ⟨_ | k⟩
      · rw [result] at found
        cases found
      · rw [result] at found
        cases found
      · rw [result] at found
        cases found
        exact ih result
    rw [separatorFrom_cons] at found
    rcases role : token.role separator with bracket | bracket | c | _
    · rw [role] at found
      exact later _ found
    · rw [role] at found
      rcases popped : stack.pop bracket token.position with fault | outer
      · simp only [popped] at found
        cases found
      · simp only [popped] at found
        exact later _ found
    · rw [role] at found
      dsimp only at found
      split at found
      · next stops =>
          cases found
          exact ⟨token, tokens, rfl, stops.1 ▸ role⟩
      · exact later _ found
    · rw [role] at found
      exact later _ found

end Token

/-- The words up to the bracket that closes the first one are one group. -/
theorem Layout.block_closes {layout : Layout} (written : bracket.isWritten = true) {n : Nat}
    (opens : token.isChar bracket.opening = true) (found : Token.matchingClose (token :: words) = .ok n) :
    Blameless (layout.block ((token :: words).take (n + 1))) ∧
      ∀ tree, layout.block ((token :: words).take (n + 1)) = .ok tree → tree.bracket? = some bracket := by
  have role := Token.role_opening layout.separator written opens
  have whole := take_append_drop (n + 1) (token :: words)
  have short := length_take_le (n + 1) (token :: words)
  rw [take_succ_cons] at whole short ⊢
  have grouped {items : List Tree.Item} (collects : Tree.Collects layout.separator (token :: words.take n) items) :
      ∃ tree, items = [.tree tree] ∧ tree.bracket? = some bracket ∧ tree.isGroup = true := by
    generalize isFront : token :: words.take n = front at collects whole short
    cases collects with
    | nil => cases isFront
    | word other | separator other =>
      cases (cons.inj isFront).1
      rw [role] at other
      cases other
    | @group opening closing bracket' inside rest members items tree opens' closes inner closed later =>
      cases (cons.inj isFront).1
      rw [role] at opens'
      cases opens'
      obtain ⟨_, _, rfl⟩ := Tree.close_bracket written closed
      rw [← whole, cons_append, append_assoc, cons_append,
        Token.matchingClose_eq role closes inner] at found
      cases found
      rw [length_cons, length_append, length_cons] at short
      cases length_eq_zero_iff.mp (show rest.length = 0 by omega)
      cases later
      exact ⟨_, rfl, rfl, rfl⟩
  constructor
  · cases collected : Tree.collect layout.separator (token :: words.take n) with
    | error fault =>
      have blameless := Tree.collect_blameless layout.separator (token :: words.take n)
      rw [collected] at blameless
      rw [block, collected]
      exact blameless.bind (fun _ impossible => nomatch impossible)
    | ok items =>
      have collects := Tree.collect_eq_ok_iff.mp collected
      obtain ⟨tree, rfl, _, isGroup⟩ := grouped collects
      rw [block_eq_ok_iff.mpr ⟨collects, isGroup⟩]
      exact .ok _
  · intro tree isTree
    obtain ⟨_, ⟨⟩, bracketed, _⟩ := grouped (block_eq_ok_iff.mp isTree).1
    exact bracketed

end ScoreScript
