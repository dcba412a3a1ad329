import ScoreScript.Proofs.Positions.Outcomes
import ScoreScript.Proofs.Reading.Exchange
import ScoreScript.Proofs.Reading.Nesting

/-!
# Reading looks at texts only

Words with the same texts, up to an exchange of the separators, are matched, grouped and read in the same
way: the same statements up to positions come out, or the same cause of a fault.
-/

namespace ScoreScript

open List

open Coincide

variable {place : Position → Position → Prop} {p q : Position} {c d : Char} {tokens others : List Token}

/-! ## Ends of groups and statements -/

namespace Token

def Same (place : Position → Position → Prop) (a b : Token) : Prop :=
  a.text = b.text ∧ place a.position b.position

abbrev Sames (place : Position → Position → Prop) (tokens others : List Token) : Prop :=
  List.Forall₂ (Same place) tokens others

theorem Sames.refl (stays : ∀ p, place p p) (tokens : List Token) : Sames place tokens tokens :=
  forall₂_same.mpr (fun _ _ => ⟨rfl, stays _⟩)

theorem sames_anywhere_iff : Sames Tree.Anywhere tokens others ↔ tokens.map text = others.map text := by
  induction tokens generalizing others with
  | nil => cases others <;> simp
  | cons token tokens ih =>
    cases others with
    | nil => simp
    | cons other others => simp [ih, Same]

/-- The words have the same texts, once the separators are exchanged. -/
structure Like (place : Position → Position → Prop) (c d : Char) (a b : Token) : Prop where
  text : (a.exchange c d).text = b.text
  placed : place a.position b.position

abbrev Likes (place : Position → Position → Prop) (c d : Char) (tokens others : List Token) : Prop :=
  List.Forall₂ (Like place c d) tokens others

namespace Like

variable {a b : Token}

theorem same (like : Like place c d a b) : (a.exchange c d).Same place b :=
  ⟨like.text, (position_exchange c d a).symm ▸ like.placed⟩

theorem role (fit : Exchangeable c d) (like : Like place c d a b) : b.role d = (a.role c).exchange c d := by
  rw [← Tree.role_congr like.text, role_exchange fit]

theorem isSeparator (like : Like place c d a b) : b.isChar d = a.isChar c := by
  rw [← isChar_congr like.text, isChar_exchange_separator]

theorem isSpecial (fit : Exchangeable c d) (like : Like place c d a b) {e : Char}
    (special : Bracket.isBracket e = true ∨ e = ',') : b.isChar e = a.isChar e := by
  rw [← isChar_congr like.text, isChar_exchange_kept fit special]

theorem isText (like : Like place c d a b) {word : String} (long : word.toList.length ≠ 1) :
    (b.text == word) = (a.text == word) := by
  rw [Bool.eq_iff_iff, beq_iff_eq, beq_iff_eq, ← like.text, text_exchange long]

end Like

abbrev SameBrackets (place : Position → Position → Prop) (stack others : OpenBrackets) : Prop :=
  List.Forall₂ (fun a b => a.1 = b.1 ∧ place a.2 b.2) stack others

variable {stack stack' : OpenBrackets}

theorem pop_concur (same : SameBrackets place stack stack') (bracket : Bracket) (placed : place p q) :
    Concur place (SameBrackets place) (stack.pop bracket p) (stack'.pop bracket q) := by
  cases same with
  | nil => exact .fail _ placed
  | cons head tail =>
    simp only [OpenBrackets.pop, head.1]
    split
    · exact .ok tail
    · exact .fail _ placed

section

variable (fit : Exchangeable c d) (words : Likes place c d tokens others)
include fit words

theorem closeFrom_concur (same : SameBrackets place stack stack') (placed : place p q) :
    Concur place Eq (closeFrom p stack tokens) (closeFrom q stack' others) := by
  induction words generalizing stack stack' with
  | nil =>
    cases same with
    | nil => exact .fail _ placed
    | cons head =>
      rw [closeFrom, closeFrom, head.1]
      exact .fail _ head.2
  | @cons token other tokens others first _ ih =>
    have later {stack stack' : OpenBrackets} (same : SameBrackets place stack stack') :
        Concur place Eq ((· + 1) <$> closeFrom p stack tokens)
          ((· + 1) <$> closeFrom q stack' others) :=
      (ih same).map (fun _ _ => congrArg (· + 1))
    rw [closeFrom_cons c, closeFrom_cons d, first.role fit]
    cases token.role c with
    | opens bracket => exact later (.cons ⟨rfl, first.placed⟩ same)
    | closes bracket =>
      apply (pop_concur same bracket first.placed).bind
      intro outer outer' same
      cases same with
      | nil => exact .ok rfl
      | cons head tail => exact later (.cons head tail)
    | separates => exact later same
    | word => exact later same

theorem matchingClose_concur (nonempty : tokens ≠ []) :
    Concur place Eq (matchingClose tokens) (matchingClose others) := by
  cases words with
  | nil => exact absurd rfl nonempty
  | cons first rest => exact closeFrom_concur fit (.cons first rest) .nil first.placed

theorem separatorFrom_concur (same : SameBrackets place stack stack') :
    Concur place Eq (separatorFrom c stack tokens) (separatorFrom d stack' others) := by
  induction words generalizing stack stack' with
  | nil =>
    cases same with
    | nil => exact .ok rfl
    | cons head =>
      rw [separatorFrom, separatorFrom, head.1]
      exact .fail _ head.2
  | @cons token other tokens others first _ ih =>
    have later {stack stack' : OpenBrackets} (same : SameBrackets place stack stack') :
        Concur place Eq (Option.map (· + 1) <$> separatorFrom c stack tokens)
          (Option.map (· + 1) <$> separatorFrom d stack' others) :=
      (ih same).map (fun _ _ => congrArg _)
    rw [separatorFrom_cons, separatorFrom_cons, first.role fit]
    cases token.role c with
    | opens bracket => exact later (.cons ⟨rfl, first.placed⟩ same)
    | closes bracket => exact (pop_concur same bracket first.placed).bind (fun _ _ => later)
    | separates e =>
      have empty : stack.isEmpty = stack'.isEmpty := by cases same <;> rfl
      have ends : Equiv.swap c d e = d ↔ e = c := by rw [Equiv.swap_apply_eq_iff, Equiv.swap_apply_right]
      simp only [Role.exchange, empty, ends]
      split
      · exact .ok rfl
      · exact later same
    | word => exact later same

end

end Token

/-! ## Grouping -/

namespace Tree

/-- The trees differ in positions only, once the separators are exchanged. -/
abbrev Like (place : Position → Position → Prop) (c d : Char) (a b : Tree) : Prop :=
  Same place (a.exchange c d) b

theorem ofChildren_like {as bs : List Tree} (like : List.Forall₂ (Like place c d) as bs) (bracket : Bracket)
    (divider : Divider) (placed : place p q) :
    Like place c d (ofChildren as bracket divider p) (ofChildren bs bracket (divider.replace c d) q) := by
  rw [Like, ← ofChildren_exchange]
  exact ofChildren_same (forall₂_map_left_iff.mpr like) _ _ placed

section Grouping

inductive Item.Like (place : Position → Position → Prop) (c d : Char) : Item → Item → Prop where
  | tree {a b : Tree} (like : Tree.Like place c d a b) : Item.Like place c d (tree a) (tree b)
  | separator {a b : Token} (like : a.Like place c d b) : Item.Like place c d (separator a) (separator b)

namespace Item.Like

variable {a b : Item} (like : Item.Like place c d a b)
include like

theorem toTree : Tree.Like place c d a.toTree b.toTree := by
  cases like with
  | tree like => exact like
  | separator like => exact .leaf like.same.1 like.same.2

theorem isSeparator : a.isSeparator c = b.isSeparator d := by
  cases like with
  | tree => rfl
  | separator like => exact like.isSeparator.symm

theorem isComma (fit : Exchangeable c d) : a.isSeparator ',' = b.isSeparator ',' := by
  cases like with
  | tree => rfl
  | separator like => exact (like.isSpecial fit (.inr rfl)).symm

end Item.Like

variable {items others : List Item}

theorem close_concur (fit : Exchangeable c d) (like : List.Forall₂ (Item.Like place c d) items others)
    (bracket : Bracket) (placed : place p q) :
    Concur place (Like place c d) (close c bracket p items) (close d bracket q others) := by
  rcases close_related Item.Like.isSeparator (fun like => like.isComma fit) Item.Like.toTree
      (fun bracket divider like => ofChildren_like like bracket divider placed) like bracket with
    ⟨tree, other, closed, closed', like⟩ | ⟨failed, failed'⟩
  · rw [closed, closed']
    exact .ok like
  · rw [failed, failed']
    exact .fail _ placed

namespace Pending

def LikeGroup (place : Position → Position → Prop) (c d : Char) (a b : OpenGroup) : Prop :=
  a.bracket = b.bracket ∧ place a.position b.position ∧ List.Forall₂ (Item.Like place c d) a.members b.members

structure Like (place : Position → Position → Prop) (c d : Char) (a b : Pending) : Prop where
  stack : List.Forall₂ (LikeGroup place c d) a.stack b.stack
  top : List.Forall₂ (Item.Like place c d) a.top b.top

theorem Like.add {a b : Pending} (like : Like place c d a b) {item other : Item}
    (new : item.Like place c d other) : Like place c d (a.add item) (b.add other) := by
  obtain ⟨stack, top⟩ := a
  obtain ⟨stack', top'⟩ := b
  cases like.stack with
  | nil => exact ⟨.nil, .cons new like.top⟩
  | cons inner outer => exact ⟨.cons ⟨inner.1, inner.2.1, .cons new inner.2.2⟩ outer, like.top⟩

theorem step_concur (fit : Exchangeable c d) {a b : Pending} (like : Like place c d a b) {token other : Token}
    (word : token.Like place c d other) : Concur place (Like place c d) (a.step c token) (b.step d other) := by
  unfold step
  rw [word.role fit]
  cases token.role c with
  | opens bracket => exact .ok ⟨.cons ⟨rfl, word.placed, .nil⟩ like.stack, like.top⟩
  | closes bracket =>
    obtain ⟨stack, top⟩ := a
    obtain ⟨stack', top'⟩ := b
    cases like.stack with
    | nil => exact .fail _ word.placed
    | @cons inner inner' outer outer' first rest =>
      dsimp only [Role.exchange]
      rw [first.1]
      split
      · exact .fail _ word.placed
      · have members := (forall₂_reverse_iff).mpr first.2.2
        apply (close_concur fit members bracket first.2.1).bind
        intro tree tree' shape
        have outside : Like place c d ⟨outer, top⟩ ⟨outer', top'⟩ := ⟨rest, like.top⟩
        exact .ok (outside.add (.tree shape))
  | separates => exact .ok (like.add (.separator word))
  | word => exact .ok (like.add (.tree (.leaf word.same.1 word.same.2)))

theorem steps_concur (fit : Exchangeable c d) {tokens others : List Token}
    (words : Token.Likes place c d tokens others) {a b : Pending} (like : Like place c d a b) :
    Concur place (Like place c d) (tokens.foldlM (step c) a) (others.foldlM (step d) b) := by
  induction words generalizing a b with
  | nil => exact .ok like
  | cons word _ ih =>
    rw [foldlM_cons, foldlM_cons]
    exact (step_concur fit like word).bind (fun _ _ => ih)

theorem finish_concur {a b : Pending} (like : Like place c d a b) :
    Concur place (List.Forall₂ (Item.Like place c d)) a.finish b.finish := by
  obtain ⟨stack, top⟩ := a
  obtain ⟨stack', top'⟩ := b
  cases like.stack with
  | nil => exact .ok ((forall₂_reverse_iff).mpr like.top)
  | cons inner outer =>
    simp only [finish, inner.1]
    exact .fail _ inner.2.1

end Pending

theorem collect_concur (fit : Exchangeable c d) {tokens others : List Token}
    (words : Token.Likes place c d tokens others) :
    Concur place (List.Forall₂ (Item.Like place c d)) (collect c tokens) (collect d others) :=
  (Pending.steps_concur fit words ⟨.nil, .nil⟩).bind (fun _ _ => Pending.finish_concur)

end Grouping

/-! ## Words and texts of trees -/

variable {a b : Tree}

theorem Same.isGroup (same : Same place a b) : a.isGroup = b.isGroup := by
  cases same <;> rfl

theorem Same.word? (same : Same place a b) : a.word? = b.word? := by
  cases same with
  | leaf text => exact congrArg some text
  | group => rfl

theorem Same.isWord (same : Same place a b) (text : String) : a.isWord text = b.isWord text := by
  rw [Tree.isWord, same.word?, Tree.isWord]

theorem Same.items (same : Same place a b) : Sames place a.items b.items := by
  cases same with
  | leaf text placed => exact .cons (.leaf text placed) .nil
  | group inner bracket divider placed =>
    cases bracket with
    | line => exact inner
    | paren | brace | square => exact .cons (.group inner _ _ placed) .nil

mutual

theorem Same.render {a b : Tree} (same : Same place a b) : a.render = b.render := by
  match a, b, same with
  | leaf _, leaf _, .leaf text _ => rw [Tree.render, Tree.render, text]
  | group _ _ _ _, group _ _ _ _, .group inner _ _ _ =>
    rw [Tree.render, Tree.render, Sames.renderList inner]

theorem Sames.renderList {trees others : List Tree} (same : Sames place trees others) :
    renderList trees = renderList others := by
  match trees, others, same with
  | [], [], .nil => rfl
  | _ :: _, _ :: _, .cons head tail =>
    rw [Tree.renderList, Tree.renderList, Same.render head, Sames.renderList tail]

end

theorem innerTokens_comma (pos : Position) (tree next : Tree) (trees : List Tree) :
    innerTokens .comma pos (tree :: next :: trees) =
      tree.tokens ++ .ofChar ',' pos :: innerTokens .comma pos (next :: trees) := by
  rw [innerTokens]

mutual

theorem Same.tokens {a b : Tree} (same : Same place a b) : Token.Sames place a.tokens b.tokens := by
  match a, b, same with
  | leaf _, leaf _, .leaf text placed =>
    rw [Tree.tokens, Tree.tokens]
    exact .cons ⟨text, placed⟩ .nil
  | group _ bracket divider _, group _ _ _ _, .group inner _ _ placed =>
    have inside := Sames.innerTokens divider inner placed
    rw [Tree.tokens, Tree.tokens]
    split
    · exact .cons ⟨rfl, placed⟩ (rel_append inside (.cons ⟨rfl, placed⟩ .nil))
    · exact inside

theorem Sames.innerTokens (divider : Divider) {trees others : List Tree}
    (same : Sames place trees others) {p q : Position} (placed : place p q) :
    Token.Sames place (innerTokens divider p trees) (innerTokens divider q others) := by
  match trees, others, same with
  | [], [], .nil => exact .nil
  | _ :: trees, _ :: others, .cons head tail =>
    have first := Same.tokens head
    have rest := Sames.innerTokens divider tail placed
    cases divider with
    | space =>
      rw [Tree.innerTokens, Tree.innerTokens]
      exact rel_append first rest
    | statement c =>
      rw [Tree.innerTokens, Tree.innerTokens]
      exact rel_append first (.cons ⟨rfl, head.position⟩ rest)
    | comma =>
      cases tail with
      | nil => simpa [Tree.innerTokens] using first
      | cons =>
        rw [innerTokens_comma, innerTokens_comma]
        exact rel_append first (.cons ⟨rfl, placed⟩ rest)

end

theorem Same.shown (same : Same place a b) : a.shown = b.shown := by
  rw [Tree.shown, same.render, Tree.shown]

theorem Same.bodyTokens (same : Same place a b) : Token.Sames place (Engine.bodyTokens a) (Engine.bodyTokens b) := by
  have whole : a.tokensOnto [] = a.tokens ∧ b.tokensOnto [] = b.tokens := by
    simp [tokensOnto_eq]
  have words := same.tokens
  cases same with
  | leaf => simpa only [Engine.bodyTokens, whole.1, whole.2] using words
  | group inner bracket divider placed =>
    cases bracket with
    | brace =>
      simp only [bodyTokens_group]
      exact Sames.innerTokens divider inner placed
    | line | paren | square => simpa only [Engine.bodyTokens, whole.1, whole.2] using words

end Tree

namespace Layout

/-- The layouts have the same separator, and their sources start at related positions. -/
structure Same (place : Position → Position → Prop) (layout layout' : Layout) : Prop where
  separator : layout.separator = layout'.separator
  origin : place (.start layout.source) (.start layout'.source)

/-- The layouts have these separators, and their sources start at related positions. -/
structure Like (place : Position → Position → Prop) (c d : Char) (layout layout' : Layout) : Prop where
  separator : layout.separator = c
  separator' : layout'.separator = d
  origin : place (.start layout.source) (.start layout'.source)

variable {layout layout' : Layout}

theorem Like.startOf (like : Like place c d layout layout') (words : Token.Likes place c d tokens others) :
    place (layout.startOf tokens) (layout'.startOf others) := by
  cases words with
  | nil => exact like.origin
  | cons word => exact word.placed

theorem block_concur (fit : Exchangeable c d) (like : Like place c d layout layout')
    (words : Token.Likes place c d tokens others) :
    Concur place (Tree.Like place c d) (layout.block tokens) (layout'.block others) := by
  have placed := like.startOf words
  unfold block
  rw [like.separator, like.separator']
  apply (Tree.collect_concur fit words).bind
  intro items items' alike
  cases alike with
  | nil => exact .fail _ placed
  | @cons item _ _ _ first rest =>
    cases item with
    | separator =>
      cases first
      exact .fail _ placed
    | tree tree =>
      cases first with
      | @tree _ tree' first =>
        cases rest with
        | cons => exact .fail _ placed
        | nil =>
          dsimp only
          rw [← first.isGroup, Tree.isGroup_exchange]
          split
          · exact .ok first
          · exact .fail _ placed

theorem line_concur (fit : Exchangeable c d) (like : Like place c d layout layout')
    (words : Token.Likes place c d tokens others) :
    Concur place (Tree.Like place c d) (layout.line tokens) (layout'.line others) := by
  have placed := like.startOf words
  unfold line
  rw [like.separator, like.separator']
  apply (Tree.collect_concur fit words).bind
  intro items items' alike
  exact .ok (Tree.ofChildren_like (Tree.toTrees_related Tree.Item.Like.toTree alike) _ .space placed)

end Layout

/-! ## Statements -/

namespace Reader

/-- The readers have the same words before them, once the separators are exchanged. -/
structure Like (place : Position → Position → Prop) (c d : Char) (a b : Reader) : Prop where
  layout : a.layout.Like place c d b.layout
  rest : Token.Likes place c d a.rest b.rest
  finish : place a.finish b.finish

/-- The reads take the same words, and give results that are related. -/
abbrev Alike (place : Position → Position → Prop) (c d : Char) {α β : Type} (rel : α → β → Prop)
    (step : Read α) (step' : Read β) : Prop :=
  Coincide place (Like place c d) rel step step'

variable {a b : Reader}

theorem Like.atEnd (like : Like place c d a b) : a.atEnd = b.atEnd := by
  have rest := like.rest
  unfold Reader.atEnd
  generalize a.rest = words at rest
  generalize b.rest = words' at rest
  cases rest <;> rfl

theorem Like.peekIsChar (like : Like place c d a b) {e e' : Char}
    (same : ∀ {token other : Token}, token.Like place c d other → other.isChar e' = token.isChar e) :
    a.peekIsChar e = b.peekIsChar e' := by
  have rest := like.rest
  unfold Reader.peekIsChar
  generalize a.rest = words at rest
  generalize b.rest = words' at rest
  cases rest with
  | nil => rfl
  | cons word _ => exact (same word).symm

theorem Like.peekIsBracket (fit : Exchangeable c d) (like : Like place c d a b) {e : Char}
    (bracket : Bracket.isBracket e = true) : a.peekIsChar e = b.peekIsChar e :=
  like.peekIsChar (fun word => word.isSpecial fit (.inl bracket))

theorem Like.peekKeyword (like : Like place c d a b) : a.peekKeyword = b.peekKeyword := by
  have rest := like.rest
  unfold Reader.peekKeyword
  generalize a.rest = words at rest
  generalize b.rest = words' at rest
  cases rest with
  | nil => rfl
  | cons word _ => exact (word.isText (by decide)).symm

theorem Like.position (like : Like place c d a b) : place a.position b.position := by
  have rest := like.rest
  unfold Reader.position
  generalize a.rest = words at rest
  generalize b.rest = words' at rest
  cases rest with
  | nil => exact like.finish
  | cons word _ => exact word.placed

theorem Like.withRest (like : Like place c d a b) (rest : Token.Likes place c d tokens others) :
    Like place c d { a with rest := tokens } { b with rest := others } :=
  { like with rest }

theorem advance_alike : Alike place c d (Option.Rel (Token.Like place c d)) advance advance := by
  intro a b like
  obtain ⟨layout, words, finish⟩ := a
  obtain ⟨layout', words', finish'⟩ := b
  cases like.rest with
  | nil => exact ⟨.ok .none, like⟩
  | cons word rest => exact ⟨.ok (.some word), like.withRest rest⟩

theorem fail_alike {α β : Type} {rel : α → β → Prop} (cause : Cause) :
    Alike place c d rel (do throw ⟨cause, (← get).position⟩) (do throw ⟨cause, (← get).position⟩) :=
  .get_bind (fun _ _ like => .throw _ like.position)

theorem skipSeparators_alike : Alike place c d Eq skipSeparators skipSeparators := by
  apply Coincide.change
  intro a b like
  refine like.withRest ?_
  have rest := like.rest
  rw [like.layout.separator, like.layout.separator']
  generalize a.rest = words at rest
  generalize b.rest = words' at rest
  induction rest with
  | nil => exact .nil
  | cons word rest ih =>
    rw [dropWhile_cons, dropWhile_cons, word.isSeparator]
    split
    · exact ih
    · exact .cons word rest

section

variable (fit : Exchangeable c d)
include fit

theorem readGroup_alike (like : Like place c d a b) {e : Char} (bracket : a.peekIsChar e = true) :
    CoincideAt place (Like place c d) (Tree.Like place c d) a b readGroup readGroup := by
  have nonempty : a.rest ≠ [] := by
    intro empty
    rw [Reader.peekIsChar, empty] at bracket
    cases bracket
  apply get_bind_at
  apply bind_at (Coincide.lift (Token.matchingClose_concur fit like.rest nonempty) a b like)
  rintro n _ rfl
  apply (Coincide.lift (Layout.block_concur fit like.layout (forall₂_take _ like.rest))).bind
  intro tree tree' shape
  apply (Coincide.put (like.withRest (forall₂_drop _ like.rest))).seq
  exact fun _ => .pure shape

theorem readUntilSeparator_alike : Alike place c d (Token.Likes place c d) readUntilSeparator readUntilSeparator := by
  apply Coincide.get_bind
  intro a b like
  rw [like.layout.separator, like.layout.separator']
  apply (Coincide.lift (Token.separatorFrom_concur fit like.rest .nil)).seq
  intro stop
  cases stop with
  | none => exact (Coincide.put (like.withRest .nil)).seq (fun _ => .pure like.rest)
  | some n =>
    apply (Coincide.put (like.withRest (forall₂_drop _ like.rest))).seq
    exact fun _ => .pure (forall₂_take _ like.rest)

theorem readLine_alike : Alike place c d (Tree.Like place c d) readLine readLine := by
  apply (readUntilSeparator_alike fit).bind
  intro tokens others texts
  apply Coincide.get_bind
  intro a b like
  exact .lift (Layout.line_concur fit like.layout texts)

theorem readBody_alike {read : Read Tree} (nested : Alike place c d (Tree.Like place c d) read read) (after : String) :
    Alike place c d (Tree.Like place c d) (readBody read after) (readBody read after) := by
  intro a b like
  apply get_bind_at
  dsimp only
  rw [like.atEnd, like.layout.separator, like.layout.separator', like.peekIsChar Token.Like.isSeparator,
    ← like.peekIsBracket fit (e := Bracket.brace.opening) rfl, like.peekKeyword]
  have braced {step : Read Tree} (statement : Alike place c d (Tree.Like place c d) step step) :
      Alike place c d (Tree.Like place c d)
        (step >>= fun tree => pure (Tree.ofChildren [tree] .brace (.statement c) a.position))
        (step >>= fun tree => pure (Tree.ofChildren [tree] .brace (.statement d) b.position)) := by
    apply statement.bind
    intro tree tree' shape
    have whole := Tree.ofChildren_like (.cons shape .nil) .brace (.statement c) like.position
    rw [Divider.replace, if_pos rfl] at whole
    exact .pure whole
  split
  · exact Coincide.throw _ like.position a b like
  split
  · next bracket => exact readGroup_alike fit like bracket
  split
  · exact braced nested a b like
  · exact braced (readLine_alike fit) a b like

theorem readIf_alike (depth : Nat) : Alike place c d (Tree.Like place c d) (readIf depth) (readIf depth) := by
  induction depth with
  | zero => exact fail_alike _
  | succ depth ih =>
    apply advance_alike.bind
    intro token? other? next
    cases next with
    | none => exact fail_alike _
    | @some token other word =>
      have keyword : Tree.Like place c d (.leaf token) (.leaf other) := .leaf word.same.1 word.same.2
      dsimp only
      rw [bne, bne, word.isText (by decide)]
      split
      · exact fail_alike _
      intro a b like
      apply get_bind_at
      rw [← like.peekIsBracket fit rfl]
      split
      · exact fail_alike _ a b like
      next bracket =>
      apply bind_at (readGroup_alike fit like (by simpa using bracket))
      intro cond condition' shape
      apply (readBody_alike fit ih "if").bind
      intro body body' shape'
      have alone : Alike place c d (Tree.Like place c d)
          (pure (Tree.line [.leaf token, cond, body] token.position))
          (pure (Tree.line [.leaf other, condition', body'] other.position)) :=
        .pure (Tree.ofChildren_like (.cons keyword (.cons shape (.cons shape' .nil))) _ .space word.placed)
      apply Coincide.get_bind
      intro e f like'
      have rest := like'.rest
      unfold peek?
      generalize e.rest = words at rest
      generalize f.rest = words' at rest
      cases rest with
      | nil => exact alone
      | cons word' _ =>
        dsimp only [head?_cons]
        rw [word'.isText (by decide)]
        split
        · apply advance_alike.bind
          intro _ _ _
          apply (readBody_alike fit ih "else").bind
          intro last last' shape''
          refine .pure (Tree.ofChildren_like ?_ _ .space word.placed)
          exact .cons keyword (.cons shape (.cons shape' (.cons (.leaf word'.same.1 word'.same.2)
            (.cons shape'' .nil))))
        · exact alone

theorem readStatement_alike : Alike place c d (Tree.Like place c d) readStatement readStatement := by
  apply Coincide.get_bind
  intro a b like
  rw [like.peekKeyword]
  split
  · apply Coincide.get_bind
    intro e f like'
    rw [like'.rest.length_eq]
    exact readIf_alike fit _
  · exact readLine_alike fit

theorem readStatementsUpTo_alike (bound : Nat) :
    Alike place c d (List.Forall₂ (Tree.Like place c d)) (readStatementsUpTo bound) (readStatementsUpTo bound) := by
  induction bound with
  | zero => exact fail_alike _
  | succ bound ih =>
    apply skipSeparators_alike.seq
    intro _
    apply Coincide.get_bind
    intro a b like
    rw [like.atEnd]
    split
    · exact .pure .nil
    · apply (readStatement_alike fit).bind
      intro tree tree' shape
      apply ih.bind
      intro trees trees' shapes
      exact .pure (.cons shape shapes)

end

theorem start_like {layout layout' : Layout} (like : layout.Like place c d layout')
    (words : Token.Likes place c d tokens others) :
    Like place c d (Reader.start layout tokens) (Reader.start layout' others) := by
  refine ⟨like, words, ?_⟩
  have back : Token.Likes place c d tokens.reverse others.reverse := forall₂_reverse_iff.mpr words
  simp only [Reader.start, ← head?_reverse]
  generalize tokens.reverse = words at back
  generalize others.reverse = words' at back
  cases back with
  | nil => exact like.origin
  | cons last => exact last.placed

end Reader

namespace Layout

theorem readStatements_like (fit : Exchangeable c d) {layout layout' : Layout}
    (like : layout.Like place c d layout') (words : Token.Likes place c d tokens others) :
    Concur place (List.Forall₂ (Tree.Like place c d)) (layout.readStatements tokens)
      (layout'.readStatements others) := by
  have reads : Reader.Alike place c d (List.Forall₂ (Tree.Like place c d)) Reader.readStatements
      Reader.readStatements := by
    apply Coincide.get_bind
    intro a b like'
    rw [like'.rest.length_eq]
    exact Reader.readStatementsUpTo_alike fit _
  exact (reads _ _ (Reader.start_like like words)).1

theorem readStatements_concur {layout layout' : Layout} (same : layout.Same place layout')
    (texts : Token.Sames place tokens others) :
    Concur place (Tree.Sames place) (layout.readStatements tokens) (layout'.readStatements others) := by
  have words : Token.Likes place layout.separator layout.separator tokens others :=
    texts.imp (fun token _ word => ⟨(congrArg Token.text (token.exchange_self _)).trans word.1, word.2⟩)
  apply (readStatements_like (.inl rfl) ⟨rfl, same.separator.symm, same.origin⟩ words).mono
  intro trees others shapes
  refine shapes.imp (fun tree _ shape => ?_)
  rwa [Tree.Like, Tree.exchange_self] at shape

end Layout

end ScoreScript
