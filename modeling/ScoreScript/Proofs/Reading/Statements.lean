import ScoreScript.Proofs.Reading.Grammar

/-!
# What reading statements keeps

The trees of the statements that words consist of weigh no more than the words, and a statement that
starts with `if` has the parts of an `if`.
-/

namespace ScoreScript

open List

open Token Tree

variable {separator : Char} {items : List Tree.Item} {used words : List Token} {token : Token}

/-! ## Shapes of statements -/

namespace Tree

def IsBody (tree : Tree) : Prop :=
  ∃ children divider pos, tree = group children .brace divider pos

/-- An `if` is a line of the keyword, a condition and a body, and may have another body. -/
def IsIf (tree : Tree) : Prop :=
  ∃ (keyword : Token) (cond body : Tree) (others : List Tree) (pos : Position),
    tree = group (leaf keyword :: cond :: body :: others) .line .space pos ∧ body.IsBody ∧
      (others = [] ∨ ∃ word other, others = [leaf word, other] ∧ other.IsBody)

def IsStatement (tree : Tree) : Prop :=
  ∀ first rest, tree.items = first :: rest → first.word? = some "if" → tree.IsIf

private theorem items_line (children : List Tree) (pos : Position) : (line children pos).items = children := by
  match children with
  | [] => rfl
  | [leaf token] => rfl
  | [group inner bracket divider place] => rfl
  | first :: second :: rest => cases first <;> rfl

private theorem isStatement_ofPiece (kept : Token.Reshapes separator words (flat items))
    (plain : ∀ token, words.head? = some token → token.text ≠ "if") (pos : Position) :
    (ofPiece pos items).IsStatement := by
  intro first rest parts isIf
  rw [ofPiece, items_line] at parts
  cases items with
  | nil => cases parts
  | cons item items =>
    obtain ⟨rfl, _⟩ := cons.inj parts
    cases toTree : item.toTree with
    | group children bracket divider place =>
      rw [toTree] at isIf
      cases isIf
    | leaf token =>
      have head := kept.head
      rw [flat_cons, ← item.tokens_toTree, toTree, tokens] at head
      rw [toTree] at isIf
      cases words with
      | nil => cases head
      | cons other words =>
        have same : token.text = other.text := Option.some.inj head
        exact absurd (same.symm.trans (Option.some.inj isIf)) (plain other rfl)

end Tree

/-! ## Words and their trees -/

theorem Tree.Collects.starts (collects : Collects separator (token :: words) items) (bracket : Bracket) :
    token.role separator ≠ .closes bracket := by
  intro closes
  cases collects with
  | word role | separator role | group role =>
    rw [closes] at role
    cases role

namespace Reader

/-- A tree was made from words, of which there is at least one. -/
structure Taken (separator : Char) (before : Bool) (used : List Token) (tree : Tree) : Prop where
  weigh : Token.weigh separator before tree.tokens ≤ Token.weigh separator before used
  stems : Token.Stems separator used tree.tokens
  solid : tree.Solid separator
  starts : ∃ token words, used = token :: words ∧ ∀ bracket, token.role separator ≠ .closes bracket

private theorem weigh_snoc_separator (words : List Token) {stop : Token} (isSeparator : stop.isChar separator = true)
    (before : Bool) : Token.weigh separator before (words ++ [stop]) = Token.weigh separator before words := by
  simp [weigh_append, Token.weigh, cost_separator isSeparator]

def Heads (used : List Token) (tree : Tree) : Prop :=
  ∀ token, tree.tokens.head? = some token → used.head?.map Token.text = some token.text

theorem weigh_bare (other : token.isChar separator = false) (notBrace : token.isChar Bracket.brace.opening = false)
    (starts : ∀ bracket, token.role separator ≠ .closes bracket) : Token.weigh separator true (token :: words) =
      Token.weigh separator false (token :: words) + 1 := by
  have notClosing (bracket : Bracket) (written : bracket.isWritten = true) : token.isChar bracket.closing = false := by
    rw [Bool.eq_false_iff]
    intro closes
    exact starts bracket (role_closing written (text_of_isChar closes))
  have bare : token.startsBare = true := by
    simp only [startsBare, notBrace, notClosing .paren rfl, notClosing .square rfl, notClosing .brace rfl]
    rfl
  simp only [Token.weigh, cost, other, notClosing .brace rfl, bare]
  simp
  omega

private theorem weigh_braced (statement : Tree) (pos : Position) : Token.weigh separator true
        (Tree.group [statement] .brace (.statement separator) pos).tokens ≤
      Token.weigh separator false statement.tokens + 1 := by
  have opening : (ofChar Bracket.brace.opening pos).leadsBody = false :=
    leadsBody_opening rfl pos
  have brace : (ofChar Bracket.brace.opening pos).cost separator true ≤ 1 := by
    have notBare : (ofChar Bracket.brace.opening pos).startsBare = false := by
      simp [startsBare]
    unfold cost
    rw [notBare, Bool.and_false]
    split <;> decide
  have closing : Token.weigh separator
      (endsLeading false (Tree.innerTokens (.statement separator) pos [statement]))
      [.ofChar Bracket.brace.closing pos] = 0 := by
    simp [Token.weigh, cost]
  rw [tokens_group rfl, Token.weigh, opening, weigh_append, closing, weigh_statements, Tree.innerTokens, Token.weigh]
  omega

private theorem stems_braced {statement : Tree} (stems : Token.Stems separator used statement.tokens) (pos : Position) :
    Token.Stems separator used (Tree.group [statement] .brace (.statement separator) pos).tokens := by
  rw [tokens_group rfl, innerTokens_statement]
  intro token mem
  simp only [flatMap_cons, flatMap_nil, append_nil, mem_cons, mem_append,
    not_mem_nil, or_false] at mem
  rcases mem with rfl | (inside | rfl) | rfl
  · exact .inl (.inr (.inl (isChar_of_text rfl)))
  · exact stems token inside
  · exact .inl (.inl (isChar_of_text rfl))
  · exact .inl (.inr (.inr (isChar_of_text rfl)))

private theorem endsLeading_body {body : Tree} (isBody : body.IsBody) (before : Bool) :
    endsLeading before body.tokens = false := by
  obtain ⟨children, divider, pos, rfl⟩ := isBody
  rw [tokens_group rfl, endsLeading, endsLeading_append]
  exact (leadsBody_of_isChar (c := Bracket.brace.closing) (isChar_of_text rfl)).trans (by decide)

private theorem isChar_of_long (long : token.text.toList.length ≠ 1) (c : Char) : token.isChar c = false := by
  rw [Bool.eq_false_iff]
  intro isChar
  rw [text_of_isChar isChar] at long
  simp at long

theorem solid_keyword (long : token.text.toList.length ≠ 1) : (Tree.leaf token).Solid separator := by
  intro word mem
  rw [mem_singleton.mp mem]
  simp [cost, isChar_of_long long]

theorem taken_if {keyword : Token} {cond body : Tree} {others : List Tree}
    {conditionUsed bodyUsed othersUsed : List Token} (isIf : keyword.text = "if")
    (kept : Token.Reshapes separator conditionUsed cond.tokens) (conditionSolid : cond.Solid separator)
    (leads : ∀ before, endsLeading before cond.tokens = true) (isBody : body.IsBody)
    (bodyTaken : Taken separator true bodyUsed body)
    (othersWeight : ∀ before, Token.weigh separator false (others.flatMap Tree.tokens) ≤
      Token.weigh separator before othersUsed)
    (othersStem : Token.Stems separator othersUsed (others.flatMap Tree.tokens))
    (othersSolid : ∀ other ∈ others, other.Solid separator) (pos : Position) (before : Bool) :
    Taken separator before (keyword :: (conditionUsed ++ (bodyUsed ++ othersUsed)))
      (Tree.line (.leaf keyword :: cond :: body :: others) pos) := by
  have tokens : (Tree.line (.leaf keyword :: cond :: body :: others) pos).tokens =
      keyword :: (cond.tokens ++ (body.tokens ++ others.flatMap Tree.tokens)) := by
    rw [tokens_line, flatMap_cons, flatMap_cons, flatMap_cons, Tree.tokens, singleton_append]
  have leadsUsed : endsLeading keyword.leadsBody conditionUsed = true :=
    (kept.leads _).symm.trans (leads _)
  have long : keyword.text.toList.length ≠ 1 := by simp [isIf]
  refine ⟨?_, ?_, ?_, keyword, _, rfl, ?_⟩
  · rw [tokens]
    simp only [Token.weigh, weigh_append, leads, leadsUsed, endsLeading_body isBody]
    have := kept.weigh keyword.leadsBody
    have := bodyTaken.weigh
    have := othersWeight (endsLeading true bodyUsed)
    omega
  · rw [tokens]
    exact Token.Stems.append (a := [keyword]) (b := [keyword]) (.of_mem (fun _ => id))
      (kept.stems.append (bodyTaken.stems.append othersStem))
  · apply solid_ofChildren
    intro child mem
    simp only [mem_cons] at mem
    rcases mem with rfl | rfl | rfl | inside
    · exact solid_keyword long
    · exact conditionSolid
    · exact bodyTaken.solid
    · exact othersSolid child inside
  · intro bracket role
    have := isChar_of_text (text_of_closes role).1
    rw [isChar_of_long long] at this
    cases this

private theorem endsLeading_condition (children : List Tree) (divider : Divider) (pos : Position) (before : Bool) :
    endsLeading before (Tree.group children .paren divider pos).tokens = true := by
  rw [tokens_group rfl, endsLeading, endsLeading_append]
  exact (leadsBody_of_isChar (c := Bracket.paren.closing) (isChar_of_text rfl)).trans (by decide)

private theorem heads_if (keyword : Token) (used : List Token) (others : List Tree) (pos : Position) :
    Heads (keyword :: used) (Tree.line (.leaf keyword :: others) pos) := by
  intro token first
  rw [tokens_line, flatMap_cons, Tree.tokens, singleton_append] at first
  cases first
  rfl

structure Found (separator : Char) (used : List Token) (tree : Tree) : Prop where
  weigh : Token.weigh separator false tree.tokens ≤ Token.weigh separator false used
  stems : Token.Stems separator used tree.tokens
  solid : tree.Solid separator
  starts : ∀ token, tree.tokens.head? = some token → token.isChar separator = false
  isStatement : tree.IsStatement

theorem Found.widen {tree : Tree} (found : Found separator used tree) (pre post : List Token) :
    Found separator (pre ++ (used ++ post)) tree where
  weigh := Nat.le_trans found.weigh (weigh_le_append separator false pre used post)
  stems := by
    refine Token.Stems.trans (.of_mem ?_) found.stems
    intro token inside
    exact mem_append_right _ (mem_append_left _ inside)
  solid := found.solid
  starts := found.starts
  isStatement := found.isStatement

end Reader

open Reader

theorem Layout.block_keeps {layout : Layout} {tree : Tree} (grouped : layout.block used = .ok tree) :
    Token.Reshapes layout.separator used tree.tokens ∧ tree.Solid layout.separator ∧
      ∃ token words, used = token :: words ∧ ∀ bracket, token.role layout.separator ≠ .closes bracket := by
  have collects := (block_eq_ok_iff.mp grouped).1
  refine ⟨by simpa [Tree.flat, Tree.Item.tokens] using collects.reshapes,
    collects.solid _ (mem_singleton_self _) rfl, ?_⟩
  cases used with
  | nil => cases collects
  | cons token words => exact ⟨token, words, rfl, collects.starts⟩

def Tree.Part.Keeps (separator : Char) (used : List Token) (tree : Tree) : Part → Prop
  | .statement => (∀ before, Taken separator before used tree) ∧ Heads used tree ∧ tree.IsStatement
  | .body => Taken separator true used tree ∧ tree.IsBody

theorem Written.keeps {layout : Layout} {part : Tree.Part} {rest : List Token} {tree : Tree}
    (written : Written layout part used rest tree) : part.Keeps layout.separator used tree := by
  have paren {cond : Tree} (bracketed : cond.bracket? = some .paren) (before : Bool) :
      endsLeading before cond.tokens = true := by
    cases cond with
    | leaf => cases bracketed
    | group children bracket divider pos =>
      cases bracketed
      exact endsLeading_condition children divider pos before
  induction written with
  | @line first words used rest piece notIf other collects whole ends =>
    have kept := collects.reshapes
    have solid : (ofStatement piece).Solid layout.separator :=
      solid_ofPiece (fun item mem => collects.solid item mem (whole item mem)) _
    refine ⟨fun before => ?_, ?_, Tree.isStatement_ofPiece kept (by rintro _ ⟨⟩; exact notIf) _⟩
    · cases ends with
      | finish =>
        refine ⟨?_, ?_, solid, first, words, rfl, collects.starts⟩ <;>
          rw [ofStatement, tokens_ofPiece]
        · exact kept.weigh before
        · exact kept.stems
      | stop isSeparator =>
        refine ⟨?_, ?_, solid, first, words ++ [_], rfl, collects.starts⟩ <;>
          rw [ofStatement, tokens_ofPiece]
        · rw [weigh_snoc_separator (first :: words) isSeparator]
          exact kept.weigh before
        · exact (Token.Stems.of_mem (fun _ => mem_append_left _)).trans kept.stems
    · intro token isFirst
      rw [ofStatement, tokens_ofPiece] at isFirst
      have head : (first :: words).head?.map Token.text = some token.text := by
        rw [← kept.head, isFirst]
        rfl
      cases ends <;> exact head
  | @single keyword test used rest cond body isIf grouped isCondition _ _ ih =>
    obtain ⟨kept, solid, _⟩ := Layout.block_keeps grouped
    refine ⟨?_, heads_if _ _ _ _, fun _ _ _ _ => ⟨_, _, _, _, _, rfl, ih.2, .inl rfl⟩⟩
    have taken := @taken_if layout.separator keyword cond body [] test used [] isIf kept solid
      (paren isCondition) ih.2 ih.1 (fun _ => Nat.le_refl _) (.of_mem (fun _ => id))
      (forall_mem_nil _) keyword.position
    rwa [append_nil] at taken
  | @double keyword word test used others rest cond body other isIf grouped isCondition _ isElse _
      ih ih' =>
    obtain ⟨kept, solid, _⟩ := Layout.block_keeps grouped
    refine ⟨?_, heads_if _ _ _ _, fun _ _ _ _ => ⟨_, _, _, _, _, rfl, ih.2, .inr ⟨word, other, rfl, ih'.2⟩⟩⟩
    have isLeading : word.leadsBody = true := by simp [leadsBody, isElse]
    refine taken_if isIf kept solid (paren isCondition) ih.2 ih.1 ?_ ?_ ?_ _
    · intro before
      have := ih'.1.weigh
      have := word.cost_false_le layout.separator before
      simp [Tree.tokens, Token.weigh, isLeading]
      omega
    · simpa [Tree.tokens] using
        Token.Stems.append (a := [word]) (b := [word]) (.of_mem (fun _ => id)) ih'.1.stems
    · rw [forall_mem_cons, forall_mem_singleton]
      exact ⟨solid_keyword (by simp [isElse]), ih'.1.solid⟩
  | @braced used rest body grouped isBody =>
    obtain ⟨kept, solid, starts⟩ := Layout.block_keeps grouped
    refine ⟨⟨kept.weigh true, kept.stems, solid, starts⟩, ?_⟩
    cases body with
    | leaf => cases isBody
    | group children bracket divider pos =>
      cases isBody
      exact ⟨children, divider, pos, rfl⟩
  | @bare first words rest statement notBrace written ih =>
    refine ⟨?_, _, _, _, rfl⟩
    obtain ⟨_, _, ⟨⟩, other⟩ := written.starts
    obtain ⟨weight, stems, solid, _, _, ⟨⟩, starts⟩ := ih.1 false
    refine ⟨?_, stems_braced stems _, ?_, first, words, rfl, starts⟩
    · rw [ofChildren_written rfl, weigh_bare other notBrace starts]
      exact Nat.le_trans (weigh_braced _ _) (Nat.add_le_add_right weight 1)
    · exact solid_ofChildren (forall_mem_singleton.mpr solid) _ _ _

theorem Layout.readStatements_found {layout : Layout} {tokens : List Token} {trees : List Tree}
    (read : layout.readStatements tokens = .ok trees) : ∀ tree ∈ trees, Found layout.separator tokens tree := by
  have written := (layout.readStatements_reads tokens).2 trees read
  clear read
  induction written with
  | finish => exact forall_mem_nil _
  | @skip token tokens trees _ _ ih =>
    intro tree mem
    simpa using (ih tree mem).widen [token] []
  | @next used rest tree trees first _ ih =>
    obtain ⟨taken, heads, isStatement⟩ := first.keeps
    obtain ⟨word, words, rfl, other⟩ := first.starts
    rw [forall_mem_cons]
    constructor
    · refine Found.widen ⟨(taken false).weigh, (taken false).stems, (taken false).solid, ?_, isStatement⟩ [] rest
      intro token first
      rw [← isChar_congr (Option.some.inj (heads token first))]
      exact other
    · intro tree mem
      simpa using (ih tree mem).widen (word :: words) []

end ScoreScript
