import ScoreScript.Proofs.Reading.Rendering

/-!
# Reading trees again

Trees that were read are written as text, with the separator between them, and read again. Whether
they are grouped or read as statements, the result has their shapes.
-/

namespace ScoreScript

open List

open Tree Token

variable {pieces : List (List Item)} {items : List Item}

namespace Tree

variable {sep : Char}

/-- A piece that is not empty and has no separator, whose members are read and grouped again from
their text. -/
structure Legible (sep : Char) (piece : List Item) : Prop where
  nonempty : piece ≠ []
  whole : ∀ item ∈ piece, item.isSeparator sep = false
  regroups : ∀ item ∈ piece, Regroups sep item
  spelled : ∀ item ∈ piece, Spelled sep item.toTree

namespace Legible

variable {piece : List Item}

private theorem singleton {tree : Tree} (regroups : Regroups sep (.tree tree))
    (spelled : Spelled sep tree) : Legible sep [.tree tree] where
  nonempty := cons_ne_nil _ _
  whole := forall_mem_singleton.mpr rfl
  regroups := forall_mem_singleton.mpr regroups
  spelled := forall_mem_singleton.mpr spelled

theorem cons {item : Item} (plain : item.isSeparator sep = false)
    (regroups : Regroups sep item) (spelled : Spelled sep item.toTree)
    (legible : Legible sep piece) : Legible sep (item :: piece) where
  nonempty := cons_ne_nil _ _
  whole := forall_mem_cons.mpr ⟨plain, legible.whole⟩
  regroups := forall_mem_cons.mpr ⟨regroups, legible.regroups⟩
  spelled := forall_mem_cons.mpr ⟨spelled, legible.spelled⟩

private theorem close_body (legible : Legible sep piece) {stop : Item} (isStop : stop.isSeparator sep = true) :
    close sep .brace (Item.start piece) (piece ++ [stop]) = .ok (ofBody sep piece) := by
  have divided : (piece ++ [stop]).any (Item.isSeparator sep) = true := by simp [isStop]
  have pieces : nonempties (Item.split sep (piece ++ [stop])) = [piece] := by
    rw [split_append legible.whole isStop]
    simp [nonempties, Item.split, legible.nonempty]
  rw [close, if_pos divided]
  exact congrArg (fun pieces => Except.ok (ofChildren (List.map (ofPiece (Item.start piece)) pieces)
    .brace (.statement sep) (Item.start piece))) pieces

theorem ofBody (marks : Marks sep) (legible : Legible sep piece) :
    Legible sep [.tree (ofBody sep piece)] := by
  have isStop : (ofChar sep default).isChar sep = true := isChar_of_text rfl
  refine singleton (regroups_close marks.plain rfl ?_
    (@close_body _ _ legible (.separator (.ofChar sep default)) isStop)) ?_
  · exact forall_mem_append.mpr ⟨legible.regroups,
      forall_mem_singleton.mpr (regroups_separator (role_separator marks.plain isStop))⟩
  · exact spelled_ofChildren marks (by rintro _ ⟨⟩; rfl)
      (forall_mem_singleton.mpr (spelled_ofPiece marks legible.spelled _)) _ _

end Legible

/-- The members can be read and grouped again from their text. -/
structure AllLegible (sep : Char) (items : List Item) : Prop where
  regroups : ∀ item ∈ items, Regroups sep item
  spelled : AllSpelled sep items

theorem AllLegible.of_append {front items : List Item}
    (all : AllLegible sep (front ++ items)) : AllLegible sep items where
  regroups item mem := all.regroups item (mem_append_right _ mem)
  spelled item mem := all.spelled item (mem_append_right _ mem)

theorem Takes.legible (marks : Marks sep) {part : Part} {items found rest : List Item}
    (takes : Takes sep part items found rest) (all : AllLegible sep items) : Legible sep found := by
  induction takes with
  | line nonempty whole _ _ =>
    exact
      { nonempty
        whole
        regroups := fun item mem => all.regroups item (mem_append_left _ mem)
        spelled := fun item mem =>
          all.spelled item (mem_append_left _ mem) (whole item mem) }
  | single _ _ _ _ ih =>
    have inner := ih (@AllLegible.of_append _ [_, _] _ all)
    exact .cons rfl (all.regroups _ (.head _)) (all.spelled _ (.head _) rfl)
      (.cons rfl (all.regroups _ (.tail _ (.head _))) (all.spelled _ (.tail _ (.head _)) rfl) inner)
  | double _ _ body _ _ bodyIH otherIH =>
    have inner := @AllLegible.of_append _ [_, _] _ all
    obtain ⟨front, rfl⟩ := body.suffix
    have behind := inner.of_append
    have first := bodyIH inner
    have second := otherIH (@AllLegible.of_append _ [_] _ behind)
    refine .cons rfl (all.regroups _ (.head _)) (all.spelled _ (.head _) rfl)
      (.cons rfl (all.regroups _ (.tail _ (.head _))) (all.spelled _ (.tail _ (.head _)) rfl)
        (.cons rfl (first.regroups _ (.head _)) (first.spelled _ (.head _)) ?_))
    exact .cons rfl (behind.regroups _ (.head _)) (behind.spelled _ (.head _) rfl) second
  | braced _ => exact .singleton (all.regroups _ (.head _)) (all.spelled _ (.head _) rfl)
  | bare _ _ ih => exact (ih all).ofBody marks

theorem TakesAll.legible (marks : Marks sep) (takes : TakesAll sep items pieces)
    (all : AllLegible sep items) : ∀ piece ∈ pieces, Legible sep piece := by
  induction takes with
  | nil => exact forall_mem_nil _
  | skip _ _ ih => exact ih (@AllLegible.of_append _ [_] _ all)
  | next takes _ ih =>
    obtain ⟨front, rfl⟩ := takes.suffix
    exact forall_mem_cons.mpr ⟨takes.legible marks all, ih all.of_append⟩

/-! ## Pieces with separators between them -/

variable {stop : Token} {pieces : List (List Item)}

theorem nonempties_cons {piece : List Item} (nonempty : piece ≠ []) (pieces : List (List Item)) :
    nonempties (piece :: pieces) = piece :: nonempties pieces :=
  filter_cons_of_pos (by simp [nonempty])

private theorem split_joined (isStop : stop.isChar sep = true) (legible : ∀ piece ∈ pieces, Legible sep piece) :
    nonempties (Item.split sep ([.separator stop].intercalate pieces)) = pieces := by
  have isSeparator : (Item.separator stop).isSeparator sep = true := isStop
  induction pieces with
  | nil => rfl
  | cons piece pieces ih =>
    obtain ⟨first, later⟩ := forall_mem_cons.mp legible
    cases pieces with
    | nil =>
      rw [intercalate_singleton, split_of_whole first.whole, nonempties_cons first.nonempty]
      rfl
    | cons second others =>
      rw [intercalate_cons_cons, append_assoc, singleton_append,
        split_append first.whole isSeparator, nonempties_cons first.nonempty, ih later]

theorem strandsElse_joined (legible : ∀ piece ∈ pieces, Legible sep piece) :
    Item.strandsElse sep ([.separator stop].intercalate pieces) = false := by
  induction pieces with
  | nil => rfl
  | cons piece pieces ih =>
    obtain ⟨first, later⟩ := forall_mem_cons.mp legible
    cases pieces with
    | nil =>
      rw [intercalate_singleton, ← append_nil piece, strandsElse_append first.whole]
      rfl
    | cons second others =>
      rw [intercalate_cons_cons, append_assoc, singleton_append,
        strandsElse_append first.whole, strandsElse_stop]
      · exact ih later
      · have next := later second (mem_cons_self ..)
        obtain ⟨item, rest, rfl⟩ := exists_cons_of_ne_nil next.nonempty
        have head : ([.separator stop].intercalate ((item :: rest) :: others)).head? = some item := by
          cases others <;> simp [intercalate_cons_cons]
        rw [head]
        rintro _ ⟨⟩
        exact next.whole item (mem_cons_self ..)

theorem Takes.bracket_body {items rest : List Item} {body : Tree}
    (takes : Takes sep .body items [.tree body] rest) : body.bracket? = some .brace := by
  cases takes with
  | braced isBrace => exact isBrace
  | bare _ _ => rfl

theorem Takes.again {items piece rest tail after : List Item}
    (takes : Takes sep .statement items piece rest) (stops : Stops sep tail after)
    (later : TakesAll sep after pieces) : TakesAll sep (piece ++ tail) (piece :: pieces) := by
  have behind : TakesAll sep tail pieces := by
    cases stops with
    | finish => exact later
    | stop isStop => exact .skip isStop later
  have notElse : Item.startWith "else" tail = false := by
    cases stops with
    | finish => rfl
    | stop isStop => exact startWith_separator (by decide) isStop _
  cases takes with
  | line nonempty whole notIf _ => exact .next (.line nonempty whole notIf stops) later
  | single isIf isCondition body _ =>
    exact .next (.single isIf isCondition (.braced body.bracket_body) notElse) behind
  | double isIf isCondition body isElse other =>
    exact .next (.double isIf isCondition (.braced body.bracket_body) isElse (.braced other.bracket_body)) behind

theorem TakesAll.again (isStop : stop.isChar sep = true)
    (takes : TakesAll sep items pieces) : TakesAll sep ([.separator stop].intercalate pieces) pieces := by
  induction takes with
  | nil => exact .nil
  | skip _ _ ih => exact ih
  | @next items piece rest pieces takes _ ih =>
    cases pieces with
    | nil =>
      have read := takes.again .finish .nil
      rw [append_nil] at read
      rwa [intercalate_singleton]
    | cons second others =>
      rw [intercalate_cons_cons, append_assoc, singleton_append]
      exact takes.again (.stop isStop) ih

private theorem words_ofStatement (piece : List Item) : (ofStatement piece).words = piece.flatMap Item.words :=
  words_ofPiece _ piece

private theorem words_joined (stop : Token) (pieces : List (List Item)) :
    ([.separator stop].intercalate pieces).flatMap Item.words =
      [stop.text].intercalate ((pieces.map ofStatement).map words) := by
  induction pieces with
  | nil => rfl
  | cons piece pieces ih =>
    cases pieces with
    | nil => simp [words_ofStatement]
    | cons second others =>
      simp only [map_cons] at ih ⊢
      rw [intercalate_cons_cons, intercalate_cons_cons, flatMap_append, flatMap_append, ih]
      simp [words_separator, words_ofStatement]

theorem mem_joined {item : Item} (mem : item ∈ [.separator stop].intercalate pieces) :
    (∃ piece ∈ pieces, item ∈ piece) ∨ item = .separator stop := by
  cases pieces with
  | nil => cases mem
  | cons piece pieces =>
    refine mem_terminate ?_
    rw [terminate, ← intercalate_append _ (cons_ne_nil _ _)]
    exact mem_append_left _ mem

end Tree

namespace Layout

open Tree (Item Legible)

variable {layout : Layout}

def joined (layout : Layout) (trees : List Tree) : String :=
  layout.separator.toString.intercalate (trees.map Tree.render)

private theorem tokenize_joined (marks : Marks layout.separator) {trees : List Tree}
    (all : ∀ tree ∈ trees, Tree.Spelled layout.separator tree) :
    ∃ tokens, layout.tokenize (layout.joined trees) = .ok tokens ∧ tokens.map Token.text =
        [String.ofList [layout.separator]].intercalate (trees.map Tree.words) := by
  have ends : Token.EndsWord layout.separator [] := by rintro _ _ ⟨⟩
  have spelled :=
    spells_divided marks (.inl rfl) all ends .nil (Position.start layout.source)
  rw [append_nil, append_nil] at spelled
  have chars : (layout.joined trees).toList = [layout.separator].intercalate (trees.map spelling) := by
    rw [joined, String.toList_intercalate, map_map, Char.toString, String.toList_singleton]
    rfl
  rw [tokenize, Token.tokenize, chars]
  exact spelled

theorem collects_joined (marks : Marks layout.separator) (legible : ∀ piece ∈ pieces, Legible layout.separator piece)
    (stop : Token) (isStop : stop.isChar layout.separator = true) :
    ∃ tokens items, layout.tokenize (layout.joined (pieces.map Tree.ofStatement)) = .ok tokens ∧
      Tree.Collects layout.separator tokens items ∧
      List.Forall₂ Item.Same ([.separator stop].intercalate pieces) items := by
  have spelled : ∀ tree ∈ pieces.map Tree.ofStatement, Tree.Spelled layout.separator tree := by
    rw [forall_mem_map]
    exact fun piece mem => Tree.spelled_ofPiece marks (legible piece mem).spelled _
  obtain ⟨tokens, tokenized, texts⟩ := tokenize_joined marks spelled
  rw [← text_of_isChar isStop, ← Tree.words_joined] at texts
  have regroups : ∀ item ∈ [.separator stop].intercalate pieces, Tree.Regroups layout.separator item := by
    intro item mem
    rcases Tree.mem_joined mem with ⟨piece, isPiece, inside⟩ | rfl
    · exact (legible piece isPiece).regroups item inside
    · exact Tree.regroups_separator (Tree.role_separator marks.plain isStop)
  obtain ⟨items, collects, same⟩ := regroups_all regroups texts
  exact ⟨tokens, items, tokenized, collects, same⟩

theorem group_eq {tokens : List Token} (collects : Tree.Collects layout.separator tokens items) :
    layout.group tokens = .ok ((Tree.nonempties (Item.split layout.separator items)).map Tree.ofStatement) := by
  rw [group, Tree.collect_eq_ok_iff.mpr collects]
  refine congrArg Except.ok (map_congr_left (fun piece mem => ?_))
  exact ofPiece_eq (Tree.mem_nonempties.mp mem).2 _

theorem parse_joined (marks : Marks layout.separator) (legible : ∀ piece ∈ pieces, Legible layout.separator piece) :
    ∃ others, layout.parse (layout.joined (pieces.map Tree.ofStatement)) = .ok others ∧
      sameShapes (pieces.map Tree.ofStatement) others = true := by
  have isStop : (ofChar layout.separator default).isChar layout.separator = true :=
    isChar_of_text rfl
  obtain ⟨tokens, items, tokenized, collects, same⟩ := collects_joined marks legible _ isStop
  have samePieces := nonempties_related (split_related (Item.SameAt.isSeparator layout.separator) same)
  rw [Tree.split_joined isStop legible] at samePieces
  refine ⟨_, ?_, ofStatements_sameShape samePieces⟩
  rw [parse, tokenized]
  exact group_eq collects

theorem parseStatements_joined (marks : Marks layout.separator) (takes : Tree.TakesAll layout.separator items pieces)
    (legible : ∀ piece ∈ pieces, Legible layout.separator piece) :
    ∃ others, layout.parseStatements (layout.joined (pieces.map Tree.ofStatement)) = .ok others ∧
      sameShapes (pieces.map Tree.ofStatement) others = true := by
  have isStop : (ofChar layout.separator default).isChar layout.separator = true :=
    isChar_of_text rfl
  obtain ⟨tokens, others, tokenized, collects, same⟩ := collects_joined marks legible _ isStop
  have free := @Tree.strandsElse_joined _ (.ofChar layout.separator default) _ legible
  obtain ⟨pieces', takes', samePieces⟩ := (takes.again isStop).alike (agree_of_same same) free
    ((strandsElse_same same).symm.trans free)
  refine ⟨pieces'.map Tree.ofStatement, ?_, ofStatements_sameShape samePieces⟩
  rw [parseStatements, tokenized]
  exact (readStatements_eq_ok_iff marks.plain).mpr ⟨others, pieces', collects, takes', rfl⟩

/-! ## Trees of a text -/

private theorem allLegible_of_tokenize (marks : Marks layout.separator) {text : String}
    {tokens : List Token} (tokenized : layout.tokenize text = .ok tokens)
    (collects : Tree.Collects layout.separator tokens items) : Tree.AllLegible layout.separator items where
  regroups := collects.regroups marks.plain
  spelled := collects.spelled marks (cut_of_tokenize tokenized).lexeme

private theorem legible_of_parse (marks : Marks layout.separator) {text : String} {trees : List Tree}
    (parsed : layout.parse text = .ok trees) :
    ∃ pieces : List (List Item), (∀ piece ∈ pieces, Legible layout.separator piece) ∧
      trees = pieces.map Tree.ofStatement := by
  rw [parse] at parsed
  obtain ⟨tokens, tokenized, grouped⟩ := Fault.of_bind parsed
  obtain ⟨items, collected, _⟩ := Fault.of_bind grouped
  have collects := Tree.collect_eq_ok_iff.mp collected
  rw [group_eq collects] at grouped
  cases grouped
  refine ⟨_, fun piece mem => ?_, rfl⟩
  obtain ⟨isPiece, nonempty⟩ := Tree.mem_nonempties.mp mem
  have inside := split_whole layout.separator items piece isPiece
  have all := allLegible_of_tokenize marks tokenized collects
  exact
    { nonempty
      whole := fun item mem => (inside item mem).2
      regroups := fun item mem => all.regroups item (inside item mem).1
      spelled := fun item mem => all.spelled item (inside item mem).1 (inside item mem).2 }

/-- The trees of a text, and the statements of a text with braces around every body, are read from
their own text again. -/
theorem reads_joined {layout : Layout} (notBlank : Text.isBlank layout.separator = false)
    (notQuote : layout.separator ≠ '"') (plain : Bracket.isBracket layout.separator = false) (text : String) :
    (∀ trees, layout.parse text = .ok trees → ∃ others, layout.parse (layout.joined trees) = .ok others ∧
        sameShapes trees others = true) ∧ ∀ trees, layout.parseStatements text = .ok trees →
      (∃ others, layout.parse (layout.joined trees) = .ok others ∧ sameShapes trees others = true) ∧
      ∃ others, layout.parseStatements (layout.joined trees) = .ok others ∧ sameShapes trees others = true := by
  have marks : Marks layout.separator := ⟨notBlank, notQuote, plain⟩
  constructor
  · intro trees parsed
    obtain ⟨pieces, legible, rfl⟩ := legible_of_parse marks parsed
    exact parse_joined marks legible
  · intro trees parsed
    rw [parseStatements] at parsed
    obtain ⟨tokens, tokenized, read⟩ := Fault.of_bind parsed
    obtain ⟨items, pieces, collects, takes, rfl⟩ := (readStatements_eq_ok_iff plain).mp read
    have legible := takes.legible marks (allLegible_of_tokenize marks tokenized collects)
    exact ⟨parse_joined marks legible, parseStatements_joined marks takes legible⟩

/-- A slash as the separator, an empty group of statements and a literal that looks like a
comment. -/
theorem reads_joined_slash :
    let layout : Layout := { separator := '/' }
    let text := "a/if (c) \"//\" d/ else \x7b/\x7d/f(x, y) // b"
    ∃ trees, layout.parseStatements text = .ok trees ∧ (∃ others, layout.parse (layout.joined trees) = .ok others ∧
        sameShapes trees others = true) ∧
      ∃ others, layout.parseStatements (layout.joined trees) = .ok others ∧ sameShapes trees others = true := by
  intro layout text
  have reads : (layout.parseStatements text).toOption.isSome = true := by decide +kernel
  cases read : layout.parseStatements text with
  | error fault =>
    rw [read] at reads
    cases reads
  | ok trees =>
    exact ⟨trees, rfl, (reads_joined (by decide) (by decide) (by decide) text).2 trees read⟩

end Layout

end ScoreScript
