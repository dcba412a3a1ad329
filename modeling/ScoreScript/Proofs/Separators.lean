import ScoreScript.Proofs.Positions.Parts

/-!
# Any separator will do

Reading does not depend on which character ends statements. Where the separators of two configurations
are exchanged in the words of a script they are exchanged in what is read, and nothing else changes. In
a script where only one of them occurs it ends statements everywhere, so that no word of the trees is
exchanged.
-/

namespace ScoreScript

open List

open Token

variable {c d : Char} {tokens : List Token}

namespace Tree

mutual

private theorem exchange_of_leaves {tree : Tree} (fixed : ∀ token ∈ tree.leaves, token.exchange c d = token) :
    tree.exchange c d = tree.replace c d := by
  match tree with
  | leaf token => exact congrArg leaf (fixed token (mem_singleton_self _))
  | group children bracket divider pos =>
    exact congrArg (group · bracket _ pos) (exchangeAll_of_leaves fixed)

theorem exchangeAll_of_leaves {trees : List Tree} (fixed : ∀ token ∈ leavesList trees, token.exchange c d = token) :
    mapAll (Token.exchange c d) (Divider.replace c d) trees = mapAll id (Divider.replace c d) trees := by
  match trees with
  | [] => rfl
  | tree :: trees =>
    rw [leavesList, forall_mem_append] at fixed
    exact congrArg₂ cons (exchange_of_leaves fixed.1) (exchangeAll_of_leaves fixed.2)

end

mutual

private theorem leaves_subset (tree : Tree) : tree.leaves ⊆ tree.tokens := by
  match tree with
  | leaf token => exact List.Subset.refl _
  | group children bracket divider pos =>
    have inside := leavesList_subset divider pos children
    rw [leaves, tokens]
    split
    · exact subset_cons_of_subset _ (subset_append_of_subset_left _ inside)
    · exact inside

private theorem leavesList_subset (divider : Divider) (pos : Position) (trees : List Tree) :
    leavesList trees ⊆ innerTokens divider pos trees := by
  match trees with
  | [] => exact nil_subset _
  | tree :: trees =>
    have first := leaves_subset tree
    have rest := leavesList_subset divider pos trees
    have spread (between : List Token) :
        leavesList (tree :: trees) ⊆ tree.tokens ++ (between ++ innerTokens divider pos trees) :=
      append_subset.mpr ⟨subset_append_of_subset_left _ first,
        subset_append_of_subset_right _ (subset_append_of_subset_right _ rest)⟩
    cases divider with
    | space => exact spread []
    | statement sep => exact spread [.ofChar sep tree.position]
    | comma =>
      cases trees with
      | nil => exact append_subset.mpr ⟨first, nil_subset _⟩
      | cons => exact spread [.ofChar ',' pos]

end

end Tree

namespace Layout

/-- A word of a tree that was read is no separator, and neither is it another character that no word of
the script is. -/
private theorem leaf_fixed {layout : Layout} (plain : Bracket.isBracket d = false)
    (absent : ∀ token ∈ tokens, token.isChar d = false) {trees : List Tree}
    (read : layout.readStatements tokens = .ok trees) {tree : Tree} (mem : tree ∈ trees) {token : Token}
    (leaf : token ∈ tree.leaves) : token.exchange layout.separator d = token := by
  have found := readStatements_found read tree mem
  have words : token.isChar layout.separator = false := by
    refine Bool.eq_false_iff.mpr (fun isSeparator => ?_)
    have solid := found.solid token leaf
    rw [cost_separator isSeparator] at solid
    exact Nat.lt_irrefl 0 solid
  refine exchange_of_other words (Bool.eq_false_iff.mpr (fun isChar => ?_))
  have brace {e : Char} (bracket : Bracket.isBracket e = true) : token.isChar e ≠ true := by
    rw [isChar_unique isChar]
    · exact Bool.false_ne_true
    · rintro rfl
      rw [plain] at bracket
      cases bracket
  rcases found.stems token (tree.leaves_subset leaf) with (filler | filler | filler) | ⟨other, inside, text⟩
  · exact Bool.eq_false_iff.mp words filler
  · exact brace rfl filler
  · exact brace rfl filler
  · exact Bool.eq_false_iff.mp (absent other inside) ((isChar_congr text d).trans isChar)

end Layout

theorem Config.Valid.exchangeable {config other : Config} (valid : config.Valid) (valid' : other.Valid) :
    Exchangeable config.separator other.separator := by
  have divides := Config.separates valid.usable.separator
  have divides' := Config.separates valid'.usable.separator
  refine .inr (fun e special => ⟨?_, ?_⟩)
  · rintro rfl
    exact special.elim (Bool.eq_false_iff.mp divides.bracket) divides.comma
  · rintro rfl
    exact special.elim (Bool.eq_false_iff.mp divides'.bracket) divides'.comma

/-- A script in which the separator of one configuration stands for that of another, which did not
occur in it, is read alike: into the same trees, up to the separator of their groups, or with the same
fault at the same place. -/
theorem Layout.readStatements_replace (config other : Config) (valid : config.Valid) (valid' : other.Valid)
    (src : Nat) (tokens : List Token) (absent : ∀ token ∈ tokens, token.isChar other.separator = false) :
    Layout.readStatements ⟨src, other.separator⟩ (tokens.map (Token.replace config.separator other.separator)) =
      map (Tree.replace config.separator other.separator) <$>
        Layout.readStatements ⟨src, config.separator⟩ tokens := by
  have fit := valid.exchangeable valid'
  have words : Token.Likes Eq config.separator other.separator tokens
      (tokens.map (Token.replace config.separator other.separator)) := by
    rw [Token.Likes, forall₂_map_right_iff, forall₂_same]
    intro token mem
    rw [Token.replace]
    split
    · next isSeparator =>
        refine ⟨?_, rfl⟩
        rw [exchange_of_isChar isSeparator, Equiv.swap_apply_left]
    · next word =>
        have fixed := exchange_of_other (Bool.eq_false_iff.mpr word) (absent token mem)
        exact ⟨congrArg Token.text fixed, rfl⟩
  have like : Layout.Like Eq config.separator other.separator ⟨src, config.separator⟩
      ⟨src, other.separator⟩ := ⟨rfl, rfl, rfl⟩
  have reads := Layout.readStatements_like fit like words
  generalize Layout.readStatements ⟨src, other.separator⟩ _ = outcome at reads
  cases read : Layout.readStatements ⟨src, config.separator⟩ tokens with
  | error fault =>
    rw [read] at reads
    cases reads with
    | @error _ fault' same =>
      obtain ⟨cause, pos⟩ := fault
      obtain ⟨rfl, placed⟩ := same
      rw [show pos = fault'.position from placed.elim id And.right]
      rfl
  | ok trees =>
    rw [read] at reads
    cases reads with
    | ok shapes =>
      have exchanged := Tree.Sames.eq (fun _ _ => id) (forall₂_map_left_iff.mpr shapes)
      rw [← exchanged]
      refine congrArg Except.ok (map_congr_left (fun tree mem => Tree.exchange_of_leaves ?_))
      exact fun token leaf => leaf_fixed (Config.separates valid'.usable.separator).bracket absent read mem leaf

theorem Layout.readStatements_replace_branch : Layout.readStatements ⟨0, '@'⟩
        (⟨"if", .start 0⟩ :: ['(', 'a', ')', 'b', '@'].map (ofChar · (.start 0))) =
      .ok [.group [.leaf ⟨"if", .start 0⟩, .group [.leaf (.ofChar 'a' (.start 0))] .paren .space (.start 0),
        .group [.leaf (.ofChar 'b' (.start 0))] .brace (.statement '@') (.start 0)] .line .space (.start 0)] :=
  Layout.readStatements_replace {} { separator := '@' } (by decide) (by decide) 0
    (⟨"if", .start 0⟩ :: ['(', 'a', ')', 'b', ';'].map (ofChar · (.start 0))) (by decide)

end ScoreScript
