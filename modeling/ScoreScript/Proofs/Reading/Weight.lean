import ScoreScript.Proofs.Names

/-!
# The weight of a token list

How deep a script can nest is bounded by the weight of its words. A statement separator and a
closing brace weigh nothing. A word that a body without braces can start with weighs more than other
words by an opening brace: so a body weighs no more with braces put around it, and the words that a
group is taken apart into again weigh no more than those that it was made from.
-/

namespace ScoreScript

open List

variable {sep : Char}

namespace Token

variable {token : Token}

theorem text_of_isChar {c : Char} (isChar : token.isChar c = true) : token.text = String.ofList [c] := by
  unfold Token.isChar Token.single? at isChar
  split at isChar
  · next d found =>
      have same : d = c := by simpa using isChar
      rw [← String.ofList_toList (s := token.text), found, same]
  · simp at isChar

theorem isChar_of_text {c : Char} (text : token.text = String.ofList [c]) : token.isChar c = true := by
  simp [isChar, single?, text]

theorem isChar_congr {left right : Token} (same : left.text = right.text) (c : Char) :
    left.isChar c = right.isChar c := by
  simp only [isChar, single?, same]

theorem isChar_unique {c d : Char} (isChar : token.isChar c = true) (distinct : c ≠ d) : token.isChar d = false := by
  rw [Token.isChar, Token.single?, text_of_isChar isChar]
  simpa using distinct

@[simp]
theorem isChar_ofChar (c d : Char) (pos : Position) : (ofChar c pos).isChar d = (c == d) := by
  simp [isChar]

def leadsBody (token : Token) : Bool :=
  token.isChar Bracket.paren.closing || token.text == "else"

theorem leadsBody_of_isChar {c : Char} (isChar : token.isChar c = true) :
    token.leadsBody = (c == Bracket.paren.closing) := by
  have notElse : (token.text == "else") = false := by
    rw [text_of_isChar isChar, beq_eq_false_iff_ne]
    intro same
    have lengths := congrArg (fun text => text.toList.length) same
    simp at lengths
  rw [leadsBody, notElse, Bool.or_false, Token.isChar, Token.single?, text_of_isChar isChar]
  simp

def startsBare (token : Token) : Bool :=
  !(token.isChar Bracket.brace.opening || token.isChar Bracket.paren.closing ||
    token.isChar Bracket.square.closing || token.isChar Bracket.brace.closing)

/-- What a token weighs, given whether the token before it can stand before a body. -/
def cost (sep : Char) (before : Bool) (token : Token) : Nat :=
  if token.isChar sep || token.isChar Bracket.brace.closing then 0
  else if before && token.startsBare then 2 else 1

theorem cost_false_le (sep : Char) (before : Bool) (token : Token) :
    token.cost sep false ≤ token.cost sep before := by
  unfold cost
  split
  · exact Nat.le_refl _
  · rw [Bool.false_and, if_neg Bool.false_ne_true]
    split <;> decide

private theorem cost_congr {left right : Token} (same : left.text = right.text)
    (before : Bool) : left.cost sep before = right.cost sep before := by
  have starts : left.startsBare = right.startsBare := by simp only [startsBare, isChar_congr same]
  unfold cost
  rw [isChar_congr same, isChar_congr same, starts]

theorem cost_separator {sep : Char} (isSeparator : token.isChar sep = true)
    (before : Bool) : token.cost sep before = 0 := by
  simp [cost, isSeparator]

def weigh (sep : Char) : Bool → List Token → Nat
  | _, [] => 0
  | before, token :: tokens =>
    token.cost sep before + weigh sep token.leadsBody tokens

def endsLeading : Bool → List Token → Bool
  | before, [] => before
  | _, token :: tokens => endsLeading token.leadsBody tokens

theorem weigh_append (before : Bool) (left right : List Token) : weigh sep before (left ++ right) =
      weigh sep before left + weigh sep (endsLeading before left) right := by
  induction left generalizing before with
  | nil => simp [weigh, endsLeading]
  | cons token rest ih =>
    simp only [cons_append, weigh, endsLeading, ih]
    omega

theorem endsLeading_append (before : Bool) (left right : List Token) :
    endsLeading before (left ++ right) = endsLeading (endsLeading before left) right := by
  induction left generalizing before with
  | nil => rfl
  | cons token rest ih => simp only [cons_append, endsLeading, ih]

theorem weigh_false_le (sep : Char) (before : Bool) (tokens : List Token) :
    weigh sep false tokens ≤ weigh sep before tokens := by
  cases tokens with
  | nil => exact Nat.le_refl _
  | cons token rest => exact Nat.add_le_add_right (token.cost_false_le sep before) _

theorem weigh_le_append (sep : Char) (before : Bool) (left middle right : List Token) :
    weigh sep false middle ≤ weigh sep before (left ++ (middle ++ right)) := by
  rw [weigh_append, weigh_append]
  have := weigh_false_le sep (endsLeading before left) middle
  omega

theorem weigh_le_length (sep : Char) (before : Bool) (tokens : List Token) :
    weigh sep before tokens ≤ 2 * tokens.length := by
  induction tokens generalizing before with
  | nil => exact Nat.le_refl _
  | cons token rest ih =>
    have := ih token.leadsBody
    have : token.cost sep before ≤ 2 := by
      unfold cost
      split
      · omega
      · split <;> omega
    simp only [weigh, length_cons]
    omega

/-- The token only holds statements together, and may be put in or left out. -/
def IsFiller (sep : Char) (token : Token) : Prop :=
  token.isChar sep = true ∨ token.isChar Bracket.brace.opening = true ∨ token.isChar Bracket.brace.closing = true

def Stems (sep : Char) (tokens shaped : List Token) : Prop :=
  ∀ token ∈ shaped, token.IsFiller sep ∨ ∃ other ∈ tokens, other.text = token.text

theorem IsFiller.congr {sep : Char} {left right : Token} (filler : left.IsFiller sep)
    (same : left.text = right.text) : right.IsFiller sep := by
  unfold IsFiller at filler ⊢
  simpa only [isChar_congr same] using filler

namespace Stems

variable {sep : Char} {a b c d : List Token}

theorem of_mem (inside : ∀ token ∈ b, token ∈ a) : Stems sep a b :=
  fun token mem => .inr ⟨token, inside token mem, rfl⟩

theorem trans (first : Stems sep a b) (second : Stems sep b c) : Stems sep a c := by
  intro token mem
  rcases second token mem with filler | ⟨other, inside, same⟩
  · exact .inl filler
  · rcases first other inside with filler | ⟨last, inside', same'⟩
    · exact .inl (filler.congr same)
    · exact .inr ⟨last, inside', same'.trans same⟩

theorem append (first : Stems sep a b) (second : Stems sep c d) : Stems sep (a ++ c) (b ++ d) := by
  intro token mem
  rcases mem_append.mp mem with inside | inside
  · rcases first token inside with filler | ⟨other, there, same⟩
    · exact .inl filler
    · exact .inr ⟨other, mem_append_left _ there, same⟩
  · rcases second token inside with filler | ⟨other, there, same⟩
    · exact .inl filler
    · exact .inr ⟨other, mem_append_right _ there, same⟩

end Stems

/-- One token list was made into another that starts and ends the same and weighs no more. -/
structure Reshapes (sep : Char) (tokens shaped : List Token) : Prop where
  head : shaped.head?.map text = tokens.head?.map text
  weigh : ∀ before, weigh sep before shaped ≤ Token.weigh sep before tokens
  leads : ∀ before, endsLeading before shaped = endsLeading before tokens
  stems : Stems sep tokens shaped

namespace Reshapes

variable {sep : Char}

theorem refl (tokens : List Token) : Reshapes sep tokens tokens :=
  ⟨rfl, fun _ => Nat.le_refl _, fun _ => rfl, .of_mem (fun _ => id)⟩

theorem trans {a b c : List Token} (first : Reshapes sep a b)
    (second : Reshapes sep b c) : Reshapes sep a c where
  head := second.head.trans first.head
  weigh := fun before => Nat.le_trans (second.weigh before) (first.weigh before)
  leads := fun before => (second.leads before).trans (first.leads before)
  stems := first.stems.trans second.stems

theorem append {a b c d : List Token} (first : Reshapes sep a b)
    (second : Reshapes sep c d) : Reshapes sep (a ++ c) (b ++ d) where
  head := by
    have head := first.head
    cases a with
    | nil =>
      cases b with
      | nil => exact second.head
      | cons token tokens => cases head
    | cons token tokens =>
      cases b with
      | nil => cases head
      | cons other others => exact head
  weigh := by
    intro before
    rw [weigh_append, weigh_append, first.leads]
    exact Nat.add_le_add (first.weigh before) (second.weigh _)
  leads := by
    intro before
    rw [endsLeading_append, endsLeading_append, first.leads, second.leads]
  stems := first.stems.append second.stems

theorem of_texts {tokens shaped : List Token}
    (same : shaped.map Token.text = tokens.map Token.text) : Reshapes sep tokens shaped := by
  induction tokens generalizing shaped with
  | nil =>
    rw [map_eq_nil_iff.mp same]
    exact refl []
  | cons token rest ih =>
    cases shaped with
    | nil => cases same
    | cons first others =>
      obtain ⟨head, tail⟩ := cons.inj same
      have later := ih tail
      have leads : first.leadsBody = token.leadsBody := by
        simp only [leadsBody, isChar_congr head, head]
      refine ⟨congrArg some head, ?_, ?_, ?_⟩
      · intro before
        simp only [Token.weigh, cost_congr head, leads]
        exact Nat.add_le_add_left (later.weigh _) _
      · intro before
        simp only [endsLeading, leads, later.leads]
      · intro other mem
        rcases mem_cons.mp mem with rfl | inside
        · exact .inr ⟨token, mem_cons_self .., head.symm⟩
        · rcases later.stems other inside with filler | ⟨old, there, text⟩
          · exact .inl filler
          · exact .inr ⟨old, mem_cons_of_mem _ there, text⟩

end Reshapes

end Token

end ScoreScript
