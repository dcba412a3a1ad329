import ScoreScript.Proofs.Positions.Entry

/-!
# Positions do not show in the output

Blanks, line breaks and comments move the words of a script and change nothing else. Two scripts with
the same words are compiled into the same package, or are refused for the same cause, which differs
at most in where it is reported.
-/

namespace ScoreScript

open Compile

theorem compileSource_concur (config : Config) {src source' : Nat} {text text' : String}
    {tokens others : List Token} (tokenized : Token.tokenize src config.separator text = .ok tokens)
    (tokenized' : Token.tokenize source' config.separator text' = .ok others)
    (texts : Token.Sames Tree.Anywhere tokens others) :
    Concur Tree.Anywhere Eq (compileSource src text config) (compileSource source' text' config) := by
  have few := (Token.tokenize_atMost src config.separator text).2 tokens tokenized
  have few' := (Token.tokenize_atMost source' config.separator text').2 others tokenized'
  have deep := @Engine.depthFor_enough ⟨src, config.separator⟩ text tokens few
  have deep' := @Engine.depthFor_enough ⟨src, config.separator⟩ text' tokens (texts.length_eq ▸ few')
  have alike : Engine.Alike (.anywhere config.separator) _ (Engine.forText text) (Engine.forText text') :=
    Engine.forText_alike trivial (fun _ _ => trivial) deep deep'
  obtain ⟨outcomes, states⟩ := alike.compileEntry ⟨.start (fun _ => rfl) trivial, False.elim⟩ tokenized
    tokenized' texts (fun _ => Nat.le_refl _)
  apply outcomes.bind
  intro _ _ _
  exact State.flush_concur (fun _ _ => trivial) states

/-- Two scripts with the same words give the same package, or fail with faults of the same kind and
wording. -/
theorem compileSource_ignoresPositions (config : Config) (src source' : Nat) (text text' : String)
    (tokens others : List Token) (tokenized : Token.tokenize src config.separator text = .ok tokens)
    (tokenized' : Token.tokenize source' config.separator text' = .ok others)
    (texts : tokens.map Token.text = others.map Token.text) :
    (∃ pkg, compileSource src text config = .ok pkg ∧ compileSource source' text' config = .ok pkg) ∨
    ∃ fault fault', compileSource src text config = .error fault ∧
      compileSource source' text' config = .error fault' ∧ fault.kind = fault'.kind ∧
        fault.message = fault'.message := by
  have concur := compileSource_concur config tokenized tokenized' (Token.sames_anywhere_iff.mpr texts)
  generalize compileSource src text config = first at concur ⊢
  generalize compileSource source' text' config = second at concur ⊢
  cases concur with
  | @ok pkg _ same =>
    cases same
    exact .inl ⟨pkg, rfl, rfl⟩
  | @error fault fault' same =>
    refine .inr ⟨fault, fault', rfl, rfl, ?_, ?_⟩
    · exact congrArg Cause.kind same.1
    · exact congrArg Cause.message same.1

def compactScript : String :=
  "int a = 1;bool b = !(a > 2);if(b)a = 4;else a = 5;"

def spreadScript : String :=
  "int a = 1; // one\nbool b\n  = !(a > 2) ;\n\n\tif ( b ) // small\n  a = 4 ; else\n  a = 5;"

theorem compileSource_ignoresPositions_spread : ∃ tokens others,
    Token.tokenize 0 ({} : Config).separator compactScript = .ok tokens ∧
      Token.tokenize 7 ({} : Config).separator spreadScript = .ok others ∧ tokens ≠ others ∧
        ∃ pkg, compileSource 0 compactScript {} = .ok pkg ∧ compileSource 7 spreadScript {} = .ok pkg := by
  obtain ⟨tokens, others, tokenized, tokenized', moved, texts⟩ : ∃ tokens others,
      Token.tokenize 0 ({} : Config).separator compactScript = .ok tokens ∧
        Token.tokenize 7 ({} : Config).separator spreadScript = .ok others ∧ tokens ≠ others ∧
          tokens.map Token.text = others.map Token.text := by
    refine ⟨(Token.tokenize 0 ({} : Config).separator compactScript).toOption.getD [],
      (Token.tokenize 7 ({} : Config).separator spreadScript).toOption.getD [], ?_⟩
    decide +kernel
  refine ⟨tokens, others, tokenized, tokenized', moved, ?_⟩
  rcases compileSource_ignoresPositions {} 0 7 compactScript spreadScript tokens others tokenized
    tokenized' texts with compiled | ⟨fault, _, failed, _⟩
  · exact compiled
  · have succeeds : (compileSource 0 compactScript {}).toOption.isSome = true := by decide +kernel
    rw [failed] at succeeds
    cases succeeds

end ScoreScript
