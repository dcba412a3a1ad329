import ScoreScript.Compiler
import ScoreScript.Proofs.Compile.Statements

/-!
# Compiling a text

An engine of a depth keeps the rules for everything within that budget, and the engine for a text is
deep enough for the text. The scripts that the compiler makes up hold no operation on truth values,
so they make up none in turn.
-/

namespace ScoreScript

namespace Engine

open Compile

variable {terms : Terms} {config : Config}

section

variable {engine : Engine} {generate : String → Position → Compile String} (suits : terms.Suits config)
  (unnamed : terms.plain = false → terms.names = [])

include suits unnamed

/-- Nothing is within a budget of nothing. -/
theorem lawful_zero (generates : terms.plain = false → Generates engine.generate config terms) :
    engine.Lawful config terms 0 := by
  refine ⟨suits, unnamed, ?_, ?_, generates⟩
  · intro s items pos _ _ evaluable
    exact absurd evaluable.size (Nat.not_lt_zero _)
  · intro _ s tree _ _ within
    exact absurd within.weight (Nat.not_succ_le_zero _)

omit suits unnamed in
theorem Lawful.deeper {depth : Nat} (lawful : engine.Lawful config terms depth)
    (generates : terms.plain = false → Generates generate config terms) :
    Lawful ⟨engine.evaluateSequence, engine.writeStatement, generate⟩ config terms (depth + 1) := by
  refine ⟨lawful.suits, lawful.unnamed, ?_, ?_, generates⟩
  · rintro s items pos ready rfl evaluable
    exact lawful.evaluateSequence_behaves ready evaluable
  · rintro changing s tree ready rfl within words
    exact lawful.writeStatement_behaves ready changing ⟨within, words⟩

theorem ofDepth_lawful (generates : terms.plain = false → Generates generate config terms) (depth : Nat) :
    (ofDepth generate depth).Lawful config terms depth := by
  induction depth with
  | zero => exact lawful_zero suits unnamed generates
  | succ depth ih => exact ih.deeper generates

end

theorem depthFor_enough {layout : Layout} {text : String} {tokens : List Token} (few : tokens.length ≤ text.length) :
    Token.weigh layout.separator false tokens + 2 ≤ depthFor text.length := by
  have := Token.weigh_le_length layout.separator false tokens
  unfold depthFor
  omega

/-- Scripts made up are compiled well by engines that keep the rules where no names are generated. -/
theorem compileScript_generates {engineFor : String → Engine} (lawful : ∀ (inner : Terms) (script : String),
      inner.plain = true → inner.Suits config → (engineFor script).Lawful config inner (depthFor script.length))
    (suits : terms.Suits config) :
    Generates (fun script pos => (engineFor script).compileScript script pos) config terms := by
  rintro s names script texts pos ready used rfl spells allows
  obtain ⟨scope, found⟩ := ScopeTree.exists_of_lt_size ready.sound.current
  let inner : Terms := { terms with names, plain := true, still := false }
  have tokenized : s.layout.tokenizeAt script pos =
      .ok (texts.map (fun text => ⟨text, pos⟩)) := tokenizeAt_of_spells spells pos
  have few := (Token.tokenizeAt_atMost s.source s.config.separator script pos).2 _ tokenized
  dsimp only
  rw [compileScript]
  refine .get_bind (.ok_bind (a := texts.map (fun text => ⟨text, pos⟩)) (by rw [runFrom_lift, tokenized]) ?_)
  refine @compileUnit_behaves terms s _ ready scope found pos _ inner rfl rfl ?_
  have inside : (s.entered scope pos).Ready inner := used.entered found pos
  refine Lawful.compileTokens_behaves (s := s.entered scope pos) (lawful inner script rfl suits) inside rfl
    ⟨?_, ?_⟩
  · intro token mem
    obtain ⟨text, isText, rfl⟩ := List.mem_map.mp mem
    exact ⟨(allows text isText).named, (allows text isText).plain⟩
  · exact @depthFor_enough s.layout script _ few

theorem generateWithin_generates (suits : terms.Suits config) (generations : Nat) :
    Generates (generateWithin (generations + 1)) config terms :=
  @compileScript_generates terms config (fun script => ofDepth (generateWithin generations) (depthFor script.length))
    (fun _ _ plain suits => ofDepth_lawful suits (fun busy => nomatch plain.symm.trans busy)
      (fun busy => nomatch plain.symm.trans busy) _) suits

theorem forText_lawful (suits : terms.Suits config) (unnamed : terms.plain = false → terms.names = []) (text : String) :
    (forText text).Lawful config terms (depthFor text.length) :=
  ofDepth_lawful suits unnamed (fun _ => generateWithin_generates suits _) _

end Engine

def Terms.free : Terms :=
  { isGuarded := fun _ => False, names := [], plain := false, still := false }

theorem Terms.not_guards_free : ¬ Terms.free.Guards :=
  not_or.mpr ⟨nofun, fun ⟨_, impossible⟩ => impossible⟩

namespace State

/-- The state in which the statements of a script are compiled. -/
def begun (config : Config) (src : Nat) : State :=
  { ((start config src).nest 0 { name := "", parent := none } config.entry).addUnit 1
      (Position.start src) with current := 1 }

theorem steps_begun (config : Config) (src : Nat) : Steps (start config src) (begun config src) := by
  have nested : Step (start config src)
      ((start config src).nest 0 { name := "", parent := none } config.entry) := .entry rfl rfl
  have marked : Step ((start config src).nest 0 { name := "", parent := none } config.entry)
      (((start config src).nest 0 { name := "", parent := none } config.entry).addUnit 1
        (Position.start src)) := .unit rfl rfl
  exact ((Relation.ReflTransGen.single nested).tail marked).tail (.move (show 1 < 2 by decide))

theorem ready_begun {config : Config} (usable : config.Usable) (src : Nat) :
    (begun config src).Ready Terms.free where
  sound := Steps.sound (steps_begun config src) usable (sound_start config src)
  usable := usable
  below := Nat.one_pos
  allocated := fun _ _ found => nomatch found
  shielded := fun _ impossible => impossible.elim
  names := fun _ mem => nomatch mem
  making := rfl
  unit := ⟨_, rfl, rfl⟩

theorem pathAt_begun {config : Config} (usable : config.Usable) (src : Nat) :
    (begun config src).pathAt 1 = config.entry := by
  have sound := (ready_begun usable src).sound
  have found : (begun config src).scopes.scopes[1]? =
      some { name := config.entry, parent := some 0, isUnit := true } := rfl
  obtain ⟨outer, _, below, joined⟩ := sound.segments_child usable found Nat.one_pos
  obtain rfl : outer = 0 := Nat.lt_one_iff.mp below
  rw [pathAt, joined, ScopeTree.segments_root sound.rooted]
  exact String.intercalate_singleton

end State

namespace Compile

theorem runFrom_openEntry (config : Config) {src : Nat} :
    openEntry.runFrom (State.start config src) = (.ok 1, State.begun config src) := by
  rfl

end Compile

namespace Engine

open Compile

variable {config : Config}

theorem compileEntry_begins {engine : Engine} {src : Nat} {text : String} {t : State}
    (ran : (engine.compileEntry text).runFrom (State.start config src) = (.ok (), t)) :
    ∃ tokens, Token.tokenize src config.separator text = .ok tokens ∧
      (inScope 1 (engine.compileTokens tokens)).runFrom (State.begun config src) = (.ok (), t) := by
  obtain ⟨_, _, got, ran⟩ := runFrom_bind_eq_ok.mp ran
  cases got
  obtain ⟨tokens, _, cut, ran⟩ := runFrom_bind_eq_ok.mp ran
  rw [runFrom_lift] at cut
  obtain ⟨tokenized, rfl⟩ := Prod.mk.inj cut
  obtain ⟨scope, _, opened, ran⟩ := runFrom_bind_eq_ok.mp ran
  rw [runFrom_openEntry] at opened
  cases opened
  exact ⟨tokens, tokenized, ran⟩

theorem Lawful.compileEntry_ends {engine : Engine} {text : String}
    (lawful : engine.Lawful config .free (depthFor text.length)) (usable : config.Usable) (src : Nat) :
    Ends (engine.compileEntry text) (State.start config src)
      (fun t => t = State.start config src ∨ State.Grows .free (State.begun config src) t)
      (fun _ t => State.Grows .free (State.begun config src) t ∧ (State.begun config src).Covers t) := by
  obtain ⟨blameless, few⟩ := Token.tokenize_atMost src config.separator text
  unfold compileEntry
  refine Ends.get_bind ?_
  refine Ends.bind (m := fun tokens t => t = State.start config src ∧
    Token.tokenize src config.separator text = .ok tokens)
    (Ends.lift (.inl rfl) blameless (fun _ read => ⟨rfl, read⟩)) ?_
  rintro tokens _ _ ⟨rfl, read⟩
  refine Ends.ok_bind (runFrom_openEntry config) ?_
  have compiles : Behaves .free (State.begun config src) (engine.compileTokens tokens) (fun _ _ => True) := by
    refine Lawful.compileTokens_behaves (s := State.begun config src) lawful
      (State.ready_begun usable src) rfl ⟨?_, ?_⟩
    · exact fun _ _ => ⟨.inl Terms.not_guards_free, fun impossible => by cases impossible⟩
    · exact @depthFor_enough ⟨src, config.separator⟩ text tokens (few tokens read)
  refine Ends.inScope (Ends.mono compiles ?_ ?_)
  · intro t grows
    have same : { t with current := (State.begun config src).current } = t := by
      rw [← grows.current]
    rw [same]
    exact .inr grows
  · intro _ t grows result
    have same : { t with current := (State.begun config src).current } = t := by
      rw [← grows.current]
    rw [same]
    exact ⟨grows, result.1⟩

theorem compileEntry_ends (usable : config.Usable) (src : Nat) (text : String) :
    Ends ((forText text).compileEntry text) (State.start config src)
      (fun t => t = State.start config src ∨ State.Grows .free (State.begun config src) t)
      (fun _ t => State.Grows .free (State.begun config src) t ∧ (State.begun config src).Covers t) :=
  (forText_lawful (.inl Terms.not_guards_free) (fun _ => rfl) text).compileEntry_ends usable src

end Engine

end ScoreScript
