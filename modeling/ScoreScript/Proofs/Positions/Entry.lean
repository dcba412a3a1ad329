import ScoreScript.Proofs.Compile.Entry
import ScoreScript.Proofs.Positions.Values

/-!
# Whole texts, whatever the positions

Engines are alike within a budget when both are at least as deep, so the engine for a text does the
same as a deeper one. A script that the compiler makes up is cut into words with the same texts
wherever it stands, and states that are alike are written out as the same package.
-/

namespace ScoreScript

variable {sep : Char}

/-! ## Words -/

namespace Token

variable {place : Position → Position → Prop} {p q : Position}

/-- The readings differ at most in where a word starts. -/
inductive Reading.Same (place : Position → Position → Prop) : Reading → Reading → Prop where
  | between : Same place .between .between
  | comment : Same place .comment .comment
  | word {p q : Position} {read : List Char} (placed : place p q) : Same place (.word p read) (.word q read)
  | literal {p q : Position} {read : List Char} {escaped : Bool} (placed : place p q) :
      Same place (.literal p read escaped) (.literal q read escaped)

/-- Where a text stands does not change the texts of its words, and they stand where its characters do. -/
theorem scan_concur (chars : List Char) {a b : Reading} (same : a.Same place b)
    (held : ∀ before c after, chars = before ++ c :: after → place (p.along before) (q.along before)) :
    Concur place (Sames place) (scan sep a p chars) (scan sep b q chars) := by
  induction chars generalizing a b p q with
  | nil =>
    cases same with
    | between => exact .ok .nil
    | comment => exact .ok .nil
    | word placed => exact .ok (.cons ⟨rfl, placed⟩ .nil)
    | literal placed => exact .fail _ placed
  | cons c rest ih =>
    have here : place p q := held [] c rest rfl
    have next {a b : Reading} (same : a.Same place b) : Concur place (Sames place)
        (scan sep a (p.advance c) rest) (scan sep b (q.advance c) rest) :=
      ih same (fun before d after split => held (c :: before) d after (by rw [split, List.cons_append]))
    have one {text : String} {x y : Position} (placed : place x y) {a b : Reading}
        (same : a.Same place b) : Concur place (Sames place)
          (do return ⟨text, x⟩ :: (← scan sep a (p.advance c) rest))
          (do return ⟨text, y⟩ :: (← scan sep b (q.advance c) rest)) := by
      apply (next same).bind
      exact fun words words' texts => .ok (.cons ⟨rfl, placed⟩ texts)
    cases same with
    | between =>
      rw [scan, scan]
      split
      · exact next .between
      split
      · exact next .comment
      split
      · exact next (.literal here)
      split
      · exact one here .between
      · exact next (.word here)
    | comment =>
      rw [scan, scan]
      split
      · exact next .between
      · exact next .comment
    | word placed =>
      rw [scan, scan]
      split
      · exact one placed .between
      split
      · exact one placed (.literal here)
      split
      · apply (next .between).bind
        exact fun words words' texts => .ok (.cons ⟨rfl, placed⟩ (.cons ⟨rfl, here⟩ texts))
      · exact next (.word placed)
    | literal placed =>
      rw [scan, scan]
      split
      · exact next (.literal placed)
      split
      · exact next (.literal placed)
      split
      · exact one placed .between
      split
      · exact .fail _ placed
      · exact next (.literal placed)

theorem tokenizeAt_concur {src source' : Nat} {text : String} (placed : place p q)
    (safe : '"' ∉ text.toList ∨ ∀ x y, place x y) :
    Concur place (Sames place) (tokenizeAt src sep text p) (tokenizeAt source' sep text q) := by
  have concur : Concur Tree.Anywhere (Sames Tree.Anywhere) (tokenize src sep text)
      (tokenize source' sep text) := scan_concur text.toList .between (fun _ _ _ _ => trivial)
  rw [tokenizeAt, tokenizeAt]
  cases read : tokenize src sep text with
  | ok tokens =>
    rw [read] at concur
    generalize tokenize source' sep text = other at concur
    cases concur with
    | ok texts =>
      refine .ok (List.forall₂_map_left_iff.mpr (List.forall₂_map_right_iff.mpr ?_))
      exact texts.imp (fun _ _ same => ⟨same.1, placed⟩)
  | error fault =>
    rcases safe with unquoted | anywhere
    · obtain ⟨_, before, literal, cut, _⟩ := unclosed_of_tokenize read
      exact absurd (cut.append ▸ List.mem_append_right before (.head literal)) unquoted
    · rw [read] at concur
      generalize tokenize source' sep text = other at concur
      cases concur with
      | error same => exact .error ⟨same.1, .inl (anywhere _ _)⟩

end Token

/-! ## Engines -/

namespace Engine

open Compile
open Tree (Same Sames sizes)

variable {f : Footing} {budget : Nat} {engine engine' : Engine} {p q : Position}

/-- Two engines do the same, up to positions, with all that is within a budget. -/
structure Alike (f : Footing) (budget : Nat) (engine engine' : Engine) : Prop where
  evaluate : ∀ {items items' : List Tree}, Sames f.place items items' → (f.bounded → sizes items < budget) →
    ∀ {p q : Position}, f.place p q → Tallies f Eq (engine.evaluate items p) (engine'.evaluate items' q) (fun _ => True)
  write : ∀ {tree tree' : Tree}, Same f.place tree tree' → (f.bounded → tree.Within f.separator budget) →
    Tallies f Eq (engine.write tree) (engine'.write tree') (fun _ => True)
  generate : ∀ {script : String} {p q : Position}, (f.strict → '"' ∉ script.toList) → f.place p q →
    Tallies f Eq (engine.generate script p) (engine'.generate script q) IsLine

theorem Exchange.tallies {α : Type} {step step' : Compile α} {post : α → Prop}
    (exchange : Exchange f budget engine engine' step step' post) (alike : engine.Alike f budget engine') :
    Tallies f Eq step step' post := by
  induction exchange with
  | result holds => exact .result holds
  | composed composed placed => exact composed.tallies placed
  | evaluate same small placed => exact alike.evaluate same small placed
  | write same within => exact alike.write same within
  | generate plain placed => exact alike.generate plain placed
  | bind _ _ first rest => exact first.seq rest
  | get_bind _ rest => exact .get_bind rest
  | var_bind id _ rest => exact .var_bind id rest
  | lift_bind concur _ _ rest =>
    exact Coincide.bind (.lift concur.known) (fun b b' same => rest b b' same.1 same.2)
  | @inUnit _ _ _ _ _ _ _ inside =>
    refine (openUnit_alike.tallies (State.lasting_fitsLines f.strict).openUnit).seq (fun unit isPath => ?_)
    exact (inside.inScope unit.2).seq (fun _ _ => .result isPath)

theorem Alike.compileScript {script : String} (alike : Alike f (depthFor script.length) engine engine')
    (safe : '"' ∉ script.toList ∨ ∀ x y, f.place x y) (placed : f.place p q) :
    Tallies f Eq (engine.compileScript script p) (engine'.compileScript script q) IsLine := by
  refine .get_bind (fun s t states _ => ?_)
  have tokenized : Concur f.place (Token.Sames f.place) (s.layout.tokenizeAt script p)
      (t.layout.tokenizeAt script q) := by
    rw [Layout.tokenizeAt, Layout.tokenizeAt, states.layout.separator]
    exact Token.tokenizeAt_concur placed safe
  refine Coincide.bind (.lift tokenized.known) ?_
  rintro tokens others ⟨texts, isTokens⟩
  refine Exchange.tallies (.compileUnit texts (fun bounded => ?_) placed) alike
  have few := (Token.tokenizeAt_atMost _ _ script p).2 _ isTokens
  rw [← states.separator bounded]
  exact @depthFor_enough s.layout script tokens few

variable {generate generate' : String → Position → Compile String}
  (generates : ∀ {script : String} {p q : Position}, (f.strict → '"' ∉ script.toList) → f.place p q →
    Tallies f Eq (generate script p) (generate' script q) IsLine)

include generates

theorem ofDepth_alike (bounded : f.bounded) {depth depth' : Nat} (deep : budget ≤ depth)
    (deep' : budget ≤ depth') : Alike f budget (ofDepth generate depth) (ofDepth generate' depth') := by
  induction budget generalizing depth depth' with
  | zero =>
    refine ⟨fun _ small => absurd (small bounded) (Nat.not_lt_zero _), fun _ within => ?_, fun plain => ?_⟩
    · exact absurd (within bounded).weight (Nat.not_succ_le_zero _)
    · cases depth <;> cases depth' <;> exact generates plain
  | succ budget ih =>
    cases depth with
    | zero => exact absurd deep (Nat.not_succ_le_zero _)
    | succ depth =>
    cases depth' with
    | zero => exact absurd deep' (Nat.not_succ_le_zero _)
    | succ depth' =>
    have alike := ih (Nat.le_of_succ_le_succ deep) (Nat.le_of_succ_le_succ deep')
    exact
      { evaluate := fun same small _ _ placed =>
          (Exchange.evaluateSequence same (fun bounded => Nat.le_of_lt_succ (small bounded)) placed).tallies
            alike
        write := fun same within => (Exchange.writeStatement same within).tallies alike
        generate := generates }

theorem ofDepth_alike_same (unbounded : ¬ f.bounded) (depth : Nat) :
    Alike f budget (ofDepth generate depth) (ofDepth generate' depth) := by
  induction depth with
  | zero =>
    exact ⟨fun _ _ _ _ placed => .throw _ placed, fun same _ => .throw _ same.position, generates⟩
  | succ depth ih =>
    exact
      { evaluate := fun same _ _ _ placed =>
          (Exchange.evaluateSequence same (absurd · unbounded) placed).tallies ih
        write := fun same _ => (Exchange.writeStatement same (absurd · unbounded)).tallies ih
        generate := generates }

omit generates

theorem generateWithin_alike (safe : f.strict ∨ ∀ x y, f.place x y) (generations : Nat) {script : String}
    (plain : f.strict → '"' ∉ script.toList) (placed : f.place p q) :
    Tallies f Eq (generateWithin generations script p) (generateWithin generations script q) IsLine := by
  induction generations generalizing script p q with
  | zero => exact .throw _ placed
  | succ generations ih =>
    have alike : Alike f (depthFor script.length) (ofDepth (generateWithin generations) (depthFor script.length))
        (ofDepth (generateWithin generations) (depthFor script.length)) := by
      by_cases bounded : f.bounded
      · exact ofDepth_alike ih bounded (Nat.le_refl _) (Nat.le_refl _)
      · exact ofDepth_alike_same ih bounded _
    rw [generateWithin, generateWithin]
    exact alike.compileScript (safe.imp_left plain) placed

theorem forText_alike (bounded : f.bounded) (anywhere : ∀ x y, f.place x y) {text text' : String}
    (deep : budget ≤ depthFor text.length) (deep' : budget ≤ depthFor text'.length) :
    Alike f budget (forText text) (forText text') :=
  ofDepth_alike (generateWithin_alike (.inr anywhere) generationLimit) bounded deep deep'

theorem Alike.compileEntry (alike : Alike f budget engine engine') {s t : State} (states : s.Tally f t)
    {text text' : String} {tokens others : List Token} (tokenized : s.layout.tokenize text = .ok tokens)
    (tokenized' : t.layout.tokenize text' = .ok others) (texts : Token.Sames f.place tokens others)
    (light : f.bounded → Token.weigh f.separator false tokens + 2 ≤ budget) :
    Concur f.place Eq ((engine.compileEntry text).runFrom s).1 ((engine'.compileEntry text').runFrom t).1 ∧
      State.Alike f ((engine.compileEntry text).runFrom s).2 ((engine'.compileEntry text').runFrom t).2 := by
  have compiled : Tallies f Eq (do
        let scope ← openEntry
        inScope scope (engine.compileTokens tokens))
      (do
        let scope ← openEntry
        inScope scope (engine'.compileTokens others)) (fun _ => True) := by
    refine (openEntry_alike.tallies (State.lasting_fitsLines f.strict).openEntry).seq (fun scope _ => ?_)
    exact ((Exchange.compileTokens texts light).tallies alike).inScope scope
  have step (engine : Engine) {s : State} {text : String} {tokens : List Token}
      (tokenized : s.layout.tokenize text = .ok tokens) :
      (engine.compileEntry text).runFrom s =
        (do
          let scope ← openEntry
          inScope scope (engine.compileTokens tokens)).runFrom s := by
    rw [Engine.compileEntry, runFrom_bind_ok runFrom_get]
    exact runFrom_bind_ok (by rw [runFrom_lift, tokenized]) _
  rw [step engine tokenized, step engine' tokenized']
  obtain ⟨outcomes, after, _⟩ := compiled s t states
  exact ⟨outcomes.mono (fun _ _ same => same.1), after⟩

end Engine

/-! ## Packages -/

namespace State

variable {f : Footing} {s t : State} (anywhere : ∀ x y, f.place x y) (alike : s.Alike f t)

include alike

theorem entryCommands_concur (phase : Phase) (entry : Entry) :
    Concur f.place Eq (s.entryCommands phase entry) (t.entryCommands phase entry) := by
  unfold entryCommands
  cases entry.event with
  | emitted emission => exact .ok rfl
  | declared id =>
    have vars := alike.vars id
    dsimp only
    generalize s.vars[id]? = found at vars
    generalize t.vars[id]? = found' at vars
    cases vars with
    | none => exact .error ⟨rfl, .inr ⟨rfl, rfl⟩⟩
    | some related =>
      obtain ⟨pos, rfl, _⟩ := related
      exact .ok rfl

theorem phaseCommands_concur (phase : Phase) (entries : List Entry) :
    Concur f.place Eq (s.phaseCommands phase entries) (t.phaseCommands phase entries) := by
  induction entries with
  | nil => exact .ok rfl
  | cons entry entries ih =>
    apply (entryCommands_concur alike phase entry).bind
    rintro first _ rfl
    apply ih.bind
    rintro rest _ rfl
    exact .ok rfl

theorem unitFunctions_concur (units : List (String × List Entry)) (functions : List (String × List Command)) :
    Concur f.place Eq (s.unitFunctions units functions) (t.unitFunctions units functions) := by
  induction units generalizing functions with
  | nil => exact .ok rfl
  | cons unit units ih =>
    apply (phaseCommands_concur alike .activation unit.2).bind
    rintro cmds _ rfl
    exact ih _

include anywhere

theorem unitTable_concur {units units' : List OutputUnit} (same : List.Forall₂ OutputUnit.Alike units units') :
    Concur f.place Eq (s.unitTable units) (t.unitTable units') := by
  induction same with
  | nil => exact .ok rfl
  | cons head tail ih =>
    rw [unitTable, unitTable, head.1, head.2, alike.scopes]
    apply (Concur.refl (fun _ => anywhere _ _) _).bind
    rintro entries _ rfl
    apply ih.bind
    rintro rest _ rfl
    exact .ok rfl

theorem flush_concur : Concur f.place Eq s.flush t.flush := by
  rw [flush, flush, alike.scopes]
  apply (Concur.refl (fun _ => anywhere _ _) _).bind
  rintro outside _ rfl
  apply (unitTable_concur anywhere alike alike.units).bind
  rintro units _ rfl
  apply (phaseCommands_concur alike .setup _).bind
  rintro setup _ rfl
  apply (phaseCommands_concur alike .activation _).bind
  rintro before _ rfl
  apply (phaseCommands_concur alike .tick _).bind
  rintro tick _ rfl
  apply (phaseCommands_concur alike .teardown _).bind
  rintro teardown _ rfl
  apply (unitFunctions_concur alike units _).bind
  rintro functions _ rfl
  exact .ok (by rw [alike.config])

end State

end ScoreScript
