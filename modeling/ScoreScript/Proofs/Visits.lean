import ScoreScript.Proofs.Compile.Entry
import ScoreScript.Proofs.Compile.Output

/-!
# The statements that a compilation comes to

A compilation comes to the statements of a script one after the other, and to those in the bodies of
a statement while it writes that statement. `Engine.Visits` gives the state in which it comes to
each; what happens afterwards leaves alone what was made for the statement.
-/

namespace ScoreScript

open List

open State

variable {engine : Engine} {trees : List Tree} {s t u : State} {body cond tree : Tree}

namespace State

/-- What was there goes on being there, and of the scopes that were there only the first `old` have
got new commands. -/
structure Continues (old : Nat) (s t : State) : Prop where
  config : t.config = s.config
  scopes : ∀ (id : Nat) (scope : Scope), s.scopes.scopes[id]? = some scope →
    ∃ later, t.scopes.scopes[id]? = some later ∧ scope.Keeps later
  kept : s.emissions <+: t.emissions
  place : ∀ entry ∈ s.since t, entry.1 < old ∨ s.scopes.size ≤ entry.1

namespace Continues

variable {old old' : Nat} {s t u : State}

theorem within (continues : Continues old s t) : s.scopes.Within t.scopes := by
  intro id scope found
  obtain ⟨later, there, keeps⟩ := continues.scopes id scope found
  exact ⟨later, there, keeps.name, keeps.parent⟩

theorem mono (continues : Continues old s t) (less : old ≤ old') : Continues old' s t where
  config := continues.config
  scopes := continues.scopes
  kept := continues.kept
  place := fun entry mem => (continues.place entry mem).imp_left (Nat.lt_of_lt_of_le · less)

theorem trans (first : Continues old s t) (second : Continues old t u) : Continues old s u where
  config := second.config.trans first.config
  scopes := by
    intro id scope found
    obtain ⟨middle, isMiddle, keeps⟩ := first.scopes id scope found
    obtain ⟨last, isLast, keeps'⟩ := second.scopes id middle isMiddle
    exact ⟨last, isLast, keeps.trans keeps'⟩
  kept := first.kept.trans second.kept
  place := by
    intro entry mem
    rw [since_trans first.kept second.kept] at mem
    rcases mem_append.mp mem with before | after
    · exact first.place entry before
    · exact (second.place entry after).imp_right (Nat.le_trans first.within.size_le)

private theorem of_grows {terms : Terms} (grows : Grows terms s t) (outer : s.current < old) : Continues old s t where
  config := grows.config
  scopes := by
    intro id scope found
    obtain ⟨later, there, keeps, _⟩ := grows.scopes id scope found
    exact ⟨later, there, keeps⟩
  kept := grows.emits.kept
  place := by
    intro entry mem
    rcases grows.emits.place entry mem with here | later
    · exact .inl (here ▸ outer)
    · exact .inr later

theorem log (outer : s.current < old) (emission : Emission) : Continues old s (s.log emission) where
  config := rfl
  scopes := fun _ scope found => ⟨scope, found, .refl scope⟩
  kept := by
    rw [emissions_log]
    exact prefix_append _ _
  place := by
    intro entry mem
    rw [since_eq (emissions_log s emission), mem_singleton] at mem
    subst mem
    exact .inl outer

private theorem of_move {scope : Nat} (continues : Continues old { s with current := scope } t) :
    Continues old s t :=
  ⟨continues.config, continues.scopes, continues.kept, continues.place⟩

theorem move (continues : Continues old s t) (scope : Nat) : Continues old s { t with current := scope } :=
  ⟨continues.config, continues.scopes, continues.kept, continues.place⟩

theorem pathAt_eq (continues : Continues old s t) (sound : s.Sound) (sound' : t.Sound) {id : Nat}
    (inside : id < s.scopes.size) : t.pathAt id = s.pathAt id := by
  rw [pathAt, pathAt, continues.within.segments_eq sound.rooted sound'.rooted inside]

theorem commandsAt_eq (continues : Continues old s t) {id : Nat} (later : old ≤ id)
    (inside : id < s.scopes.size) : t.commandsAt id = s.commandsAt id := by
  have none : commandsOf (s.since t) id = [] := by
    refine commandsOf_eq_nil (fun entry mem => ?_)
    rcases continues.place entry mem with before | after
    · omega
    · omega
  rw [State.commandsAt_eq continues.kept, none, append_nil]

end Continues

end State

def Terms.wary : Terms :=
  { isGuarded := fun _ => True, names := [], plain := false, still := false }

theorem Terms.Allows.of_wary {config : Config} {word : String} (allows : wary.Allows config word)
    {terms : Terms} (busy : terms.plain = false) : terms.Allows config word := by
  refine ⟨?_, fun plain => ?_⟩
  · rcases allows.named with impossible | named | mem
    · exact absurd (.inr ⟨⟨"", ""⟩, trivial⟩) impossible
    · exact .inr (.inl named)
    · cases mem
  · rw [busy] at plain
    cases plain

namespace Engine

open Compile

variable {terms : Terms} {config : Config} {budget : Nat}

theorem Writable.of_wary (writable : Writable .wary config budget tree) (busy : terms.plain = false) :
    Writable terms config budget tree :=
  ⟨writable.toWithin, fun tree mem token inside =>
    (writable.words tree mem token inside).of_wary busy⟩

variable {tokens : List Token}

theorem Compilable.of_wary (compilable : Compilable .wary config budget tokens)
    (busy : terms.plain = false) : Compilable terms config budget tokens :=
  ⟨fun token mem => (compilable.words token mem).of_wary busy, compilable.weight⟩

/-- While the statement is written from the state `s`, the body is compiled from the state `t`. -/
inductive CompilesBody (engine : Engine) (s : State) (tree : Tree) : State → Tree → Prop where
  | block {body : Tree} (alone : tree.items = [body]) (isBlock : isBlock [body] = true) :
      CompilesBody engine s tree s body
  /-- A condition that is known leaves one body. -/
  | taken {cond body taken : Tree} {other : Option Tree} {score : Score} {t : State}
      (ifOf : tree.IfOf cond body other)
      (known : (engine.evaluateCondition cond).runFrom s = (.ok (.constant score), t))
      (isTaken : (if score != 0 then some body else other) = some taken) :
      CompilesBody engine s tree t taken
  | only {cond body : Tree} {src : Register} {t : State}
      (ifOf : tree.IfOf cond body none)
      (resident : (engine.evaluateCondition cond).runFrom s = (.ok (.resident src), t)) :
      CompilesBody engine s tree t body
  | first {cond body other : Tree} {src reg : Register} {t u : State}
      (ifOf : tree.IfOf cond body (some other))
      (resident : (engine.evaluateCondition cond).runFrom s = (.ok (.resident src), t))
      (guard : (guardRegister src s.vars.size cond.position).runFrom t = (.ok reg, u)) :
      CompilesBody engine s tree u body
  | second {cond body other : Tree} {src reg : Register} {t u v : State}
      (ifOf : tree.IfOf cond body (some other))
      (resident : (engine.evaluateCondition cond).runFrom s = (.ok (.resident src), t))
      (guard : (guardRegister src s.vars.size cond.position).runFrom t = (.ok reg, u))
      (called : (engine.callGuarded false reg body).runFrom u = (.ok (), v)) :
      CompilesBody engine s tree v other

/-- While an engine of the first depth writes the trees from the state `s`, it comes to the statement
`tree` in the state `t` with an engine of the second depth for what lies deeper. -/
inductive Visits (generate : String → Position → Compile String) :
    Nat → State → List Tree → Nat → State → Tree → Prop where
  | here {depth : Nat} {s : State} {tree : Tree} {trees : List Tree} :
      Visits generate (depth + 1) s (tree :: trees) depth s tree
  | later {depth below : Nat} {s t u : State} {tree tree' : Tree} {trees : List Tree}
      (written : ((ofDepth generate depth).write tree).runFrom s = (.ok (), t))
      (visits : Visits generate depth t trees below u tree') :
      Visits generate depth s (tree :: trees) below u tree'
  | inside {depth below : Nat} {s t u v : State} {tree body tree' : Tree} {trees inner : List Tree}
      {path : String} {scope : ScopeId}
      (compiles : CompilesBody (ofDepth generate depth) s tree t body)
      (opens : (openUnit body.position).runFrom t = (.ok (path, scope), u))
      (read : u.layout.readStatements (bodyTokens body) = .ok inner)
      (visits : Visits generate depth { u with current := scope } inner below v tree') :
      Visits generate (depth + 1) s (tree :: trees) below v tree'

/-! ## Runs of statements -/

private theorem runFrom_writeStatement_if {other : Option Tree} (ifOf : tree.IfOf cond body other) (engine : Engine) :
    (engine.writeStatement tree).runFrom s = (engine.writeBranches cond body other).runFrom s := by
  rw [← runFrom_writeIf ifOf]
  cases ifOf with
  | single isIf | double isIf =>
    simp only [writeStatement, Tree.items, Tree.word?, isIf, Option.map_some, Option.getD_some, Reader.isKeyword]
    rfl

private theorem runFrom_writeStatement_block (alone : tree.items = [body]) (block : isBlock [body] = true)
    (engine : Engine) : (engine.writeStatement tree).runFrom s = (engine.callBlock body).runFrom s := by
  obtain ⟨⟨children, divider, pos, rfl⟩, _⟩ := Tree.isBlock_eq block
  simp only [writeStatement, alone, Tree.word?, Tree.isWord, Option.map_none, Option.getD_none, block,
    Bool.false_eq_true, if_false, if_true]
  rfl

private theorem emit_ran (sound : s.Sound) {cmd : Command} (ran : (emit [cmd]).runFrom s = (.ok (), u)) :
    u = s.log { activation := [cmd] } := by
  obtain ⟨scope, found⟩ := ScopeTree.exists_of_lt_size sound.current
  rw [runFrom_emit_cons found] at ran
  exact (Prod.mk.inj ran).2.symm

theorem Lawful.callBlock_ran (lawful : engine.Lawful s.config terms budget) (ready : s.Ready terms)
    (changing : terms.still = false) (compilable : Compilable terms s.config budget (bodyTokens body))
    (ran : (engine.callBlock body).runFrom s = (.ok (), u)) :
    ∃ path v, (engine.compileBlock body).runFrom s = (.ok path, v) ∧ State.Grows terms s v ∧
      s.NewUnit v path ∧ u = v.log { activation := [v.call path] } := by
  obtain ⟨path, v, compiled, called⟩ := runFrom_bind_eq_ok.mp ran
  obtain ⟨grows, new⟩ := (lawful.compileBlock_behaves ready changing compilable).of_ran compiled
  exact ⟨path, v, compiled, grows, new, emit_ran (grows.sound ready.usable ready.sound) called⟩

def guardedCall (ifZero : Bool) (reg : Register) (nameSpace path : String) : Command :=
  .guarded ifZero (.inRange reg (.exactly 0)) (.call nameSpace path)

theorem Lawful.callGuarded_ran (lawful : engine.Lawful s.config terms budget) (ready : s.Ready terms)
    (changing : terms.still = false) (compilable : Compilable terms s.config budget (bodyTokens body))
    {ifZero : Bool} {reg : Register} (ran : (engine.callGuarded ifZero reg body).runFrom s = (.ok (), u)) :
    ∃ path v, (engine.compileBlock body).runFrom s = (.ok path, v) ∧ State.Grows terms s v ∧ s.NewUnit v path ∧
      u = v.log { activation := [guardedCall ifZero reg v.config.nameSpace path] } := by
  obtain ⟨path, v, compiled, called⟩ := runFrom_bind_eq_ok.mp ran
  obtain ⟨grows, new⟩ := (lawful.compileBlock_behaves ready changing compilable).of_ran compiled
  exact ⟨path, v, compiled, grows, new, emit_ran (grows.sound ready.usable ready.sound) called⟩

/-- After its condition, which is in the register `source`, an `if` with two bodies takes a register
for its guards, and its bodies become functions: in the state `t` the condition is evaluated, in `u`
and `v` the bodies are still to be compiled, and in `z` the statement is written. -/
structure Branches (engine : Engine) (existing : Nat) (cond body other : Tree)
    (src reg : Register) (first second : String) (t u v w z : State) : Prop where
  guard : (guardRegister src existing cond.position).runFrom t = (.ok reg, u)
  isFirst : (engine.compileBlock body).runFrom u = (.ok first, v)
  isSecond : (engine.compileBlock other).runFrom
    (v.log { activation := [guardedCall false reg v.config.nameSpace first] }) = (.ok second, w)
  isLast : z = w.log { activation := [guardedCall true reg w.config.nameSpace second] }

theorem Lawful.ifOf_ran {other : Option Tree} (lawful : engine.Lawful s.config .free budget) (ready : s.Ready .free)
    (writable : Writable .wary s.config (budget + 1) tree) (ifOf : tree.IfOf cond body other) {src : Operand}
    (ran : (engine.evaluateCondition cond).runFrom s = (.ok src, t)) :
    State.Grows .free s t ∧ ∀ part ∈ body :: other.toList, Compilable .wary s.config budget (bodyTokens part) := by
  obtain ⟨words, size, compilable⟩ := writable.ifOf ifOf
  have behaves := lawful.evaluateCondition_behaves ready
    (fun tree mem token inside => (words tree mem token inside).of_wary rfl) size
  exact ⟨(behaves.of_ran ran).1, compilable⟩

/-- How the state grows while an `if` with two bodies is written. -/
structure Branches.Grow (u v w : State) (reg : Register) (first second : String) : Prop where
  isFirst : State.Grows .free u v
  newFirst : u.NewUnit v first
  called : State.Grows .free u
    (v.log { activation := [guardedCall false reg v.config.nameSpace first] })
  isSecond : State.Grows .free
    (v.log { activation := [guardedCall false reg v.config.nameSpace first] }) w
  newSecond : State.NewUnit
    (v.log { activation := [guardedCall false reg v.config.nameSpace first] }) w second

theorem Branches.Grow.continues {v w : State} {reg : Register} {first second : String}
    (grow : Grow u v w reg first second) (sound : u.Sound) : v.Continues u.scopes.size
      (w.log { activation := [guardedCall true reg w.config.nameSpace second] }) := by
  have inside : v.current < u.scopes.size := grow.isFirst.current ▸ sound.current
  refine (State.Continues.log inside _).trans (.trans (.of_grows grow.isSecond inside) (.log ?_ _))
  exact grow.isSecond.current ▸ inside

theorem Lawful.branches_ran {z : State} {other : Tree} (lawful : engine.Lawful s.config .free budget)
    (ready : s.Ready .free) (writable : Writable .wary s.config (budget + 1) tree)
    (ifOf : tree.IfOf cond body (some other)) {src : Register}
    (resident : (engine.evaluateCondition cond).runFrom s = (.ok (.resident src), t))
    (ran : (engine.writeStatement tree).runFrom s = (.ok (), z)) : ∃ reg first second u v w,
      Branches engine s.vars.size cond body other src reg first second t u v w z ∧
      State.Grows .free s u ∧ Branches.Grow u v w reg first second := by
  obtain ⟨before, compilable⟩ := lawful.ifOf_ran ready writable ifOf resident
  rw [runFrom_writeStatement_if ifOf, writeBranches_eq, runFrom_bind_ok runFrom_get,
    runFrom_bind_ok resident] at ran
  obtain ⟨reg, u, guard, rest⟩ := runFrom_bind_eq_ok.mp ran
  obtain ⟨_, x, called, last⟩ := runFrom_bind_eq_ok.mp rest
  have grows := before.trans
    ((guardRegister_behaves (ready.grows before) nofun).of_ran guard).1 ready.usable ready.sound
  have isBody : Compilable .free s.config budget (bodyTokens body) :=
    (compilable body (by simp)).of_wary rfl
  have isOther : Compilable .free s.config budget (bodyTokens other) :=
    (compilable other (by simp)).of_wary rfl
  rw [← grows.config] at isBody
  obtain ⟨later, _⟩ := (callGuarded_behaves (ready.grows grows)
    ((lawful.grows grows).compileBlock_behaves (ready.grows grows) rfl isBody)).of_ran called
  have grown := grows.trans later ready.usable ready.sound
  rw [← grown.config] at isOther
  obtain ⟨first, v, isFirst, growsFirst, newFirst, rfl⟩ :=
    (lawful.grows grows).callGuarded_ran (ready.grows grows) rfl isBody called
  obtain ⟨second, w, isSecond, growsSecond, newSecond, rfl⟩ :=
    (lawful.grows grown).callGuarded_ran (ready.grows grown) rfl isOther last
  exact ⟨reg, first, second, u, v, w, ⟨guard, isFirst, isSecond, rfl⟩, grows,
    ⟨growsFirst, newFirst, later, growsSecond, newSecond⟩⟩

/-- A body that is compiled while a statement is written is left alone by what follows. -/
theorem CompilesBody.compiles {engine : Engine} {s t u : State} {tree body : Tree}
    (compiles : CompilesBody engine s tree t body) (lawful : engine.Lawful s.config .free budget)
    (ready : s.Ready .free) (writable : Writable .wary s.config (budget + 1) tree)
    (ran : (engine.writeStatement tree).runFrom s = (.ok (), u)) :
    State.Grows .free s t ∧ Compilable .wary s.config budget (bodyTokens body) ∧
      ∃ path v, (engine.compileBlock body).runFrom t = (.ok path, v) ∧ v.Continues t.scopes.size u := by
  -- The calls are made in the current scope, which is an old one.
  have outer : ∀ {t v : State}, State.Grows .free s t → State.Grows .free t v → v.current < t.scopes.size := by
    intro t v before after
    rw [after.current]
    exact (ready.grows before).sound.current
  cases compiles with
  | block alone isBlock =>
    obtain ⟨isBody, _⟩ := Tree.isBlock_eq isBlock
    have compilable : Compilable .wary s.config budget (bodyTokens body) := by
      refine ⟨fun token => ?_, writable.block alone isBody⟩
      have inside := writable.words.items
      rw [alone] at inside
      exact inside.body isBody
    rw [runFrom_writeStatement_block alone isBlock] at ran
    obtain ⟨path, v, compiled, grows, _, rfl⟩ :=
      lawful.callBlock_ran ready rfl (compilable.of_wary rfl) ran
    exact ⟨.refl _ s, compilable, path, v, compiled, .log (outer (.refl _ s) grows) _⟩
  | taken ifOf known isTaken =>
    obtain ⟨before, compilable⟩ := lawful.ifOf_ran ready writable ifOf known
    have isPart := compilable body (by
      split at isTaken
      · exact Option.some.inj isTaken ▸ mem_cons_self ..
      · simp [isTaken])
    rw [runFrom_writeStatement_if ifOf, writeBranches_eq, runFrom_bind_ok runFrom_get, runFrom_bind_ok known] at ran
    simp only [isTaken] at ran
    obtain ⟨path, v, compiled, grows, _, rfl⟩ := (lawful.grows before).callBlock_ran
      (ready.grows before) rfl (before.config ▸ isPart.of_wary rfl) ran
    exact ⟨before, isPart, path, v, compiled, .log (outer before grows) _⟩
  | only ifOf resident =>
    obtain ⟨before, compilable⟩ := lawful.ifOf_ran ready writable ifOf resident
    have isBody := compilable body (mem_cons_self ..)
    rw [runFrom_writeStatement_if ifOf, writeBranches_eq, runFrom_bind_ok runFrom_get,
      runFrom_bind_ok resident] at ran
    obtain ⟨path, v, compiled, grows, _, rfl⟩ := (lawful.grows before).callGuarded_ran
      (ready.grows before) rfl (before.config ▸ isBody.of_wary rfl) ran
    exact ⟨before, isBody, path, v, compiled, .log (outer before grows) _⟩
  | first ifOf resident guard =>
    obtain ⟨_, compilable⟩ := lawful.ifOf_ran ready writable ifOf resident
    obtain ⟨reg, path, _, v, w, x, branches, before, grow⟩ :=
      lawful.branches_ran ready writable ifOf resident ran
    obtain ⟨guard', isFirst, _, rfl⟩ := branches
    rw [guard] at guard'
    cases guard'
    exact ⟨before, compilable body (mem_cons_self ..), path, w, isFirst, grow.continues (ready.grows before).sound⟩
  | second ifOf resident guard called =>
    obtain ⟨_, compilable⟩ := lawful.ifOf_ran ready writable ifOf resident
    obtain ⟨reg, _, path, v, w, x, branches, before, grow⟩ :=
      lawful.branches_ran ready writable ifOf resident ran
    obtain ⟨guard', isFirst, isSecond, rfl⟩ := branches
    rw [guard] at guard'
    cases guard'
    obtain ⟨_, w', isFirst', called⟩ := runFrom_bind_eq_ok.mp called
    rw [isFirst] at isFirst'
    cases isFirst'
    cases emit_ran (grow.isFirst.sound (ready.grows before).usable (ready.grows before).sound) called
    have middle := before.trans grow.called ready.usable ready.sound
    exact ⟨middle, compilable body (by simp), path, x, isSecond, .log (outer middle grow.isSecond) _⟩

private theorem runFrom_compileTokens (read : s.layout.readStatements tokens = .ok trees) (engine : Engine) :
    (engine.compileTokens tokens).runFrom s = (engine.writeAll trees).runFrom s := by
  simp only [compileTokens, runFrom_bind, runFrom_get, runFrom_lift, read]

theorem compileBlock_ran {v w : State} {path path' : String} {scope : ScopeId} {inner : List Tree}
    (opens : (openUnit body.position).runFrom t = (.ok (path, scope), v))
    (read : v.layout.readStatements (bodyTokens body) = .ok inner)
    (ran : (engine.compileBlock body).runFrom t = (.ok path', w)) :
    ∃ y, (engine.writeAll inner).runFrom { v with current := scope } = (.ok (), y) ∧
      w = { y with current := v.current } := by
  obtain ⟨_, _, opens', rest⟩ := runFrom_bind_eq_ok.mp ran
  rw [opens] at opens'
  cases opens'
  obtain ⟨_, x, inScope, last⟩ := runFrom_bind_eq_ok.mp rest
  cases last
  rw [runFrom_inScope, runFrom_compileTokens (s := { v with current := scope }) read] at inScope
  generalize (engine.writeAll inner).runFrom { v with current := scope } = result at inScope
  obtain ⟨outcome, y⟩ := result
  cases inScope
  exact ⟨y, rfl, rfl⟩

structure Reached (generate : String → Position → Compile String) (s : State) (below : Nat)
    (u : State) (tree : Tree) (last : State) : Prop where
  ready : u.Ready .free
  config : u.config = s.config
  size : s.scopes.size ≤ u.scopes.size
  writable : Writable .wary u.config (below + 1) tree
  /-- The statement is written, and what was made for it is left alone by what follows. -/
  written : ∃ z, ((ofDepth generate below).writeStatement tree).runFrom u = (.ok (), z) ∧ z.Continues u.scopes.size last

theorem Lawful.writeAll_ran {last : State} (lawful : engine.Lawful s.config .free budget)
    (ready : s.Ready .free) (writable : ∀ other ∈ tree :: trees, Writable .wary s.config budget other)
    (ran : (engine.writeAll (tree :: trees)).runFrom s = (.ok (), last)) :
    ∃ t, (engine.write tree).runFrom s = (.ok (), t) ∧
      (engine.writeAll trees).runFrom t = (.ok (), last) ∧ State.Grows .free s t ∧ State.Grows .free t last := by
  obtain ⟨_, t, written, rest⟩ := runFrom_bind_eq_ok.mp ran
  have free : ∀ other ∈ tree :: trees, Writable .free s.config budget other :=
    fun other mem => (writable other mem).of_wary rfl
  obtain ⟨within, words⟩ := free tree (mem_cons_self ..)
  have grows := ((lawful.write rfl s tree ready rfl within words).of_ran written).1
  rw [← grows.config] at free
  have others := (lawful.grows grows).writeAll_behaves (ready.grows grows) rfl
    (fun other mem => free other (mem_cons_of_mem _ mem))
  exact ⟨t, written, rest, grows, (others.of_ran rest).1⟩

/-- A compilation that succeeds writes every statement that it comes to. -/
theorem Visits.reached {generate : String → Position → Compile String} {depth below : Nat} {last : State}
    (visits : Visits generate depth s trees below u tree) (generates : Generates generate s.config .free)
    (ready : s.Ready .free) (writable : ∀ tree ∈ trees, Writable .wary s.config depth tree)
    (ran : ((ofDepth generate depth).writeAll trees).runFrom s = (.ok (), last)) :
    Reached generate s below u tree last := by
  have lawful : ∀ depth, (ofDepth generate depth).Lawful s.config .free depth :=
    ofDepth_lawful (.inl Terms.not_guards_free) (fun _ => rfl) (fun _ => generates)
  induction visits generalizing last with
  | here =>
    obtain ⟨t, written, _, grows, later⟩ := (lawful _).writeAll_ran ready writable ran
    exact
      { ready, config := rfl, size := Nat.le_refl _
        writable := writable _ (mem_cons_self ..)
        written := ⟨t, written, .of_grows later (grows.current ▸ ready.sound.current)⟩ }
  | later written visits ih =>
    obtain ⟨t, written', rest, grows, _⟩ := (lawful _).writeAll_ran ready writable ran
    rw [written] at written'
    cases written'
    have config := grows.config
    have reached := ih (config ▸ generates) (ready.grows grows)
      (config ▸ fun tree mem => writable tree (mem_cons_of_mem _ mem)) rest
      (config ▸ lawful)
    exact { reached with
      config := reached.config.trans config
      size := Nat.le_trans grows.size_le reached.size }
  | @inside depth below s t v u tree body tree' trees inner path scope compiles opens read visits ih =>
    obtain ⟨x, written, _, grows, later⟩ := (lawful _).writeAll_ran ready writable ran
    obtain ⟨before, compilable, _, w, compiled, continues⟩ :=
      compiles.compiles (lawful depth) ready (writable _ (mem_cons_self ..)) written
    have readyBody := ready.grows before
    obtain ⟨y, wrote, rfl⟩ := compileBlock_ran opens read compiled
    obtain ⟨around, found⟩ := ScopeTree.exists_of_lt_size readyBody.sound.current
    rw [runFrom_openUnit readyBody.sound readyBody.usable readyBody.below found] at opens
    cases opens
    have opened : State.Grows .free t (Compile.opened t around body.position) :=
      .opened readyBody.sound readyBody.usable rfl readyBody.below found body.position
    have config := opened.config.trans before.config
    have reached := ih (config.symm ▸ generates) (readyBody.entered found body.position)
      (Compilable.writable (s := t.entered around body.position) (config ▸ ready.usable)
        (config.symm ▸ compilable) read) wrote (config.symm ▸ lawful)
    have size : t.scopes.size ≤ u.scopes.size := Nat.le_trans opened.size_le reached.size
    obtain ⟨z, isWritten, left⟩ := reached.written
    have inner : z.Continues u.scopes.size x := left.trans (continues.mono size).of_move
    have outer : s.current < u.scopes.size :=
      Nat.lt_of_lt_of_le ready.sound.current (Nat.le_trans before.size_le size)
    exact
      { ready := reached.ready
        config := reached.config.trans config
        size := Nat.le_trans before.size_le size
        writable := reached.writable
        written := ⟨z, isWritten, inner.trans (.of_grows later (grows.current ▸ outer))⟩ }

/-! ## A whole text -/

/-- While a text is compiled, the compilation comes to a statement in the state `s`, with an engine of
the depth `below` for what lies deeper. -/
def VisitsIn (config : Config) (src : Nat) (text : String) (below : Nat) (s : State) (tree : Tree) : Prop :=
  ∃ tokens trees, Token.tokenize src config.separator text = .ok tokens ∧
    Layout.readStatements ⟨src, config.separator⟩ tokens = .ok trees ∧
    Visits (generateWithin generationLimit) (depthFor text.length) (begun config src) trees
      below s tree

theorem compileEntry_ran {src : Nat} {text : String} {last : State}
    (tokenized : Token.tokenize src config.separator text = .ok tokens)
    (read : Layout.readStatements ⟨src, config.separator⟩ tokens = .ok trees) (engine : Engine)
    (ran : (engine.compileEntry text).runFrom (State.start config src) = (.ok (), last)) :
    ∃ t, (engine.writeAll trees).runFrom (begun config src) = (.ok (), t) ∧
      last = { t with current := (begun config src).current } := by
  have tokenized' : (State.start config src).layout.tokenize text = .ok tokens := tokenized
  simp only [compileEntry, runFrom_bind, runFrom_get, runFrom_lift, tokenized', runFrom_openEntry,
    runFrom_inScope] at ran
  rw [show ({ begun config src with current := 1 } : State) = begun config src from rfl,
    runFrom_compileTokens (s := begun config src) read] at ran
  generalize (engine.writeAll trees).runFrom (begun config src) = result at ran
  obtain ⟨outcome, t⟩ := result
  cases ran
  exact ⟨t, rfl, rfl⟩

end Engine

end ScoreScript
