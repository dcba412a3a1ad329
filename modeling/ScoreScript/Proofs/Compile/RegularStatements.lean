import ScoreScript.Compiler
import ScoreScript.Proofs.Compile.Regular
import ScoreScript.Proofs.Compile.ScriptTrees

/-!
# Statements and their changes

An engine that uses a regular one for what lies deeper writes statements regularly, and so do the
engines of every depth.
-/

namespace ScoreScript

open ScopeTree Fault

variable {other : Option Tree} {body cond : Tree} {pos : Position} {reg : Register}
  {s : State} {name : String}

theorem ScopeTree.Calm.resolve_child {tree later : ScopeTree} (calm : tree.Calm later)
    (rooted : tree.Rooted) {outer inner : Nat} (inside : outer < tree.size) (below : outer < inner)
    {scope : Scope} (found : later.scopes[inner]? = some scope) (parent : scope.parent = some outer)
    (empty : scope.names = []) (name : String) : later.resolve inner name = tree.resolve outer name := by
  have unbound : scope.find? name = none := by
    rw [Scope.find?, empty]
    rfl
  rw [resolve_of_parent (calm.rooted rooted) found parent below, unbound, Option.none_or,
    calm.resolve_eq rooted name inside]

variable {tokens : List Token}

namespace State

variable {mode : Mode} {s t : State}

structure Sees (s t : State) : Prop where
  config : t.config = s.config
  layout : t.layout = s.layout
  resolve : ∀ name, t.resolve name = s.resolve name
  vars : ∀ type id, s.IsVar type id → t.IsVar type id

theorem Writes.sees {tree : Tree} (writes : s.Writes tree) (sees : Sees s t) : t.Writes tree := by
  have scored {word : String} (scored : s.Scored word) : t.Scored word :=
    scored.of_resolve (sees.resolve word) (sees.vars _)
  cases writes with
  | faithful own blocks =>
    refine .faithful (sees.config ▸ own) (fun block part isBody => ?_)
    rw [sees.layout, sees.config]
    exact blocks block part isBody
  | assigns known assigns => exact .assigns (scored known) assigns
  | tests isIf parts segment known assigns =>
    exact .tests isIf parts segment (scored known) (sees.layout ▸ assigns)

theorem Compiles.sees (compiles : s.Compiles tokens) (sees : Sees s t) : t.Compiles tokens := by
  cases compiles with
  | faithful faithful =>
    refine .faithful ?_
    rw [sees.layout, sees.config]
    exact faithful
  | single single =>
    refine .single (fun trees read tree mem => ?_)
    rw [sees.layout] at read
    exact (single trees read tree mem).imp_right (fun writes => writes.sees sees)

inductive Tests (s : State) : Tree → Tree → Option Tree → Prop where
  | faithful {cond body : Tree} {other : Option Tree}
      (inert : ∀ sequence ∈ cond.sequences, Tree.rebinds s.config sequence = false)
      (bodies : ∀ part ∈ body :: other.toList,
        s.layout.Faithful s.config (Engine.bodyTokens part)) : Tests s cond body other
  | name {name : Token} {body : Tree} {pos : Position} (segment : IsSegment name.text)
      (scored : s.Scored name.text)
      (assigns : ∀ trees, s.layout.readStatements (Engine.bodyTokens body) = .ok trees →
        ∀ tree ∈ trees, trees = [tree] ∧ tree.AssignsTo name.text) :
      Tests s (.group [.leaf name] .paren .space pos) body none

/-- What the bodies of an `if` must be once its condition is evaluated. -/
inductive Branches (s : State) : Tree → Option Tree → Prop where
  | faithful {body : Tree} {other : Option Tree}
      (bodies : ∀ part ∈ body :: other.toList,
        s.layout.Faithful s.config (Engine.bodyTokens part)) : Branches s body other
  | single {body : Tree} (compiles : s.Compiles (Engine.bodyTokens body)) : Branches s body none

namespace Branches

theorem first (branches : s.Branches body other) : s.Compiles (Engine.bodyTokens body) := by
  cases branches with
  | faithful bodies => exact .faithful (bodies body (List.mem_cons_self ..))
  | single compiles => exact compiles

theorem both {other : Tree} (branches : s.Branches body (some other)) (changes : Changes mode.sure s t)
    {part : Tree} (mem : part = body ∨ part = other) : t.Compiles (Engine.bodyTokens part) := by
  cases branches with
  | faithful bodies =>
    refine .faithful ?_
    rw [changes.layout, changes.retains.config]
    exact bodies part (by simpa using mem)

end Branches

namespace Writes

variable {tree : Tree}

theorem accepts (writes : s.Writes tree) (fair : s.Fair mode)
    (other : ∀ first rest, tree.items = first :: rest → first.word? ≠ some "if") : s.Accepts mode tree.items := by
  cases writes with
  | faithful own => exact fair.accepts (fun _ => Tree.isFaithful_iff.mp own)
  | tests isIf parts => exact absurd (congrArg some isIf) (other _ _ parts)
  | @assigns name scored assigns =>
    obtain ⟨target, eq, value, parts, rfl, isEq, _⟩ := assigns
    rw [parts]
    intro faithful
    refine ⟨?_, fun before equals after split => .inl ?_⟩
    · -- An assignment without a target assigns to nothing.
      by_cases first : target.text = "=" <;> by_cases last : value.text = "=" <;>
        simp [Tree.Inert, Tree.sequencesIn, Tree.sequences, Tree.rebinds, Engine.splitAssignment,
          Tree.isWord, Tree.word?, Tree.constructs, isEq, first, last]
    · by_cases first : target.text = "="
      · simp only [Engine.splitAssignment, Tree.isWord, Tree.word?, first, beq_self_eq_true,
          if_true, Option.some.injEq, Prod.mk.injEq] at split
        obtain ⟨rfl, _⟩ := split
        rintro ⟨⟩
      · simp only [Engine.splitAssignment, Tree.isWord, Tree.word?, isEq, beq_self_eq_true,
          if_true, Option.map_some, Option.some_beq_some, beq_iff_eq, first, if_false,
          Option.some.injEq, Prod.mk.injEq] at split
        obtain ⟨rfl, _⟩ := split
        exact scored.not_constructs (fair faithful)

theorem block (writes : s.Writes tree) {block : Tree} (isBody : block.IsBody)
    (parts : tree.items = [block]) : s.Compiles (Engine.bodyTokens block) := by
  cases writes with
  | faithful _ blocks => exact .faithful (blocks block (by simp [parts]) isBody)
  | assigns _ assigns =>
    obtain ⟨_, _, _, parts', _⟩ := assigns
    rw [parts] at parts'
    cases parts'
  | tests _ parts' =>
    rw [parts] at parts'
    cases parts'

theorem tested (writes : s.Writes tree) (isStatement : tree.IsStatement) (ifOf : tree.IfOf cond body other) :
    s.Tests cond body other := by
  have isBody := ifOf.isBody isStatement
  have inside : cond ∈ tree.items ∧ ∀ part ∈ body :: other.toList, part ∈ tree.items := by
    cases ifOf <;> simp [Tree.items]
  cases writes with
  | faithful own blocks =>
    refine .faithful ((Tree.isFaithful_iff.mp own).2.member inside.1) (fun part mem => ?_)
    exact blocks part (inside.2 part mem) (isBody part mem)
  | assigns _ assigns =>
    obtain ⟨target, _, _, parts, rfl, _, notIf⟩ := assigns
    cases ifOf with
    | single isIf =>
      cases parts
      exact absurd isIf notIf
    | double => cases parts
  | tests _ parts segment scored assigns =>
    cases ifOf with
    | single =>
      cases parts
      exact .name segment scored assigns
    | double => cases parts

end Writes

end State

namespace Compile

open State

variable {mode : Mode} {s : State}

private theorem openUnit_leads :
    Leads s (openUnit pos) (Extends s) (fun result t => Extends s t ∧
      (s.scopes.Rooted → Sees s { t with current := result.2 })) := by
  refine .ok_bind runFrom_get ?_
  cases found : s.scopes.scopes[s.current]? with
  | none =>
    have failed : (onScopes (ScopeTree.nextAnonymous s.current s.config.anonymousPrefix)).runFrom s =
        (.error ⟨.unknownScope s.current, default⟩, s) := by
      simp only [runFrom_onScopes, ScopeTree.nextAnonymous, run_bind, run_get,
        ScopeTree.scope, found, run_lift]
    exact .of_error (runFrom_bind_error failed _) (.refl s)
  | some scope =>
    refine .ok_bind (runFrom_nextAnonymous found) ?_
    refine .ok_bind (t := nested s scope) (runFrom_createChild (scope_draw found)) ?_
    have child := scope_nested s scope
    have size : s.draw.scopes.size = s.scopes.size := size_draw ..
    rw [size]
    have ran := addUnit_runs child pos
    have inside := lt_size_of_getElem? found
    have drawn : s.scopes.Calm s.draw.scopes := .draw ..
    have calm : s.scopes.Calm (nested s scope).scopes :=
      drawn.trans (.addScope (size.symm ▸ inside) rfl rfl)
    have marked : s.scopes.Calm ((nested s scope).scopes.modifyScope s.scopes.size
        (fun scope => { scope with isUnit := true })) :=
      calm.trans (.modifyScope _ _ (fun _ => rfl) (fun _ => rfl) (fun _ => rfl))
    refine .ok_bind ran (.of_ok rfl (.of_calm rfl rfl rfl rfl rfl marked) ⟨.of_calm rfl rfl rfl rfl rfl marked,
        fun rooted => ⟨rfl, rfl, fun name => ?_, fun _ _ => id⟩⟩)
    have found' := scopes_modifyScope (nested s scope).scopes s.scopes.size
      s.scopes.size (fun scope => { scope with isUnit := true })
    rw [if_pos rfl, child] at found'
    exact marked.resolve_child rooted inside inside found' rfl rfl name

private theorem openUnit_acts : Acts mode s (openUnit pos) (fun result t =>
      s.scopes.Rooted → Sees s { t with current := result.2 }) :=
  .of_extends openUnit_leads

private theorem declare_acts {typeName : String} {access : Access} {usage : Usage} :
    Acts mode s (declare typeName access usage name pos) (fun id t => t.Plain id) := by
  refine .get_bind (.lift_bind (fun _ checked => ?_))
  exact declareInternal_acts (fun _ => isSegment_of_isIdentifier (checkName_eq_ok checked).1)

private theorem guardRegister_acts {existing : Nat} :
    Acts mode s (Engine.guardRegister reg existing pos) (fun _ _ => True) := by
  refine .get_bind ?_
  split
  · exact .pure trivial
  · refine .bind temporary_acts (fun snapshot t _ _ => ?_)
    refine .bind store_acts (fun cmds u _ _ => ?_)
    refine .bind emit_acts (fun _ v _ _ => ?_)
    refine .bind operand_acts ?_
    rintro (score | copy) w _ _
    · exact .throw
    · exact .pure trivial

end Compile

namespace Engine

open Compile State

variable {mode : Mode} {s : State} {engine : Engine}

namespace Regular

/-! ## Units -/

section

variable (regular : engine.Regular mode) (fair : s.Fair mode)
include regular fair

private theorem writeAll_acts {trees : List Tree} (statements : mode.faithful → ∀ tree ∈ trees, tree.IsStatement ∧
      Tree.isFaithful s.config tree.items = true ∧ ∀ block ∈ tree.items, block.IsBody →
        s.layout.Faithful s.config (bodyTokens block)) : Acts mode s (engine.writeAll trees) (fun _ _ => True) := by
  induction trees generalizing s with
  | nil => exact .pure trivial
  | cons tree trees ih =>
    refine .bind (regular.write s tree fair (fun faithful => ?_)) (fun _ t changes _ => ?_)
    · obtain ⟨isStatement, own, blocks⟩ := statements faithful tree (List.mem_cons_self ..)
      exact ⟨isStatement, .faithful own blocks⟩
    · refine ih (fair.changes changes) (fun faithful other mem => ?_)
      rw [changes.layout, changes.retains.config]
      exact statements faithful other (List.mem_cons_of_mem _ mem)

theorem compileTokens_acts (compiles : mode.faithful → s.Compiles tokens) :
    Acts mode s (engine.compileTokens tokens) (fun _ _ => True) := by
  refine .get_bind (.lift_bind (fun trees read => ?_))
  have isStatement (faithful : mode.faithful) : ∀ tree ∈ trees, tree.IsStatement :=
    fun tree mem => (Layout.readStatements_found read tree mem).isStatement
  by_cases faithful : mode.faithful
  · cases compiles faithful with
    | faithful blameless =>
      refine regular.writeAll_acts fair (fun _ tree mem => ⟨isStatement faithful tree mem,
        blameless tree (.here read mem), fun block part isBody inner holds => ?_⟩)
      exact blameless inner (.inside read mem part isBody holds)
    | single single =>
      cases trees with
      | nil => exact .pure trivial
      | cons tree rest =>
        obtain ⟨alone, writes⟩ := single _ read tree (List.mem_cons_self ..)
        cases alone
        exact .bind (regular.write s tree fair (fun _ => ⟨isStatement faithful tree (List.mem_cons_self ..), writes⟩))
          (fun _ _ _ _ => .pure trivial)
  · exact regular.writeAll_acts fair (fun isFaithful => absurd isFaithful faithful)

private theorem compileUnit_acts (compiles : mode.faithful → s.Compiles tokens) :
    Acts mode s (engine.compileUnit tokens pos) (fun _ _ => True) := by
  refine .bind openUnit_acts ?_
  rintro ⟨path, scope⟩ t changes sees
  refine .bind (m := fun _ _ => True) (.inScope (regular.compileTokens_acts ((fair.changes changes).move scope) ?_))
    (fun _ _ _ _ => .pure trivial)
  exact fun faithful => (compiles faithful).sees (sees (fair faithful).rooted)

private theorem compileBlock_acts (compiles : mode.faithful → s.Compiles (bodyTokens body)) :
    Acts mode s (engine.compileBlock body) (fun _ _ => True) :=
  regular.compileUnit_acts fair compiles

private theorem callBlock_acts (compiles : mode.faithful → s.Compiles (bodyTokens body)) :
    Acts mode s (engine.callBlock body) (fun _ _ => True) :=
  .bind (regular.compileBlock_acts fair compiles) (fun _ _ _ _ => .get_bind emit_acts)

private theorem callGuarded_acts (compiles : mode.faithful → s.Compiles (bodyTokens body)) {ifZero : Bool} :
    Acts mode s (engine.callGuarded ifZero reg body) (fun _ _ => True) :=
  .bind (regular.compileBlock_acts fair compiles) (fun _ _ _ _ => .get_bind emit_acts)

private theorem compileScript_acts {script : String} (scripted : mode.faithful → s.Scripted script) :
    Acts mode s (engine.compileScript script pos) (fun _ _ => True) := by
  refine .get_bind (.lift_bind (fun tokens cut => ?_))
  refine regular.compileUnit_acts fair (fun faithful => ?_)
  obtain ⟨words, cut', compiles⟩ :=
    compiles_script (fair faithful).usable (scripted faithful) pos
  rw [cut] at cut'
  cases cut'
  exact compiles

/-! ## Declarations -/

private theorem initialValue_acts {rest : List Tree} (inert : mode.faithful → Tree.Inert s.config rest) :
    Acts mode s (engine.initialValue name rest) (fun _ _ => True) := by
  cases rest with
  | nil => exact .pure trivial
  | cons eq value =>
    rw [initialValue]
    split
    · next isEq =>
        refine .bind (regular.evaluateItems_acts fair (fair.accepts (fun faithful => ?_)))
          (fun _ _ _ _ => .pure trivial)
        obtain ⟨after, _, later⟩ := Tree.Inert.cons_iff.mp (inert faithful)
        exact ⟨after isEq, later⟩
    · exact .get_bind .throw

private theorem writeDeclaration_acts {items : List Tree} (inert : mode.faithful → Tree.Inert s.config items) :
    Acts mode s (engine.writeDeclaration items) (fun _ _ => True) := by
  unfold writeDeclaration
  refine .lift_bind ?_
  rintro ⟨access, usage, rest⟩ read
  obtain ⟨⟨before, rfl⟩, _⟩ := readModifiers_eq read nofun
  rcases rest with _ | ⟨typeTree, items⟩
  · exact .throw
  refine .lift_bind (fun typeToken isType => .lift_bind (fun type _ => ?_))
  rcases items with _ | ⟨nameTree, rest⟩
  · exact .throw
  refine .lift_bind (fun nameToken _ => ?_)
  have later (faithful : mode.faithful) : Tree.Inert s.config rest := by
    have declared : Tree.Inert s.config ([typeTree, nameTree] ++ rest) := (inert faithful).suffix
    exact declared.suffix
  refine .bind (regular.initialValue_acts fair later) (fun value t changes _ => ?_)
  refine .bind declare_acts (fun id u changes' plain => ?_)
  cases value with
  | none =>
    dsimp only
    split
    · exact .throw
    · exact .pure trivial
  | some value =>
    have fair := (fair.changes changes).changes changes'
    exact .bind (regular.operate_acts fair (fun _ _ => .inl plain)) (fun _ _ _ _ => .pure trivial)

end

/-! ## Branches -/

section

variable (regular : engine.Regular mode)
include regular

private theorem nameCondition_acts {name : Token} (segment : IsSegment name.text) (scored : s.Scored name.text) :
    Acts mode s (engine.evaluateCondition (.group [.leaf name] .paren .space pos))
      (fun _ t => t.Scored name.text) := by
  refine .bind (m := fun value t => Says s name.text (some value) t) ?_ (fun value t _ said => ?_)
  · refine .bind (regular.word s name _ segment) ?_
    rintro (_ | value) t _ said
    · exact .throw
    · exact .pure said
  · have literal (literal : ∀ pos, literal? name.text pos ≠ none) :
        Acts mode t (do let value ← cast value ValueType.bool.name pos; operand value pos)
          (fun _ t => t.Scored name.text) :=
      .bind cast_acts (fun value u _ _ =>
        operand_acts.mono (fun _ _ _ _ => .inl literal))
    rcases said value rfl with ⟨_, isLiteral⟩ | ⟨_, rfl, resolved⟩
    · exact literal isLiteral
    · rcases scored with isLiteral | truth
      · exact literal isLiteral
      · obtain ⟨owner, found, isBool⟩ := truth value resolved
        have same : Acts mode t (cast value ValueType.bool.name pos) (fun _ u => u = t) := by
          refine .var_bind (fun owner' found' => ?_)
          rw [found] at found'
          cases found'
          rw [if_pos (by rw [isBool])]
          exact .pure rfl
        refine .bind same ?_
        rintro _ _ _ rfl
        refine operand_acts.mono ?_
        rintro _ _ _ rfl
        exact .inr truth

private theorem evaluateCondition_acts (fair : s.Fair mode) (tests : mode.faithful → s.Tests cond body other) :
    Acts mode s (engine.evaluateCondition cond) (fun _ t => mode.faithful → t.Branches body other) := by
  have evaluated (inert : Inert mode s cond) :
      Acts mode s (engine.evaluateCondition cond) (fun _ _ => True) := by
    refine .bind (regular.evaluateTree_acts fair inert) (fun value t _ _ => ?_)
    refine .bind cast_acts (fun value u _ _ => ?_)
    exact operand_acts.mono (fun _ _ _ _ => trivial)
  by_cases faithful : mode.faithful
  · cases tests faithful with
    | faithful inert bodies =>
      refine (evaluated (fun _ => inert)).mono (fun _ t changes _ _ => .faithful ?_)
      rw [changes.layout, changes.retains.config]
      exact bodies
    | @name name body pos segment scored assigns =>
      refine (regular.nameCondition_acts segment scored).mono ?_
      intro _ t changes scored _
      refine .single (.single (fun trees read tree mem => ?_))
      rw [changes.layout] at read
      exact (assigns trees read tree mem).imp_right (.assigns scored)
  · exact (evaluated (fun isFaithful => absurd isFaithful faithful)).mono
      (fun _ _ _ _ isFaithful => absurd isFaithful faithful)

private theorem writeBranches_acts (fair : s.Fair mode) (tests : mode.faithful → s.Tests cond body other) :
    Acts mode s (engine.writeBranches cond body other) (fun _ _ => True) := by
  rw [writeBranches_eq]
  refine .get_bind (.bind (regular.evaluateCondition_acts fair tests) ?_)
  intro tested t changes branches
  have fair := fair.changes changes
  cases tested with
  | constant score =>
    dsimp only
    cases score != 0 with
    | true => exact regular.callBlock_acts fair (fun faithful => (branches faithful).first)
    | false =>
      cases other with
      | none => exact .pure trivial
      | some other =>
        have unchanged : State.Changes mode.sure t t := .refl
        exact regular.callBlock_acts fair (fun faithful => (branches faithful).both unchanged (.inr rfl))
  | resident reg =>
    cases other with
    | none => exact regular.callGuarded_acts fair (fun faithful => (branches faithful).first)
    | some other =>
      refine .bind guardRegister_acts (fun guard u changes' _ => ?_)
      have fair' := fair.changes changes'
      refine .bind (regular.callGuarded_acts fair' (fun faithful => (branches faithful).both changes' (.inl rfl)))
        (fun _ v changes'' _ => ?_)
      exact regular.callGuarded_acts (fair'.changes changes'')
        (fun faithful => (branches faithful).both (changes'.trans changes'') (.inr rfl))

theorem writeIf_acts (fair : s.Fair mode) {tree : Tree}
    (tests : mode.faithful → ∃ cond body other, tree.IfOf cond body other ∧ s.Tests cond body other) :
    Acts mode s (engine.writeIf tree) (fun _ _ => True) := by
  refine .lift_bind (fun children isChildren => ?_)
  have parts {cond body : Tree} {other : Option Tree}
      (same : ∀ condition' body' other', tree.IfOf condition' body' other' →
        condition' = cond ∧ body' = body ∧ other' = other) :
      mode.faithful → s.Tests cond body other := by
    intro faithful
    obtain ⟨_, _, _, ifOf, tests⟩ := tests faithful
    obtain ⟨rfl, rfl, rfl⟩ := same _ _ _ ifOf
    exact tests
  split
  · refine regular.writeBranches_acts fair (parts ?_)
    rintro _ _ _ (_ | _) <;> cases isChildren
    exact ⟨rfl, rfl, rfl⟩
  · refine regular.writeBranches_acts fair (parts ?_)
    rintro _ _ _ (_ | _) <;> cases isChildren
    exact ⟨rfl, rfl, rfl⟩
  · exact .throw

/-! ## Statements -/

private theorem writeStatement_acts (fair : s.Fair mode) {tree : Tree}
    (writes : mode.faithful → tree.IsStatement ∧ s.Writes tree) :
    Acts mode s (engine.writeStatement tree) (fun _ _ => True) := by
  have evaluates (accepts : s.Accepts mode tree.items) :
      Acts mode s (do let _ ← engine.evaluate tree.items tree.position) (fun _ _ => True) :=
    .bind (regular.evaluate s tree.items _ fair accepts) (fun _ _ _ _ => .pure trivial)
  unfold writeStatement
  dsimp only
  cases parts : tree.items with
  | nil =>
    rw [parts] at evaluates
    exact evaluates (fair.accepts (fun _ => ⟨rfl, fun _ inside => nomatch inside⟩))
  | cons first rest =>
    have word :
        (first.word?.map Reader.isKeyword).getD false = true ↔ first.word? = some "if" := by
      cases isWord : first.word? <;> simp [Reader.isKeyword]
    dsimp only
    split
    · next isKeyword =>
        refine regular.writeIf_acts fair (fun faithful => ?_)
        obtain ⟨isStatement, writes⟩ := writes faithful
        have isIf := word.mp isKeyword
        obtain ⟨cond, body, other, ifOf⟩ := isStatement.ifOf parts isIf
        exact ⟨cond, body, other, ifOf, writes.tested isStatement ifOf⟩
    · next notKeyword =>
        have accepts : s.Accepts mode tree.items := fun faithful =>
          (writes faithful).2.accepts fair (by
            intro first' rest' same isIf
            rw [parts] at same
            cases same
            exact notKeyword (word.mpr isIf)) faithful
        rw [parts] at evaluates accepts
        split
        · exact .throw
        split
        · next block =>
            obtain ⟨isBody, rfl⟩ := Tree.isBlock_eq block
            exact regular.callBlock_acts fair
              (fun faithful => (writes faithful).2.block isBody parts)
        split
        · exact regular.writeDeclaration_acts fair (fun faithful => (accepts faithful).1)
        · exact evaluates accepts

end

end Regular

/-! ## Engines of every depth -/

/-- All that a way of compiling made-up scripts does are changes of the list. -/
def ScriptsAct (mode : Mode) (generate : String → Position → Compile String) : Prop :=
  ∀ (s : State) (script : String) (pos : Position), s.Fair mode →
    (mode.faithful → s.Scripted script) → Acts mode s (generate script pos) (fun _ _ => True)

private theorem ofDepth_regular (broken : mode.broken) {generate : String → Position → Compile String}
    (scripts : ScriptsAct mode generate) (depth : Nat) : (ofDepth generate depth).Regular mode := by
  induction depth with
  | zero => exact ⟨fun _ _ _ _ _ => .throw, fun _ _ _ _ => .throw, fun _ _ _ _ => .throw, scripts⟩
  | succ depth ih =>
    exact ⟨fun _ _ pos fair accepts => ih.evaluateSequence_acts broken fair accepts,
      fun s _ pos segment => evaluateSequence_word _ s segment pos,
      fun _ _ fair writes => ih.writeStatement_acts fair writes, scripts⟩

private theorem generateWithin_acts (broken : mode.broken) (generations : Nat) :
    ScriptsAct mode (generateWithin generations) := by
  induction generations with
  | zero => exact fun _ _ _ _ _ => .throw
  | succ generations ih =>
    exact fun _ script pos fair scripted =>
      (ofDepth_regular broken ih _).compileScript_acts fair scripted

theorem regular (broken : mode.broken) (generations depth : Nat) :
    (ofDepth (generateWithin generations) depth).Regular mode :=
  ofDepth_regular broken (generateWithin_acts broken generations) depth

end Engine

end ScoreScript
