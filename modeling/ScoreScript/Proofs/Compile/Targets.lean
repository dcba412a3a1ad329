import ScoreScript.Proofs.Compile.Effects
import ScoreScript.Proofs.Compile.Statements

/-!
# What is assigned to

An assignment changes what its target evaluates to. A target can be a construction of its own,
written out, or a generated name that stands for one; `Tree.isFaithful` finds the sequences of trees
in which no assignment has such a target.
-/

namespace ScoreScript

open List

open Engine

namespace Tree

mutual

/-- Whether a sequence evaluates to what it constructs, or to what a generated name stands for. -/
def constructs (config : Config) : List Tree → Bool
  | [tree] => tree.constructsAlone config
  | [first, _, _] => first.isWord "new"
  | _ => false

/-- Whether a tree evaluates to what it constructs, or to what a generated name stands for. -/
def constructsAlone (config : Config) : Tree → Bool
  | leaf token => config.isGenerated token.text
  | group children .paren .space _ => constructs config children
  | group .. => false

end

mutual

/-- The sequences inside a tree that are evaluated with it: the members of its groups, and what
stands after an `=`. What stands in braces is read on its own. -/
def sequences : Tree → List (List Tree)
  | leaf _ => []
  | group _ .brace _ _ => []
  | group children _ _ _ => children :: sequencesIn children

/-- The sequences inside a sequence that are evaluated with it. -/
def sequencesIn : List Tree → List (List Tree)
  | [] => []
  | tree :: trees =>
    (if tree.isWord "=" then [trees] else []) ++ tree.sequences ++ sequencesIn trees

end

def isTruth : List Tree → Bool
  | [tree] => tree.isWord "true" || tree.isWord "false"
  | _ => false

/-- Whether a sequence assigns to what it constructs. A truth value is no objective, so that
assigning it is refused anyway. -/
def rebinds (config : Config) (items : List Tree) : Bool :=
  match splitAssignment items with
  | some (target, _, value) => constructs config target && !isTruth value
  | none => false

def isFaithful (config : Config) (items : List Tree) : Bool :=
  (items :: sequencesIn items).all (fun sequence => !rebinds config sequence)

def Inert (config : Config) (items : List Tree) : Prop :=
  ∀ sequence ∈ sequencesIn items, rebinds config sequence = false

def Unassigned (items : List Tree) : Prop :=
  ∀ tree ∈ items, tree.isWord "=" = false

variable {items : List Tree}

theorem isFaithful_iff {config : Config} :
    isFaithful config items = true ↔ rebinds config items = false ∧ Inert config items := by
  simp [isFaithful, Inert]

theorem splitAssignment_eq_none (unassigned : Unassigned items) : splitAssignment items = none := by
  induction items with
  | nil => rfl
  | cons tree trees ih =>
    obtain ⟨first, rest⟩ := forall_mem_cons.mp unassigned
    rw [splitAssignment, first, ih rest]
    rfl

theorem unassigned_of_splitAssignment (whole : splitAssignment items = none) : Unassigned items := by
  induction items with
  | nil => exact fun _ member => nomatch member
  | cons tree trees ih =>
    rw [splitAssignment] at whole
    cases first : tree.isWord "=" with
    | true =>
      rw [if_pos first] at whole
      cases whole
    | false =>
      rw [if_neg (by rw [first]; exact Bool.false_ne_true), Option.map_eq_none_iff] at whole
      exact forall_mem_cons.mpr ⟨first, ih whole⟩

theorem unassigned_target {target value : List Tree} {eq : Tree}
    (split : splitAssignment items = some (target, eq, value)) : Unassigned target := by
  induction items generalizing target with
  | nil => cases split
  | cons tree trees ih =>
    rw [splitAssignment] at split
    cases first : tree.isWord "=" with
    | true =>
      rw [if_pos first] at split
      cases split
      intro _ member
      cases member
    | false =>
      rw [if_neg (by rw [first]; exact Bool.false_ne_true)] at split
      obtain ⟨⟨before, _, _⟩, inner, same⟩ := Option.map_eq_some_iff.mp split
      cases same
      exact forall_mem_cons.mpr ⟨first, ih inner⟩

theorem rebinds_of_unassigned (config : Config) (unassigned : Unassigned items) : rebinds config items = false := by
  rw [rebinds, splitAssignment_eq_none unassigned]

namespace Inert

variable {config : Config} {items : List Tree}

theorem cons_iff {tree : Tree} {trees : List Tree} :
    Inert config (tree :: trees) ↔ (tree.isWord "=" = true → rebinds config trees = false) ∧
      (∀ sequence ∈ tree.sequences, rebinds config sequence = false) ∧ Inert config trees := by
  cases first : tree.isWord "=" <;>
    simp [Inert, sequencesIn, first, or_imp, forall_and]

theorem member (inert : Inert config items) {tree : Tree} (inside : tree ∈ items) :
    ∀ sequence ∈ tree.sequences, rebinds config sequence = false := by
  induction items with
  | nil => cases inside
  | cons first rest ih =>
    obtain ⟨_, here, later⟩ := cons_iff.mp inert
    rcases mem_cons.mp inside with rfl | inside
    · exact here
    · exact ih later inside

theorem suffix {before after : List Tree} (inert : Inert config (before ++ after)) : Inert config after := by
  induction before with
  | nil => exact inert
  | cons tree before ih => exact ih (cons_iff.mp inert).2.2

theorem value {before after : List Tree} {eq : Tree} (inert : Inert config (before ++ eq :: after))
    (isEq : eq.isWord "=" = true) : rebinds config after = false :=
  (cons_iff.mp inert.suffix).1 isEq

theorem part (inert : Inert config items) {some : List Tree} (inside : ∀ tree ∈ some, tree ∈ items)
    (unassigned : Unassigned some) : Inert config some := by
  induction some with
  | nil => exact fun _ member => nomatch member
  | cons tree trees ih =>
    rw [forall_mem_cons] at inside
    obtain ⟨first, rest⟩ := forall_mem_cons.mp unassigned
    refine cons_iff.mpr ⟨fun isEq => ?_, inert.member inside.1, ih inside.2 rest⟩
    rw [isEq] at first
    cases first

theorem children {children : List Tree} {bracket : Bracket} {divider : Divider} {pos : Position}
    (inert : ∀ sequence ∈ (group children bracket divider pos).sequences,
      rebinds config sequence = false) (evaluated : bracket ≠ .brace) :
    rebinds config children = false ∧ Inert config children := by
  have same : (group children bracket divider pos).sequences = children :: sequencesIn children := by
    cases bracket <;> first
      | exact absurd rfl evaluated
      | rfl
  rw [same, forall_mem_cons] at inert
  exact inert

end Inert

end Tree

/-! ## What targets evaluate to -/

theorem ScopeTree.resolve_of_lookup {tree : ScopeTree} {id : Nat} {name : String} {var : VarId}
    (bound : tree.lookup id name = some var) : tree.resolve id name = some var := by
  obtain ⟨scope, found, own⟩ := Option.bind_eq_some_iff.mp bound
  rw [resolve, ancestry, ancestryUpTo, found]
  cases parent : scope.parent <;> simp only [parent, findSome?_cons, own]

theorem ScopeTree.exists_lookup_of_resolve {tree : ScopeTree} {id : Nat} {name : String}
    {var : VarId} (resolved : tree.resolve id name = some var) : ∃ place, tree.lookup place name = some var := by
  have climbs (bound place : Nat)
      (found : (tree.ancestryUpTo bound place).findSome? (fun scope => scope.find? name) = some var) :
      ∃ place, tree.lookup place name = some var := by
    induction bound generalizing place with
    | zero => cases found
    | succ bound ih =>
      rw [ancestryUpTo] at found
      cases there : tree.scopes[place]? with
      | none =>
        rw [there] at found
        cases found
      | some scope =>
        have here (bound : scope.find? name = some var) : tree.lookup place name = some var := by
          rw [lookup, there]
          exact bound
        simp only [there] at found
        cases parent : scope.parent with
        | none =>
          rw [parent] at found
          simp only [findSome?_cons, findSome?_nil] at found
          split at found
          · next own => exact ⟨place, here (found ▸ own)⟩
          · cases found
        | some outer =>
          rw [parent] at found
          simp only [findSome?_cons] at found
          split at found
          · next own => exact ⟨place, here (found ▸ own)⟩
          · exact ih outer found
  exact climbs _ _ resolved

namespace State

variable {s : State} {items : List Tree}

inductive Constructs (s : State) : List Tree → Prop where
  | new {first type arguments : Tree} (isNew : first.isWord "new" = true) :
      Constructs s [first, type, arguments]
  | group {children : List Tree} {pos : Position} (inside : Constructs s children) :
      Constructs s [.group children .paren .space pos]
  | word {token : Token} {id : VarId} (bare : Engine.literal? token.text token.position = none)
      (resolved : s.resolve token.text = some id) (made : ¬ s.Plain id) :
      Constructs s [.leaf token]

theorem Tidy.constructs (tidy : s.Tidy) (constructs : s.Constructs items) : Tree.constructs s.config items = true := by
  induction constructs with
  | new isNew => exact isNew
  | group _ ih => exact ih
  | @word token id bare resolved made =>
    obtain ⟨place, bound⟩ := ScopeTree.exists_lookup_of_resolve resolved
    obtain ⟨var, found, named⟩ := tidy.bound place _ id bound
    cases isMade : var.constructed with
    | false => exact absurd ⟨var, found, isMade⟩ made
    | true =>
      obtain ⟨_, generated, _⟩ := tidy.made id var found isMade
      rw [named] at generated
      exact generated

/-- What can be evaluated where constructed variables are to keep what they refer to. The target of
the first assignment is looked up at once, so that it matters what its name stands for; what comes
later must be faithful however it is written. -/
def Accepts (mode : Mode) (s : State) (items : List Tree) : Prop :=
  mode.faithful → Tree.Inert s.config items ∧
    ∀ target eq value, splitAssignment items = some (target, eq, value) →
      ¬ s.Constructs target ∨ Tree.isTruth value = true

theorem Fair.accepts {mode : Mode} (fair : s.Fair mode)
    (faithful : mode.faithful → Tree.rebinds s.config items = false ∧ Tree.Inert s.config items) :
    s.Accepts mode items := by
  intro isFaithful
  obtain ⟨spared, inert⟩ := faithful isFaithful
  refine ⟨inert, fun target eq value split => ?_⟩
  rw [Tree.rebinds, split, Bool.and_eq_false_iff, Bool.not_eq_false'] at spared
  refine spared.imp_left (fun other constructs => ?_)
  rw [(fair isFaithful).constructs constructs] at other
  cases other

/-- A word is a literal, or stands for a truth value if it stands for anything. -/
def Scored (s : State) (word : String) : Prop :=
  (∀ pos, Engine.literal? word pos ≠ none) ∨ ∀ id, s.resolve word = some id → s.IsVar .bool id

theorem Scored.of_resolve {t : State} {word : String} (scored : s.Scored word) (same : t.resolve word = s.resolve word)
    (kept : ∀ id, s.IsVar .bool id → t.IsVar .bool id) : t.Scored word :=
  scored.imp_right (fun truth id resolved => kept id (truth id (same ▸ resolved)))

theorem Scored.not_constructs {token : Token} (scored : s.Scored token.text) (tidy : s.Tidy) :
    ¬ s.Constructs [.leaf token] := by
  rintro (_ | _ | ⟨bare, resolved, made⟩)
  rcases scored with literal | truth
  · exact literal _ bare
  · obtain ⟨var, found, isBool⟩ := truth _ resolved
    exact made (tidy.plain_of_type found (by rw [isBool]; decide))

end State

/-! ## Statements -/

/-- A statement is one of a token list, or one of a block in such a statement. -/
inductive Layout.Holds (layout : Layout) : List Token → Tree → Prop where
  | here {tokens : List Token} {trees : List Tree} {tree : Tree}
      (read : layout.readStatements tokens = .ok trees) (member : tree ∈ trees) :
      Holds layout tokens tree
  | inside {tokens : List Token} {trees : List Tree} {tree block inner : Tree}
      (read : layout.readStatements tokens = .ok trees) (member : tree ∈ trees)
      (part : block ∈ tree.items) (isBody : block.IsBody)
      (holds : Holds layout (Engine.bodyTokens block) inner) : Holds layout tokens inner

def Layout.Faithful (layout : Layout) (config : Config) (tokens : List Token) : Prop :=
  ∀ tree, layout.Holds tokens tree → Tree.isFaithful config tree.items = true

def Tree.AssignsTo (name : String) (tree : Tree) : Prop :=
  ∃ target eq value : Token, tree.items = [.leaf target, .leaf eq, .leaf value] ∧
    target.text = name ∧ eq.text = "=" ∧ name ≠ "if"

namespace State

variable {s : State}

/-- What can be written where constructed variables are to keep what they refer to: a faithful
statement, or one of a generated script that assigns to a truth value. -/
inductive Writes (s : State) (tree : Tree) : Prop where
  | faithful (own : Tree.isFaithful s.config tree.items = true)
      (blocks : ∀ block ∈ tree.items, block.IsBody → s.layout.Faithful s.config (Engine.bodyTokens block))
  | assigns {name : String} (scored : s.Scored name) (assigns : tree.AssignsTo name)
  | tests {keyword name : Token} {body : Tree} {pos : Position}
      (isIf : keyword.text = "if")
      (parts : tree.items = [.leaf keyword, .group [.leaf name] .paren .space pos, body])
      (segment : IsSegment name.text) (scored : s.Scored name.text)
      (assigns : ∀ trees, s.layout.readStatements (Engine.bodyTokens body) = .ok trees →
        ∀ tree ∈ trees, trees = [tree] ∧ tree.AssignsTo name.text)

/-- What can be compiled where constructed variables are to keep what they refer to. -/
inductive Compiles (s : State) (tokens : List Token) : Prop where
  | faithful (faithful : s.layout.Faithful s.config tokens)
  | single (single : ∀ trees, s.layout.readStatements tokens = .ok trees →
      ∀ tree ∈ trees, trees = [tree] ∧ s.Writes tree)

inductive Scripted (s : State) : String → Prop where
  | negation {name : String} (segment : IsSegment name) :
      Scripted s (Compile.negationScript name s.config.separator)
  | conjunction {name other : String} (segment : IsSegment name) (segment' : IsSegment other)
      (scored : s.Scored name) :
      Scripted s (Compile.conjunctionScript name other s.config.separator)
  | disjunction {name other : String} (segment : IsSegment name) (segment' : IsSegment other) :
      Scripted s (Compile.disjunctionScript name other s.config.separator)

end State

end ScoreScript
