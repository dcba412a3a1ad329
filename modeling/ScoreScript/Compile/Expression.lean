import ScoreScript.Compile.Access

/-!
# Expressions

A sequence of trees is split at the first `=`, so that assignment groups to the right; else at the
last operator of the loosest level there is, so that every level groups to the left. An operator
right after another one is a prefix. What no operator splits is a literal, a name, a parenthesized
expression or a construction, and the members taken from it.
-/

namespace ScoreScript.Engine

open Compile

def isOperator (tree : Tree) : Bool :=
  (tree.word?.bind Operator.ofSymbol?).isSome

def isBinary (level : Nat) (tree : Tree) : Bool :=
  (tree.word?.bind Operator.ofSymbol?).bind Operator.precedence? == some level

/-- Split at the last binary operator of a level: what stands before it, the operator and what
stands after it. The tree `previous` stands right before the sequence. -/
def splitAfter (level : Nat) (previous : Tree) : List Tree → Option (List Tree × Tree × List Tree)
  | [] => none
  | tree :: trees =>
      match splitAfter level tree trees with
      | some (before, op, after) => some (tree :: before, op, after)
      | none =>
          if isBinary level tree && !isOperator previous then some ([], tree, trees) else none

/-- Split at the last binary operator of a level. The first tree is never a binary operator. -/
def splitBinary (level : Nat) : List Tree → Option (List Tree × Tree × List Tree)
  | [] => none
  | first :: trees =>
      (splitAfter level first trees).map (fun (before, op, after) => (first :: before, op, after))

/-- Split at the last operator of the loosest level from `level` on, of which `count` are left. -/
def splitLoosest (items : List Tree) : Nat → Nat → Option (List Tree × Tree × List Tree)
  | 0, _ => none
  | count + 1, level =>
      match splitBinary level items with
      | some parts => some parts
      | none => splitLoosest items count (level + 1)

/-- Split at the first `=`: what stands before it, the `=` and what stands after it. -/
def splitAssignment : List Tree → Option (List Tree × Tree × List Tree)
  | [] => none
  | tree :: trees =>
      if tree.isWord "=" then some ([], tree, trees)
      else (splitAssignment trees).map (fun (before, eq, after) => (tree :: before, eq, after))

/-- The trees before a dot and the member after it, where a sequence ends in these two. -/
def splitMember (target : List Tree) : Option (List Tree × Tree) :=
  match target.reverse with
  | member :: dot :: base :: rest =>
      if dot.isWord "." then some ((base :: rest).reverse, member) else none
  | _ => none

/-- The opposite of a number: what is left of zero when it is taken away. -/
def opposite (engine : Engine) (value : VarId) (position : Position) : Compile VarId := do
  let nought ← constantInt 0 position
  engine.operate nought .subtract value position

/-- What a literal stands for. A text between quotes is decoded as `decode?` says. -/
def literal? (word : String) (position : Position)
    (decode? : String → Option String := Json.decodeText?) : Option (Compile VarId) :=
  if word == "true" then some (constantBool true position)
  else if word == "false" then some (constantBool false position)
  else if word.toList.head? == some '"' then
    match decode? word with
    | some text => some (constantText text position)
    | none => some (throw ⟨.invalidStringLiteral word, position⟩)
  else
    match Score.parse? word with
    | some score => some (constantInt score position)
    | none =>
        let digits := match word.toList with
          | '-' :: rest => rest
          | rest => rest
        if (digits.head?.map Char.isDigit).getD false then
          some (throw ⟨.invalidIntegerLiteral word, position⟩)
        else none

def named (word : String) (position : Position) : Compile VarId := do
  if (Operator.ofSymbol? word).isSome then throw ⟨.operatorAsValue word, position⟩
  match (← get).resolve word with
  | some id => return id
  | none => throw ⟨.unknownName word, position⟩

/-- The value of a word: a literal or a name, with any number of prefixes in front of it. -/
def evaluateWord (engine : Engine) (position : Position) (chars : List Char)
    (decode? : String → Option String := Json.decodeText?) : Compile VarId :=
  match chars with
  | [] => named "" position
  | c :: rest =>
      let word := String.ofList (c :: rest)
      match literal? word position decode? with
      | some value => value
      | none =>
          if c = '!' ∧ !rest.isEmpty then do
            let value ← engine.evaluateWord position rest decode?
            engine.operate value .negation value position
          else if c = '-' ∧ !rest.isEmpty then do
            let value ← engine.evaluateWord position rest decode?
            engine.opposite value position
          else named word position

def evaluatePrimary (engine : Engine) (tree : Tree) : Compile VarId := do
  match tree with
  | .leaf token => engine.evaluateWord token.position token.text.toList
  | .group _ .paren _ _ => engine.evaluateTree tree
  | .group _ bracket _ position => throw ⟨.bracketInExpression bracket.opening, position⟩

def evaluateMembers (engine : Engine) (value : VarId) (rest : List Tree) (position : Position) :
    Compile (Option VarId) := do
  match rest with
  | [] => return some value
  | dot :: path =>
      if dot.isWord "." then engine.access value path position
      else throw ⟨.expectedOperator dot.shown, dot.position⟩

def evaluateNew (engine : Engine) (items : List Tree) (position : Position) :
    Compile (Option VarId) := do
  match items with
  | [] => throw ⟨.expectedTypeAfterNew, position⟩
  | typeTree :: rest =>
      let token ← typeTree.asLeaf
      let type ← typeNamed token.text token.position
      if !type.isConstructible then throw ⟨.notConstructible type, token.position⟩
      match rest with
      | [] => throw ⟨.expectedArgumentsAfterNew type, token.position⟩
      | arguments :: rest =>
          let args ← engine.evaluateArguments arguments
          let value ← construct args position
          engine.evaluateMembers value rest position

/-- An assignment, split at its `=`. A member is assigned through its owner. -/
def evaluateAssignment (engine : Engine) (target : List Tree) (eq : Tree) (rest : List Tree)
    (position : Position) : Compile (Option VarId) := do
  if target.isEmpty then throw ⟨.expectedTarget, position⟩
  match splitMember target with
  | some (base, member) =>
      let owner ← engine.evaluateItems base position
      engine.access owner (member :: eq :: rest) position
  | none =>
      let owner ← engine.evaluateItems target position
      engine.operateWord owner eq rest

/-- Evaluate a sequence of trees with `engine` for what lies deeper. -/
def evaluateSequence (engine : Engine) (items : List Tree) (position : Position) :
    Compile (Option VarId) := do
  match items with
  | [] => throw ⟨.expectedValue, position⟩
  | first :: rest =>
      let position := first.position
      match splitAssignment items with
      | some (target, eq, value) => engine.evaluateAssignment target eq value position
      | none =>
          match splitLoosest items Operator.levels 0 with
          | some (left, op, right) =>
              let value ← engine.evaluateItems left position
              engine.operateWord value op right
          | none =>
              if first.isWord "!" then
                let value ← engine.evaluateItems rest position
                return some (← engine.operate value .negation value position)
              else if first.isWord "-" then
                let value ← engine.evaluateItems rest position
                return some (← engine.opposite value position)
              else if first.isWord "new" then engine.evaluateNew rest position
              else
                let value ← engine.evaluatePrimary first
                engine.evaluateMembers value rest position

end ScoreScript.Engine
