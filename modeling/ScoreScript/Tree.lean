import ScoreScript.Text.Blank
import ScoreScript.Token

/-!
# Word trees

A tree is a single word, or a group of trees between brackets. Everything that reads a script
after bracket matching, be it an expression, an argument list or a body, reads trees.
-/

namespace ScoreScript

inductive Divider where
  | space
  | comma
  /-- A list of statements; the separator follows each of them. -/
  | statement (separator : Char)
deriving DecidableEq

def Divider.char : Divider → Char
  | space => ' '
  | comma => ','
  | statement separator => separator

inductive Tree where
  | leaf (token : Token)
  | group (children : List Tree) (bracket : Bracket) (divider : Divider) (position : Position)

namespace Tree

def position : Tree → Position
  | leaf token => token.position
  | group _ _ _ position => position

def isLeaf : Tree → Bool
  | leaf _ => true
  | group .. => false

def isGroup : Tree → Bool
  | leaf _ => false
  | group .. => true

def word? : Tree → Option String
  | leaf token => some token.text
  | group .. => none

def isWord (tree : Tree) (text : String) : Bool :=
  tree.word? == some text

def bracket? : Tree → Option Bracket
  | leaf _ => none
  | group _ bracket _ _ => some bracket

def divider? : Tree → Option Divider
  | leaf _ => none
  | group _ _ divider _ => some divider

/-- A group of trees. One word alone on a line is that word, and a line starts where its first
member does. -/
def ofChildren (children : List Tree) (bracket : Bracket) (divider : Divider) (position : Position) : Tree :=
  match bracket, divider, children with
  | .line, .space, [leaf token] => leaf token
  | .line, _, first :: rest => group (first :: rest) .line divider first.position
  | _, _, _ => group children bracket divider position

def line (children : List Tree) (position : Position) : Tree :=
  ofChildren children .line .space position

/-- The trees that a statement is made of: the members of a line, or the tree itself. -/
def items : Tree → List Tree
  | group children .line _ _ => children
  | tree => [tree]

mutual

def countLeaves : Tree → Nat
  | leaf _ => 1
  | group children _ _ _ => countLeavesList children

def countLeavesList : List Tree → Nat
  | [] => 0
  | tree :: trees => tree.countLeaves + countLeavesList trees

end

mutual

def leaves : Tree → List Token
  | leaf token => [token]
  | group children _ _ _ => leavesList children

def leavesList : List Tree → List Token
  | [] => []
  | tree :: trees => tree.leaves ++ leavesList trees

end

/-- The text of a group from the texts of its members. A statement separator also follows the
last member, and stands alone in an empty group. -/
def renderGroup (bracket : Bracket) (divider : Divider) (members : List String) : String :=
  let char := divider.char.toString
  let body := match divider with
    | .statement _ => if members.isEmpty then char else char.intercalate members ++ char
    | .space | .comma => char.intercalate members
  bracket.opening.toString ++ body ++ bracket.closing.toString

mutual

def render : Tree → String
  | leaf token => token.text
  | group children bracket divider _ => renderGroup bracket divider (renderList children)

def renderList : List Tree → List String
  | [] => []
  | tree :: trees => tree.render :: renderList trees

end

def shown (tree : Tree) : String :=
  Text.trim tree.render

mutual

/-- The words and brackets that a tree was grouped from. Brackets and commas report the position
of their group. -/
def tokens : Tree → List Token
  | leaf token => [token]
  | group children bracket divider position =>
      if bracket.isWritten then
        .ofChar bracket.opening position ::
          (innerTokens divider position children ++ [.ofChar bracket.closing position])
      else innerTokens divider position children

/-- The words and brackets of the members of a group. A statement separator reports the position
of the statement before it. -/
def innerTokens (divider : Divider) (position : Position) : List Tree → List Token
  | [] => []
  | tree :: trees =>
      match divider with
      | .space => tree.tokens ++ innerTokens divider position trees
      | .statement separator =>
          tree.tokens ++ .ofChar separator tree.position :: innerTokens divider position trees
      | .comma =>
          match trees with
          | [] => tree.tokens
          | _ :: _ => tree.tokens ++ .ofChar ',' position :: innerTokens divider position trees

end

mutual

/-- The words and brackets that a tree was grouped from, in front of other tokens. It looks at each
token once, however deep the tree is. -/
def tokensOnto : Tree → List Token → List Token
  | leaf token, after => token :: after
  | group children bracket divider position, after =>
      if bracket.isWritten then
        .ofChar bracket.opening position ::
          innerTokensOnto divider position children (.ofChar bracket.closing position :: after)
      else innerTokensOnto divider position children after

/-- The words and brackets of the members of a group, in front of other tokens. -/
def innerTokensOnto (divider : Divider) (position : Position) :
    List Tree → List Token → List Token
  | [], after => after
  | tree :: trees, after =>
      match divider with
      | .space => tree.tokensOnto (innerTokensOnto divider position trees after)
      | .statement separator =>
          tree.tokensOnto
            (.ofChar separator tree.position :: innerTokensOnto divider position trees after)
      | .comma =>
          match trees with
          | [] => tree.tokensOnto after
          | next :: trees =>
              tree.tokensOnto
                (.ofChar ',' position :: innerTokensOnto divider position (next :: trees) after)

end

mutual

theorem tokensOnto_eq (tree : Tree) (after : List Token) : tree.tokensOnto after = tree.tokens ++ after := by
  match tree with
  | leaf token => rfl
  | group children bracket divider position =>
      rw [tokensOnto, tokens]
      split
      · simp [innerTokensOnto_eq divider position children]
      · exact innerTokensOnto_eq divider position children after

theorem innerTokensOnto_eq (divider : Divider) (position : Position) (trees : List Tree) (after : List Token) :
    innerTokensOnto divider position trees after = innerTokens divider position trees ++ after := by
  match trees with
  | [] => rw [innerTokensOnto, innerTokens, List.nil_append]
  | [tree] =>
      cases divider <;>
        simp [innerTokensOnto, innerTokens, tokensOnto_eq tree]
  | tree :: next :: rest =>
      have tail := innerTokensOnto_eq divider position (next :: rest) after
      cases divider <;>
        · rw [innerTokensOnto, innerTokens]
          simp [tokensOnto_eq tree, tail]

end

mutual

/-- Whether two trees differ in positions only. -/
def sameShape : Tree → Tree → Bool
  | leaf a, leaf b => a.text == b.text
  | group as bracketA dividerA _, group bs bracketB dividerB _ =>
      bracketA == bracketB && dividerA == dividerB && sameShapes as bs
  | leaf _, group .. => false
  | group .., leaf _ => false

def sameShapes : List Tree → List Tree → Bool
  | [], [] => true
  | a :: as, b :: bs => a.sameShape b && sameShapes as bs
  | [], _ :: _ => false
  | _ :: _, [] => false

end

def asLeaf (tree : Tree) : Except Fault Token :=
  match tree with
  | leaf token => .ok token
  | group _ _ _ position => .error ⟨.notAWord tree.shown, position⟩

def asChildren : Tree → Except Fault (List Tree)
  | group children _ _ _ => .ok children
  | leaf token => .error ⟨.notAGroup token.text, token.position⟩

/-- The group over the members numbered `first` up to but not including `stop`. -/
def slice (tree : Tree) (first stop : Nat) : Except Fault Tree :=
  match tree with
  | leaf token => .error ⟨.notAGroup token.text, token.position⟩
  | group children bracket divider position =>
      if first ≤ stop ∧ stop ≤ children.length then
        .ok (ofChildren ((children.take stop).drop first) bracket divider position)
      else .error ⟨.sliceOutOfRange children.length, position⟩

end Tree

end ScoreScript
