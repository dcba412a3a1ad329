import ScoreScript.Token.Lexer
import ScoreScript.Tree

/-!
# Grouping words into trees

One pass over the words matches brackets with a stack of open groups. A group that holds the
statement separator at its own level is a list of statements, one that holds a comma a list of
arguments, and any other a loose sequence. Empty statements are dropped; an empty argument is a
fault.
-/

namespace ScoreScript

/-- How a script is cut into words and statements. -/
structure Layout where
  source : Nat := 0
  separator : Char := ';'
deriving DecidableEq

namespace Tree

/-- A member of a group that is not finished: a tree, or a separator that may divide it. -/
inductive Item where
  | tree (tree : Tree)
  | separator (token : Token)

namespace Item

def isSeparator (c : Char) : Item → Bool
  | tree _ => false
  | separator token => token.isChar c

/-- A separator that divides nothing is an ordinary word. -/
def toTree : Item → Tree
  | tree t => t
  | separator token => leaf token

/-- The pieces between the separators `c`; there is always at least one. -/
def split (c : Char) : List Item → List (List Item)
  | [] => [[]]
  | item :: items =>
      if item.isSeparator c then [] :: split c items
      else
        match split c items with
        | [] => [[item]]
        | piece :: pieces => (item :: piece) :: pieces

end Item

def ofPiece (position : Position) (piece : List Item) : Tree :=
  line (piece.map Item.toTree) position

/-- A group whose bracket has not been closed yet; its members stand last first. -/
structure OpenGroup where
  bracket : Bracket
  position : Position
  members : List Item

def close (separator : Char) (bracket : Bracket) (position : Position) (items : List Item) : Except Fault Tree :=
  if items.any (Item.isSeparator separator) then
    let pieces := (Item.split separator items).filter (fun piece => !piece.isEmpty)
    .ok (ofChildren (pieces.map (ofPiece position)) bracket (.statement separator) position)
  else if items.any (Item.isSeparator ',') then
    let pieces := Item.split ',' items
    if pieces.any List.isEmpty then .error ⟨.emptyListItem, position⟩
    else .ok (ofChildren (pieces.map (ofPiece position)) bracket .comma position)
  else .ok (ofChildren (items.map Item.toTree) bracket .space position)

/-- The groups that are open, innermost first, and the finished members outside all brackets, last
first. -/
structure Pending where
  stack : List OpenGroup := []
  top : List Item := []

namespace Pending

def add (pending : Pending) (item : Item) : Pending :=
  match pending.stack with
  | [] => { pending with top := item :: pending.top }
  | inner :: outer =>
      { pending with stack := { inner with members := item :: inner.members } :: outer }

def step (separator : Char) (pending : Pending) (token : Token) : Except Fault Pending :=
  match token.role separator with
  | .opens bracket =>
      .ok { pending with stack := ⟨bracket, token.position, []⟩ :: pending.stack }
  | .closes bracket =>
      match pending.stack with
      | [] => .error ⟨.strayClose bracket.closing, token.position⟩
      | inner :: outer =>
          if inner.bracket ≠ bracket then
            .error ⟨.closeMismatch inner.bracket.closing bracket.closing, token.position⟩
          else do
            let tree ← close separator bracket inner.position inner.members.reverse
            return add { pending with stack := outer } (.tree tree)
  | .separates _ => .ok (pending.add (.separator token))
  | .word => .ok (pending.add (.tree (leaf token)))

/-- The members outside all brackets, once every bracket is closed. -/
def finish (pending : Pending) : Except Fault (List Item) :=
  match pending.stack with
  | [] => .ok pending.top.reverse
  | inner :: _ => .error ⟨.unclosed inner.bracket.closing, inner.position⟩

end Pending

def collect (separator : Char) (tokens : List Token) : Except Fault (List Item) := do
  let pending ← tokens.foldlM (Pending.step separator) {}
  pending.finish

end Tree

namespace Layout

def startOf (layout : Layout) (tokens : List Token) : Position :=
  match tokens with
  | [] => Position.start layout.source
  | token :: _ => token.position

def tokenize (layout : Layout) (text : String) : Except Fault (List Token) :=
  Token.tokenize layout.source layout.separator text

/-- The words of a text that the compiler made up on behalf of `position`. -/
def tokenizeAt (layout : Layout) (text : String) (position : Position) : Except Fault (List Token) :=
  Token.tokenizeAt layout.source layout.separator text position

def group (layout : Layout) (tokens : List Token) : Except Fault (List Tree) := do
  let items ← Tree.collect layout.separator tokens
  let pieces := (Tree.Item.split layout.separator items).filter (fun piece => !piece.isEmpty)
  return pieces.map (Tree.ofPiece (layout.startOf tokens))

/-- The one bracketed group that a token list consists of. -/
def block (layout : Layout) (tokens : List Token) : Except Fault Tree := do
  match ← Tree.collect layout.separator tokens with
  | [.tree tree] =>
      if tree.isGroup then return tree else throw ⟨.notOneGroup, layout.startOf tokens⟩
  | _ => throw ⟨.notOneGroup, layout.startOf tokens⟩

/-- A token list as a single line, whatever separators it holds. -/
def line (layout : Layout) (tokens : List Token) : Except Fault Tree := do
  let items ← Tree.collect layout.separator tokens
  return Tree.ofPiece (layout.startOf tokens) items

/-- The trees of a text, one for each statement outside all brackets. -/
def parse (layout : Layout) (text : String) : Except Fault (List Tree) := do
  layout.group (← layout.tokenize text)

end Layout

end ScoreScript
