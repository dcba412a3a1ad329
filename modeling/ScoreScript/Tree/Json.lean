import ScoreScript.Json
import ScoreScript.Tree

/-!
# Trees as JSON

A tree is an object with one member, named for what the tree is. Positions are objects too.
-/

namespace ScoreScript

def Json.ofFields (fields : List (String × Json)) : Json :=
  .object (fields.map (fun field => (some field.1, field.2)))

def Json.ofNat (n : Nat) : Json :=
  .number (toString n)

def Position.toJson (position : Position) : Json :=
  .ofFields [("source", .ofNat position.source), ("line", .ofNat position.line),
    ("column", .ofNat position.column)]

def Bracket.label : Bracket → String
  | paren => "Paren"
  | brace => "Brace"
  | square => "Bracket"
  | line => "Line"

def Divider.toJson : Divider → Json
  | space => .text "Space"
  | comma => .text "Comma"
  | statement separator => .ofFields [("Statement", .text separator.toString)]

def Token.toJson (token : Token) : Json :=
  .ofFields [("text", .text token.text), ("trace", token.position.toJson)]

namespace Tree

mutual

def toJson : Tree → Json
  | leaf token => .ofFields [("Leaf", token.toJson)]
  | group children bracket divider position =>
      .ofFields [("Group", .ofFields [("children", .array (toJsonList children)),
        ("kind", .text bracket.label), ("separator", divider.toJson),
        ("trace", position.toJson)])]

def toJsonList : List Tree → List Json
  | [] => []
  | tree :: trees => tree.toJson :: toJsonList trees

end

end Tree

end ScoreScript
