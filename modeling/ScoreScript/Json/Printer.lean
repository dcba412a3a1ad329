import ScoreScript.Json
import ScoreScript.Json.Text

/-!
# Writing JSON

Documents are written over several lines, two spaces deeper for each level, with one item or
member on a line. An empty array or object stays on its line.
-/

namespace ScoreScript.Json

def lineBreak (level : Nat) : String :=
  String.ofList ('\n' :: List.replicate (2 * level) ' ')

/-- Items between two brackets, each on a line of its own one level deeper. -/
def renderLines (opening closing : String) (level : Nat) (items : List String) : String :=
  if items.isEmpty then opening ++ closing
  else
    opening ++ lineBreak (level + 1) ++ ("," ++ lineBreak (level + 1)).intercalate items ++
      lineBreak level ++ closing

mutual

def renderAt (level : Nat) : Json → String
  | null => "null"
  | bool true => "true"
  | bool false => "false"
  | number spelling => spelling
  | text content => encodeText content
  | garbled => encodeText ""
  | array items => renderLines "[" "]" level (renderItems (level + 1) items)
  | object members => renderLines "\x7b" "\x7d" level (renderMembers (level + 1) members)

def renderItems (level : Nat) : List Json → List String
  | [] => []
  | item :: items => item.renderAt level :: renderItems level items

def renderMembers (level : Nat) : List (Option String × Json) → List String
  | [] => []
  | (name, value) :: members =>
      (encodeText (name.getD "") ++ ": " ++ value.renderAt level) :: renderMembers level members

end

def render (document : Json) : String :=
  document.renderAt 0

end ScoreScript.Json
