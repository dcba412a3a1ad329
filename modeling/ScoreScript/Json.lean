/-!
# JSON documents

The data that JSON texts stand for. A number keeps the spelling it has, since nothing here
computes with it.
-/

namespace ScoreScript

inductive Json where
  | null
  | bool (value : Bool)
  | number (spelling : String)
  | text (content : String)
  /-- A string with an escape that names no character, such as one half of a surrogate pair. -/
  | garbled
  | array (items : List Json)
  /-- The members in the order written. A name with an escape that names no character is
  absent. -/
  | object (members : List (Option String × Json))

/-- A member of an object that holds a text. -/
def Json.ofTexts (member : String × String) : Option String × Json :=
  (some member.1, .text member.2)

end ScoreScript
