import ScoreScript.Json
import ScoreScript.Json.Text

/-!
# Reading JSON

A document is read by its grammar. Numbers are checked for their form only, and a name may occur
more than once in an object. The nesting of a document is bounded by its length.
-/

namespace ScoreScript.Json

def skipSpace (input : List Char) : List Char :=
  input.dropWhile isSpace

def afterWord? : List Char → List Char → Option (List Char)
  | [], input => some input
  | _ :: _, [] => none
  | w :: word, c :: input => if w = c then afterWord? word input else none

def readDigits (input : List Char) : Option (List Char × List Char) :=
  let digits := input.takeWhile Char.isDigit
  if digits.isEmpty then none else some (digits, input.dropWhile Char.isDigit)

/-- The whole part of a number: a lone zero, or digits that do not start with a zero. -/
def readWhole (input : List Char) : Option (List Char × List Char) :=
  match input with
  | '0' :: rest => if (rest.head?.map Char.isDigit).getD false then none else some (['0'], rest)
  | _ => readDigits input

def readFraction (input : List Char) : Option (List Char × List Char) :=
  match input with
  | '.' :: rest => (readDigits rest).map (fun (digits, after) => ('.' :: digits, after))
  | _ => some ([], input)

def readExponent (input : List Char) : Option (List Char × List Char) :=
  match input with
  | c :: rest =>
      if c = 'e' ∨ c = 'E' then
        match rest with
        | s :: digits =>
            if s = '+' ∨ s = '-' then
              (readDigits digits).map (fun (digits, after) => (c :: s :: digits, after))
            else (readDigits rest).map (fun (digits, after) => (c :: digits, after))
        | [] => none
      else some ([], input)
  | [] => some ([], input)

def readNumber (input : List Char) : Option (String × List Char) := do
  let (sign, input) := match input with
    | '-' :: rest => (['-'], rest)
    | _ => ([], input)
  let (whole, input) ← readWhole input
  let (fraction, input) ← readFraction input
  let (exponent, input) ← readExponent input
  return (String.ofList (sign ++ whole ++ fraction ++ exponent), input)

/-- A string after its opening quote: its text, unless an escape in it names no character. -/
def readText (input : List Char) : Option (Option String × List Char) :=
  (readPieces .none input).map
    (fun (pieces, after) => ((joinPieces pieces).map String.ofList, after))

def ofText? : Option String → Json
  | some content => .text content
  | none => .garbled

mutual

/-- A document at the start of a text without blanks before it, and what follows it. -/
def readValue : Nat → List Char → Option (Json × List Char)
  | 0, _ => none
  | depth + 1, input =>
      match input with
      | [] => none
      | c :: rest =>
          if c = '"' then (readText rest).map (fun (content, after) => (ofText? content, after))
          else if c = '[' then
            match skipSpace rest with
            | ']' :: after => some (.array [], after)
            | rest => (readItems depth rest).map (fun (items, after) => (.array items, after))
          else if c = '\x7b' then
            match skipSpace rest with
            | '\x7d' :: after => some (.object [], after)
            | rest =>
                (readMembers depth rest).map (fun (members, after) => (.object members, after))
          else if c = 't' then (afterWord? "rue".toList rest).map (fun after => (.bool true, after))
          else if c = 'f' then
            (afterWord? "alse".toList rest).map (fun after => (.bool false, after))
          else if c = 'n' then (afterWord? "ull".toList rest).map (fun after => (.null, after))
          else (readNumber input).map (fun (spelling, after) => (.number spelling, after))

def readItems : Nat → List Char → Option (List Json × List Char)
  | 0, _ => none
  | depth + 1, input => do
      let (item, rest) ← readValue depth input
      match skipSpace rest with
      | ']' :: after => return ([item], after)
      | ',' :: rest =>
          let (items, after) ← readItems depth (skipSpace rest)
          return (item :: items, after)
      | _ => none

def readMembers : Nat → List Char → Option (List (Option String × Json) × List Char)
  | 0, _ => none
  | depth + 1, input => do
      match input with
      | '"' :: rest =>
          let (name, rest) ← readText rest
          match skipSpace rest with
          | ':' :: rest =>
              let (value, rest) ← readValue depth (skipSpace rest)
              match skipSpace rest with
              | '\x7d' :: after => return ([(name, value)], after)
              | ',' :: rest =>
                  let (members, after) ← readMembers depth (skipSpace rest)
                  return ((name, value) :: members, after)
              | _ => none
          | _ => none
      | _ => none

end

def parse? (input : String) : Option Json :=
  match readValue (2 * input.length + 2) (skipSpace input.toList) with
  | some (value, after) => if after.all isSpace then some value else none
  | none => none

end ScoreScript.Json
