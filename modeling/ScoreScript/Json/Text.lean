/-!
# JSON strings

A string is written between double quotes. The quote, the backslash and the characters below
U+0020 are written as escapes, and every other character as it is. Reading accepts the escapes
`\" \\ \/ \b \f \n \r \t` and `\u` with four hexadecimal digits, which give a unit of UTF-16; two
units that form a surrogate pair give one character.
-/

namespace ScoreScript.Json

def hexDigits (n : Nat) : List Char :=
  [n / 4096 % 16, n / 256 % 16, n / 16 % 16, n % 16].map Nat.digitChar

def encodeChar (c : Char) : List Char :=
  if c = '"' then ['\\', '"']
  else if c = '\\' then ['\\', '\\']
  else if c.toNat = 8 then ['\\', 'b']
  else if c.toNat = 12 then ['\\', 'f']
  else if c = '\n' then ['\\', 'n']
  else if c = '\r' then ['\\', 'r']
  else if c = '\t' then ['\\', 't']
  else if c.toNat < 0x20 then '\\' :: 'u' :: hexDigits c.toNat
  else [c]

def encodeText (text : String) : String :=
  String.ofList ('"' :: (text.toList.flatMap encodeChar ++ ['"']))

/-- A part of a string literal: a character, or a unit of UTF-16 written as an escape. -/
inductive Piece where
  | char (c : Char)
  | unit (value : Nat)

def hexValue? (c : Char) : Option Nat :=
  if '0' ≤ c ∧ c ≤ '9' then some (c.toNat - '0'.toNat)
  else if 'a' ≤ c ∧ c ≤ 'f' then some (c.toNat - 'a'.toNat + 10)
  else if 'A' ≤ c ∧ c ≤ 'F' then some (c.toNat - 'A'.toNat + 10)
  else none

/-- The character that a single letter after a backslash stands for. -/
def simpleEscape? (c : Char) : Option Char :=
  match c with
  | '"' => some '"'
  | '\\' => some '\\'
  | '/' => some '/'
  | 'b' => some (Char.ofNat 8)
  | 'f' => some (Char.ofNat 12)
  | 'n' => some '\n'
  | 'r' => some '\r'
  | 't' => some '\t'
  | _ => none

inductive Escape where
  | none
  | backslash
  /-- After `\u`: how many digits are still to come, and the value of those read. -/
  | unit (missing value : Nat)

/-- The pieces of a string up to its closing quote, and what follows the quote. -/
def readPieces : Escape → List Char → Option (List Piece × List Char)
  | _, [] => Option.none
  | .none, c :: rest =>
      if c = '"' then some ([], rest)
      else if c = '\\' then readPieces .backslash rest
      else if c.toNat < 0x20 then Option.none
      else (readPieces .none rest).map (fun (pieces, after) => (.char c :: pieces, after))
  | .backslash, c :: rest =>
      if c = 'u' then readPieces (.unit 4 0) rest
      else
        match simpleEscape? c with
        | some meant =>
            (readPieces .none rest).map (fun (pieces, after) => (.char meant :: pieces, after))
        | Option.none => Option.none
  | .unit missing value, c :: rest =>
      match hexValue? c with
      | Option.none => Option.none
      | some digit =>
          if missing ≤ 1 then
            (readPieces .none rest).map
              (fun (pieces, after) => (.unit (value * 16 + digit) :: pieces, after))
          else readPieces (.unit (missing - 1) (value * 16 + digit)) rest

/-- The characters of a string. A unit of a surrogate pair without its other half is none. -/
def joinPieces : List Piece → Option (List Char)
  | [] => some []
  | .char c :: pieces => (joinPieces pieces).map (c :: ·)
  | .unit value :: pieces =>
      if value < 0xD800 ∨ 0xDFFF < value then (joinPieces pieces).map (Char.ofNat value :: ·)
      else if value < 0xDC00 then
        match pieces with
        | .unit low :: rest =>
            if 0xDC00 ≤ low ∧ low ≤ 0xDFFF then
              (joinPieces rest).map
                (Char.ofNat (0x10000 + (value - 0xD800) * 0x400 + (low - 0xDC00)) :: ·)
            else none
        | _ => none
      else none

/-- The characters that may stand around the parts of a document. -/
def isSpace (c : Char) : Bool :=
  c == ' ' || c == '\n' || c == '\t' || c == '\r'

def decodeText? (literal : String) : Option String :=
  match literal.toList.dropWhile isSpace with
  | '"' :: rest =>
      match readPieces .none rest with
      | some (pieces, after) =>
          if after.all isSpace then (joinPieces pieces).map String.ofList else none
      | none => none
  | _ => none

end ScoreScript.Json
