import ScoreScript.Compile.Storage

/-!
# Conversions between types

A conversion from one type to another can be supplied by either of them. Where both supply one, the
source type's is tried first, and the target type's only when that one refuses the value.
-/

namespace ScoreScript

/-- Which conversions there are between named types: for a pair of names, the one that the source
type supplies and the one that the target type supplies. -/
structure ConversionGraph (α : Type) where
  edges : List ((String × String) × (Option α × Option α)) := []

namespace ConversionGraph

variable {α : Type}

/-- The two conversions of a pair; none when neither type supplies one. -/
def lookup (graph : ConversionGraph α) (source target : String) : Option (Option α × Option α) :=
  graph.edges.lookup (source, target)

def update (graph : ConversionGraph α) (source target : String)
    (change : Option α × Option α → Option α × Option α) : ConversionGraph α :=
  match graph.lookup source target with
  | some _ =>
      { edges := graph.edges.map
          (fun edge => if edge.1 = (source, target) then (edge.1, change edge.2) else edge) }
  | none => { edges := graph.edges ++ [((source, target), change (none, none))] }

def supplyTo (graph : ConversionGraph α) (source target : String) (conversion : α) : ConversionGraph α :=
  graph.update source target (fun slots => (some conversion, slots.2))

def supplyFrom (graph : ConversionGraph α) (source target : String) (conversion : α) : ConversionGraph α :=
  graph.update source target (fun slots => (slots.1, some conversion))

/-- The pairs with a conversion, in the order of their names. -/
def pairs (graph : ConversionGraph α) : List (String × String) :=
  (graph.edges.map Prod.fst).mergeSort
    (fun a b => a.1 < b.1 || (a.1 == b.1 && (a.2 < b.2 || a.2 == b.2)))

end ConversionGraph

inductive Conversion where
  | intToBool
  | intToText
  | boolToInt
deriving DecidableEq

namespace ValueType

def conversionsTo : ValueType → List (ValueType × Conversion)
  | int => [(bool, .intToBool), (string, .intToText)]
  | bool => [(int, .boolToInt)]
  | string | objective => []

/-- The conversions that a type supplies from other types. -/
def conversionsFrom (_ : ValueType) : List (ValueType × Conversion) :=
  []

end ValueType

/-- The conversions that the types of the language supply. -/
def ConversionGraph.standard : ConversionGraph Conversion :=
  ValueType.all.foldl (fun graph type =>
    type.conversionsFrom.foldl
      (fun graph (source, conversion) => graph.supplyFrom source.name type.name conversion)
      (type.conversionsTo.foldl
        (fun graph (target, conversion) => graph.supplyTo type.name target.name conversion)
        graph)) {}

namespace Compile

/-- A number is true unless it is zero. One in a register gives a register of its own that is 0 or
1. -/
def intToBool (value : VarId) (position : Position) : Compile VarId := do
  match ← operand value position with
  | .constant score => constantBool (score != 0) position
  | .resident register =>
      let result ← temporary ValueType.bool.name position
      match ← registerOf? result with
      | none => throw ⟨.boolWithoutRegister, position⟩
      | some target =>
          emit [.set target 0,
            .guarded false (.inRange register (.exactly 0)) (.set target 1)]
          return result

/-- Only a number known while compiling has a text. -/
def intToText (value : VarId) (position : Position) : Compile VarId := do
  let owner ← var value
  match owner.value with
  | .int score => constantText score.render position
  | _ => throw ⟨.cannotCast owner.describe ValueType.string.name, position⟩

/-- A truth value is a number already and keeps its register. -/
def boolToInt (value : VarId) (position : Position) : Compile VarId := do
  match ← operand value position with
  | .constant score => constantInt score position
  | .resident register => bindRegister ValueType.int.name register position

def convert (conversion : Conversion) (value : VarId) (position : Position) : Compile VarId :=
  match conversion with
  | .intToBool => intToBool value position
  | .intToText => intToText value position
  | .boolToInt => boolToInt value position

/-- Convert a variable to a type with the conversions of a graph. A variable of that type stays as
it is. -/
def castWith (graph : ConversionGraph Conversion) (value : VarId) (target : String)
    (position : Position) : Compile VarId := do
  let owner ← var value
  if owner.type.name = target then return value
  match graph.lookup owner.type.name target with
  | some (some first, some second) =>
      match ← attempt (convert first value position) with
      | .ok result => return result
      | .error fault =>
          if fault.kind = .cannotCast then convert second value position else throw fault
  | some (some only, none) => convert only value position
  | some (none, some only) => convert only value position
  | some (none, none) | none => throw ⟨.cannotCast owner.describe target, position⟩

def cast (value : VarId) (target : String) (position : Position) : Compile VarId :=
  castWith .standard value target position

end Compile

end ScoreScript
