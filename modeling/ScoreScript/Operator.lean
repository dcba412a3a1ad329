/-!
# Operators

The words that join values in an expression. One table gives each operator its symbol; the kind
says who carries the operator out, and the precedence says how tightly a binary operator binds.
-/

namespace ScoreScript

inductive Operator where
  | new
  | access
  | assign
  | add
  | subtract
  | multiply
  | divide
  | modulo
  | greater
  | greaterEqual
  | equal
  | notEqual
  | less
  | lessEqual
  | both
  | either
  | negation
deriving DecidableEq

namespace Operator

/-- What an operator does, and so which part of a value type carries it out. -/
inductive Kind where
  | assignment
  | arithmetic
  | comparison
  | boolean
  /-- Member access and construction, which no value type carries out. -/
  | structural
deriving DecidableEq

def symbol : Operator → String
  | new => "new"
  | access => "."
  | assign => "="
  | add => "+"
  | subtract => "-"
  | multiply => "*"
  | divide => "/"
  | modulo => "%"
  | greater => ">"
  | greaterEqual => ">="
  | equal => "=="
  | notEqual => "!="
  | less => "<"
  | lessEqual => "<="
  | both => "&&"
  | either => "||"
  | negation => "!"

def all : List Operator :=
  [new, access, assign, add, subtract, multiply, divide, modulo, greater, greaterEqual, equal,
    notEqual, less, lessEqual, both, either, negation]

def ofSymbol? (word : String) : Option Operator :=
  all.find? (fun op => op.symbol == word)

def kind : Operator → Kind
  | new | access => .structural
  | assign => .assignment
  | add | subtract | multiply | divide | modulo => .arithmetic
  | greater | greaterEqual | equal | notEqual | less | lessEqual => .comparison
  | both | either | negation => .boolean

/-- How tightly a binary operator binds, loosest first. The other operators are read apart from
the binary ones and have no precedence. -/
def precedence? : Operator → Option Nat
  | either => some 0
  | both => some 1
  | greater | greaterEqual | equal | notEqual | less | lessEqual => some 2
  | add | subtract => some 3
  | multiply | divide | modulo => some 4
  | new | access | assign | negation => none

def levels : Nat := 5

theorem mem_all (op : Operator) : op ∈ all := by
  cases op <;> decide

/-- The table is unambiguous: the symbol of an operator reads back as that operator. -/
@[simp]
theorem ofSymbol?_symbol (op : Operator) : ofSymbol? op.symbol = some op := by
  cases op <;> decide

end Operator

end ScoreScript
