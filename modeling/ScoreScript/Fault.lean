import ScoreScript.Operator
import ScoreScript.Position
import ScoreScript.Value

/-!
# Faults

Everything that can go wrong while a script is compiled. A fault is a cause and the position it is
reported at. The wording of a cause stands in one place, `Cause.message`, and its kind in another,
`Cause.kind`; the rest of the library only names causes.
-/

namespace ScoreScript

inductive FaultKind where
  | mismatchedBracket
  | wrongVariant
  | malformed
  | duplicateName
  | invalidName
  | unknownName
  | invalidModifier
  | unknownMember
  | unsupportedOperation
  | cannotCast
  | wrongArgumentCount
  /-- The compiler broke one of its own rules; the script is not to blame. -/
  | internal
deriving DecidableEq

def FaultKind.label : FaultKind → String
  | mismatchedBracket => "mismatched bracket"
  | wrongVariant => "wrong variant"
  | malformed => "syntax"
  | duplicateName => "duplicate name"
  | invalidName => "invalid name"
  | unknownName => "unknown name"
  | invalidModifier => "invalid modifier"
  | unknownMember => "unknown member"
  | unsupportedOperation => "unsupported operation"
  | cannotCast => "cannot cast"
  | wrongArgumentCount => "wrong argument count"
  | internal => "internal"

inductive NameFlaw where
  | notAnIdentifier
  | reserved
  | generated
  | notAnObjective
  | notAHolder
deriving DecidableEq

def NameFlaw.reason : NameFlaw → String
  | notAnIdentifier => "not a valid identifier"
  | reserved => "reserved"
  | generated => "reserved for compiler-generated names"
  | notAnObjective => "not a valid objective name"
  | notAHolder => "not a valid score holder"

inductive Cause where
  -- Brackets.
  | closeMismatch (expected found : Char)
  | strayClose (found : Char)
  | unclosed (close : Char)
  -- The shape of a tree.
  | notAWord (text : String)
  | notAGroup (word : String)
  -- Words and literals.
  | unterminatedLiteral
  /-- The reason that the decoder gives is no part of the fault. -/
  | invalidStringLiteral (literal : String)
  | invalidIntegerLiteral (literal : String)
  -- Lists.
  | emptyListItem
  | separatorInArguments (separator : Char)
  | expectedArguments (found : String)
  -- Expressions.
  | expectedValue
  | noValue
  | commaInExpression
  | bracketInExpression (opening : Char)
  | expectedTarget
  | expectedOperator (found : String)
  | unknownOperator (word : String)
  | operatorAsValue (word : String)
  | operatorBeforeNew
  | misplacedNegation
  | expectedOperand (op : Operator)
  | expectedTypeAfterNew
  | expectedArgumentsAfterNew (type : ValueType)
  | expectedMember
  | expectedMethodArguments (name : String)
  -- Statements.
  | expectedCondition
  | expectedBody (after : String)
  | strayElse
  | repeatedAccess
  | repeatedUsage
  | expectedType
  | expectedName (type : ValueType)
  | unexpectedAfterName (separator : Char) (name found : String)
  | constantWithoutValue (name : String)
  -- Names.
  | duplicateVariable (name path : String)
  | duplicateObjective (id : String)
  | badName (name : String) (flaw : NameFlaw)
  | unknownName (name : String)
  | unknownType (name : String)
  | refusedModifier (modifier : String) (type : ValueType)
  | unknownMember (type : ValueType) (name : String)
  -- Values.
  | unassignedVariable (name : String)
  | unassignedObjective (name : String)
  | notConstructible (type : ValueType)
  | undefinedOperation (type : ValueType) (op : Operator)
  | readOnlyProperty (name : String)
  | writeOnlyProperty (name : String)
  | methodWithoutValue (name : String)
  | divisionByZero (left : Score) (op : Operator) (right : Score)
  | incompatibleCopy (source : ValueType) (target : String)
  | constantReassigned (name : String)
  | constantFromRegister (name : String)
  | textReassigned (name : String)
  | cannotCast (value target : String)
  | wrongArgumentCount (what expected : String) (found : Nat)
  -- Faults of the compiler itself.
  | unknownScope (scope : Nat)
  | unknownVariable (var : Nat)
  | notOneGroup
  | sliceOutOfRange (children : Nat)
  | expectedIf
  | malformedIf
  | conditionWithoutRegister
  | intWithoutRegister
  | boolWithoutRegister
  | structuralOperation (op : Operator)
  | notArithmetic (op : Operator)
  | notAComparison (op : Operator)
  | noScoreComparison (op : Operator)
  | noScoreRange (op : Operator)
  | notAScore (holder : String) (value : Value)
  | notAText (holder : String) (value : Value)
  | nestingExhausted
deriving DecidableEq

namespace Cause

def quoted (text : String) : String :=
  "'" ++ text ++ "'"

def kind : Cause → FaultKind
  | closeMismatch .. | strayClose _ | unclosed _ => .mismatchedBracket
  | notAWord _ | notAGroup _ => .wrongVariant
  | unterminatedLiteral | invalidStringLiteral _ | invalidIntegerLiteral _ | emptyListItem
  | separatorInArguments _ | expectedArguments _ | expectedValue | noValue | commaInExpression
  | bracketInExpression _ | expectedTarget | expectedOperator _ | unknownOperator _
  | operatorAsValue _ | operatorBeforeNew | misplacedNegation | expectedOperand _
  | expectedTypeAfterNew | expectedArgumentsAfterNew _ | expectedMember
  | expectedMethodArguments _ | expectedCondition | expectedBody _ | strayElse | repeatedAccess
  | repeatedUsage | expectedType | expectedName _ | unexpectedAfterName .. | constantWithoutValue _
  | unassignedVariable _ | unassignedObjective _ => .malformed
  | duplicateVariable .. | duplicateObjective _ => .duplicateName
  | badName .. => .invalidName
  | unknownName _ | unknownType _ => .unknownName
  | refusedModifier .. => .invalidModifier
  | unknownMember .. => .unknownMember
  | notConstructible _ | undefinedOperation .. | readOnlyProperty _ | writeOnlyProperty _
  | methodWithoutValue _ | divisionByZero .. | incompatibleCopy .. | constantReassigned _
  | constantFromRegister _ | textReassigned _ => .unsupportedOperation
  | cannotCast .. => .cannotCast
  | wrongArgumentCount .. => .wrongArgumentCount
  | unknownScope _ | unknownVariable _ | notOneGroup | sliceOutOfRange _ | expectedIf | malformedIf
  | conditionWithoutRegister | intWithoutRegister | boolWithoutRegister | structuralOperation _
  | notArithmetic _ | notAComparison _ | noScoreComparison _ | noScoreRange _ | notAScore ..
  | notAText .. | nestingExhausted => .internal

def message : Cause → String
  | closeMismatch expected found =>
      "Expected " ++ quoted expected.toString ++ ", but got " ++ quoted found.toString
  | strayClose found => "Unexpected " ++ quoted found.toString ++ " with no open bracket"
  | unclosed close => "Expected " ++ quoted close.toString ++ " before the end of input"
  | notAWord text => "Expected a single word, but got " ++ quoted text
  | notAGroup word => "Expected a group, but got the word " ++ quoted word
  | unterminatedLiteral => "Unterminated string literal"
  | invalidStringLiteral literal => "Invalid string literal " ++ literal
  | invalidIntegerLiteral literal => "Invalid integer literal " ++ quoted literal
  | emptyListItem => "Expected a value around ','"
  | separatorInArguments separator =>
      "Unexpected " ++ quoted separator.toString ++ " in an argument list"
  | expectedArguments found => "Expected '(...)', but got " ++ quoted found
  | expectedValue => "Expected a value"
  | noValue => "The expression does not produce a value"
  | commaInExpression => "Unexpected ',' in an expression"
  | bracketInExpression opening => "Unexpected " ++ quoted opening.toString ++ " in an expression"
  | expectedTarget => "Expected a variable before '='"
  | expectedOperator found => "Expected an operator, but got " ++ quoted found
  | unknownOperator word => "unknown operator " ++ quoted word
  | operatorAsValue word => "Expected a value, but got the operator " ++ quoted word
  | operatorBeforeNew => "Expected an operator before 'new'"
  | misplacedNegation => "'!' can only be used as a prefix"
  | expectedOperand op => "Expected a value after " ++ quoted op.symbol
  | expectedTypeAfterNew => "Expected a type name after 'new'"
  | expectedArgumentsAfterNew type => "Expected '(...)' after " ++ quoted ("new " ++ type.name)
  | expectedMember => "Expected a member name after '.'"
  | expectedMethodArguments name => "Expected '(...)' after the method " ++ quoted name
  | expectedCondition => "Expected parenthesized condition after 'if'"
  | expectedBody after => "Expected a statement after " ++ quoted after
  | strayElse => "'else' without a matching 'if'"
  | repeatedAccess => "Only one access modifier is allowed"
  | repeatedUsage => "Only one usage modifier is allowed"
  | expectedType => "Expected a type name after the modifiers"
  | expectedName type => "Expected a name after " ++ quoted type.name
  | unexpectedAfterName separator name found =>
      "Expected '=' or " ++ quoted separator.toString ++ " after " ++ quoted name ++
        ", but got " ++ quoted found
  | constantWithoutValue name => "The constant " ++ quoted name ++ " must be given a value"
  | duplicateVariable name path =>
      "Duplicate variable name " ++ quoted name ++ " at scope " ++ quoted path
  | duplicateObjective id => "The objective " ++ quoted id ++ " is already defined"
  | badName name flaw => "The name " ++ quoted name ++ " is " ++ flaw.reason
  | unknownName name => "Unknown name " ++ quoted name
  | unknownType name => "Unknown type " ++ quoted name
  | refusedModifier modifier type =>
      "The modifier " ++ quoted modifier ++ " is not valid for the type " ++ quoted type.name
  | unknownMember type name => "Type " ++ quoted type.name ++ " has no member " ++ quoted name
  | unassignedVariable name => "The variable " ++ quoted name ++ " is used before it is assigned"
  | unassignedObjective name => "The objective " ++ quoted name ++ " is used before it is assigned"
  | notConstructible type => "The type " ++ quoted type.name ++ " cannot be constructed"
  | undefinedOperation type op =>
      "Type " ++ quoted type.name ++ " has not defined the " ++ quoted op.symbol ++ " operation"
  | readOnlyProperty name => "The property " ++ quoted name ++ " cannot be assigned"
  | writeOnlyProperty name => "The property " ++ quoted name ++ " cannot be read"
  | methodWithoutValue name => "The method " ++ quoted name ++ " does not return a value"
  | divisionByZero left op right =>
      "Division by zero in " ++ quoted (left.render ++ " " ++ op.symbol ++ " " ++ right.render)
  | incompatibleCopy .int target => "Cannot copy an 'int' into a " ++ quoted target
  | incompatibleCopy .bool target => "Cannot copy a 'bool' into a " ++ quoted target
  | incompatibleCopy .string target => "Cannot copy a 'string' into a " ++ quoted target
  | incompatibleCopy .objective target => "Cannot copy an 'objective' into " ++ quoted target
  | constantReassigned name => "The constant " ++ quoted name ++ " is already assigned"
  | constantFromRegister name =>
      "The constant " ++ quoted name ++ " cannot hold a value only known at run time"
  | textReassigned name => "The string " ++ quoted name ++ " is already assigned"
  | cannotCast value target => "Cannot cast " ++ quoted value ++ " to type " ++ quoted target
  | wrongArgumentCount what expected found =>
      quoted what ++ " expects " ++ expected ++ " argument(s), but " ++ toString found ++
        " were provided"
  | unknownScope scope => "Unknown scope #" ++ toString scope
  | unknownVariable var => "Unknown variable #" ++ toString var
  | notOneGroup => "Expected exactly one bracketed group"
  | sliceOutOfRange children =>
      "Slice out of range for a group of " ++ toString children ++ " children"
  | expectedIf => "Expected 'if'"
  | malformedIf => "Malformed if statement"
  | conditionWithoutRegister => "Condition snapshot has no register"
  | intWithoutRegister => "An int temporary has no register"
  | boolWithoutRegister => "A boolean temporary has no register"
  | structuralOperation op => quoted op.symbol ++ " is not dispatched to a type"
  | notArithmetic op => quoted op.symbol ++ " is not arithmetic"
  | notAComparison op => quoted op.symbol ++ " is not a comparison"
  | noScoreComparison op => quoted op.symbol ++ " has no score comparison"
  | noScoreRange op => quoted op.symbol ++ " has no score range"
  | notAScore holder value =>
      quoted holder ++ " holds a non-score value " ++ value.describe
  | notAText holder value => quoted holder ++ " holds non-text " ++ value.describe
  | nestingExhausted => "The script is nested too deeply"

end Cause

/-- A cause and the position it is reported at. -/
structure Fault where
  cause : Cause
  position : Position
deriving DecidableEq

namespace Fault

def kind (fault : Fault) : FaultKind :=
  fault.cause.kind

def message (fault : Fault) : String :=
  fault.cause.message

def isInternal (fault : Fault) : Bool :=
  fault.kind = .internal

def render (fault : Fault) : String :=
  "[" ++ fault.kind.label ++ "] " ++ fault.position.render ++ ": " ++ fault.message

/-- A fault with the name of the file that its source was read from. -/
def renderIn (fault : Fault) (file : String) : String :=
  "[" ++ fault.kind.label ++ "] " ++ file ++ ":" ++ toString fault.position.line ++ ":" ++
    toString fault.position.column ++ ": " ++ fault.message

end Fault

end ScoreScript
