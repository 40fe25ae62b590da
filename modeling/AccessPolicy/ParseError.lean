import AccessPolicy.Text.Literal
import AccessPolicy.Token.Basic

/-! Why policy text is refused, and where. -/

namespace AccessPolicy

/-- What the grammar asks for at a place. -/
inductive Expectation where
  | effect
  | symbol (s : Symbol)
  | keyword (word : String)
  | commaOr (close : Symbol)
  | annotationName
  | annotationValue
  | typeName
  | entityReference
  | referenceColons
  | entityId
  | nameOrEntityId
  | colonsAndEntityId
  | expression
  | attributeName
  | attributeString
  | memberName
  | patternString
  | recordKey
  | endOfInput
  deriving DecidableEq

def Expectation.text : Expectation → String
  | .effect => "`permit` or `forbid`"
  | .symbol s => "`" ++ s.text ++ "`"
  | .keyword word => "`" ++ word ++ "`"
  | .commaOr close => "`,` or `" ++ close.text ++ "`"
  | .annotationName => "annotation name"
  | .annotationValue => "annotation value string"
  | .typeName => "type name"
  | .entityReference => "entity reference"
  | .referenceColons => "`::` in entity reference"
  | .entityId => "entity id string"
  | .nameOrEntityId => "name or entity id string after `::`"
  | .colonsAndEntityId => "`::` and entity id string"
  | .expression => "expression"
  | .attributeName => "attribute name"
  | .attributeString => "attribute name string"
  | .memberName => "attribute or method name"
  | .patternString => "pattern string"
  | .recordKey => "record key"
  | .endOfInput => "end of input"

inductive ParseFault where
  | unknownOperator (c : Char)
  | unexpectedChar (c : Char)
  | unterminatedString
  | integerRange (digits : String)
  | badString (fault : Text.EscapeFault)
  | expected (what : Expectation) (found : Option Kind)
  | duplicateKey (key : String)
  | tooDeep (bound : Nat)
  deriving DecidableEq

def ParseFault.message : ParseFault → String
  | .unknownOperator c => "unknown operator `" ++ String.singleton c ++ "`"
  | .unexpectedChar c => "unexpected character `" ++ String.singleton c ++ "`"
  | .unterminatedString => "unterminated string literal"
  | .integerRange digits => "integer literal " ++ digits ++ " is out of range"
  | .badString fault => fault.message
  | .expected what found =>
    "expected " ++ what.text ++ ", found " ++ (found.map Kind.describe).getD "end of input"
  | .duplicateKey key => "duplicate key `" ++ key ++ "` in record literal"
  | .tooDeep bound => "expression nesting exceeds the maximum depth of " ++ toString bound

structure ParseError where
  position : Position
  fault : ParseFault
  deriving DecidableEq

def ParseError.message (e : ParseError) : String :=
  "parse error at line " ++ toString e.position.line ++ ", column " ++
    toString e.position.column ++ ": " ++ e.fault.message

end AccessPolicy
