/-!
# Syntax trees

A node has a kind, the field of its parent under which it stands, the bytes of the source it covers,
and its children. Anonymous nodes are the punctuation and keywords between the named ones. Kinds and
fields that decide nothing here are kept by name.
-/
namespace ParamLint

inductive FunctionKind
  | functionDeclaration
  | generatorFunctionDeclaration
  | functionExpression
  | function
  | generatorFunction
  | arrowFunction
  | methodDefinition
deriving DecidableEq, Inhabited

namespace FunctionKind

def all : List FunctionKind :=
  [functionDeclaration, generatorFunctionDeclaration, functionExpression, function,
   generatorFunction, arrowFunction, methodDefinition]

def name : FunctionKind → String
  | functionDeclaration => "function_declaration"
  | generatorFunctionDeclaration => "generator_function_declaration"
  | functionExpression => "function_expression"
  | function => "function"
  | generatorFunction => "generator_function"
  | arrowFunction => "arrow_function"
  | methodDefinition => "method_definition"

def ofName? (s : String) : Option FunctionKind := all.find? (·.name = s)

end FunctionKind

inductive Kind
  | function (kind : FunctionKind)
  | identifier
  | undefined
  | this
  | propertyIdentifier
  | privatePropertyIdentifier
  | computedPropertyName
  | string
  | stringFragment
  | escapeSequence
  | number
  | trueLiteral
  | falseLiteral
  | nullLiteral
  | comment
  | decorator
  | requiredParameter
  | optionalParameter
  | assignmentPattern
  | objectPattern
  | arrayPattern
  | restPattern
  | parenthesizedExpression
  | classBody
  | staticMark
  | pair
  | fieldDefinition
  | publicFieldDefinition
  | variableDeclarator
  | assignmentExpression
  | augmentedAssignmentExpression
  | other (name : String)
deriving DecidableEq, Inhabited

namespace Kind

/-- The kinds that have a constructor of their own, functions apart, by name. -/
def named : List (String × Kind) :=
  [("identifier", identifier), ("undefined", undefined), ("this", this),
   ("property_identifier", propertyIdentifier),
   ("private_property_identifier", privatePropertyIdentifier),
   ("computed_property_name", computedPropertyName), ("string", string),
   ("string_fragment", stringFragment), ("escape_sequence", escapeSequence), ("number", number),
   ("true", trueLiteral), ("false", falseLiteral), ("null", nullLiteral), ("comment", comment),
   ("decorator", decorator), ("required_parameter", requiredParameter),
   ("optional_parameter", optionalParameter), ("assignment_pattern", assignmentPattern),
   ("object_pattern", objectPattern), ("array_pattern", arrayPattern),
   ("rest_pattern", restPattern), ("parenthesized_expression", parenthesizedExpression),
   ("class_body", classBody), ("static", staticMark), ("pair", pair),
   ("field_definition", fieldDefinition), ("public_field_definition", publicFieldDefinition),
   ("variable_declarator", variableDeclarator), ("assignment_expression", assignmentExpression),
   ("augmented_assignment_expression", augmentedAssignmentExpression)]

def ofName (s : String) : Kind :=
  match FunctionKind.ofName? s with
  | some f => function f
  | none => (named.lookup s).getD (other s)

end Kind

inductive Field
  | name
  | key
  | property
  | value
  | left
  | right
  | pattern
  | parameter
  | parameters
  | other (name : String)
deriving DecidableEq, Inhabited

namespace Field

def named : List (String × Field) :=
  [("name", name), ("key", key), ("property", property), ("value", value), ("left", left),
   ("right", right), ("pattern", pattern), ("parameter", parameter), ("parameters", parameters)]

def ofName (s : String) : Field := (named.lookup s).getD (other s)

end Field

structure Node where
  kind : Kind
  isNamed : Bool := true
  field : Option Field := none
  start : Nat
  stop : Nat
  children : List Node := []
deriving Inhabited

namespace Node

def namedChildren (n : Node) : List Node := n.children.filter (·.isNamed)

def child? (n : Node) (f : Field) : Option Node := n.children.find? (·.field = some f)

end Node

end ParamLint
