import LiveSheet.Token
import LiveSheet.Value

/-!
Everything that can fail, by cause. The wording of each failure is in one place, the
`message` function of its type.
-/

namespace LiveSheet

inductive SyntaxFault where
  | strayCharacter (c : Char)
  /-- A single `&` or `|`. -/
  | halfOperator (c : Char)
  | invalidNumber (text : String)
  | unterminatedString
  | unterminatedEscape
  | unterminatedTemplate
  | unterminatedInterpolation
  | expectedExpression (got : Token)
  | expectedSeparator (got : Token)
  | expectedLetName (got : Token)
  | expectedAssign (got : Token)
  | expectedColon (got : Token)
  | expectedProperty (got : Token)
  | unclosedArguments (got : Token)
  | unclosedIndex (got : Token)
  | unclosedGroup (got : Token)
  | unclosedItems (got : Token)
  | trailing (got : Token)
  deriving DecidableEq, Repr

namespace SyntaxFault

def message : SyntaxFault → String
  | strayCharacter c => "Unexpected character: '" ++ c.toString ++ "'"
  | halfOperator c =>
    "Unexpected character: '" ++ c.toString ++ "' (did you mean '" ++ c.toString ++ c.toString ++ "'?)"
  | invalidNumber text => "Invalid number literal '" ++ text ++ "'"
  | unterminatedString => "Unterminated string literal"
  | unterminatedEscape => "Unterminated escape sequence"
  | unterminatedTemplate => "Unterminated template literal"
  | unterminatedInterpolation => "Unterminated '$\x7b' in template"
  | expectedExpression got => "Expected expression, got " ++ got.text
  | expectedSeparator got => "Expected ';' or newline after statement, got " ++ got.text
  | expectedLetName got => "Expected name after 'let', got " ++ got.text
  | expectedAssign got => "Expected '=' in let statement, got " ++ got.text
  | expectedColon got => "Expected ':' in ternary expression, got " ++ got.text
  | expectedProperty got => "Expected property name after '.', got " ++ got.text
  | unclosedArguments got => "Expected ')' after arguments, got " ++ got.text
  | unclosedIndex got => "Expected ']' after index, got " ++ got.text
  | unclosedGroup got => "Expected ')' after expression, got " ++ got.text
  | unclosedItems got => "Expected ']' after array items, got " ++ got.text
  | trailing got => "Unexpected trailing " ++ got.text

end SyntaxFault

inductive EvalFault where
  | loneThis
  | undeclared (name : String)
  | undefined (name : String)
  | namespaceAsValue (name : String)
  | notConstant (owner name : String)
  | operationAsValue (owner name : String)
  | noProperty (kind : Value.Kind) (name : String)
  | notIndexable (kind : Value.Kind)
  | notFunction (name : String)
  | notCallable
  | unknownOperation (owner name : String)
  | writeNotAwaited (primitive : String)
  | writeWithoutName (primitive : String) (got : Option Value.Kind)
  | deferredNotAwaited (owner name : String)
  | addsNonNumber (name : String) (got : Value.Kind)
  | reported (message : String)
  deriving DecidableEq, Repr

namespace EvalFault

def message : EvalFault → String
  | loneThis => "'this' can only be used to access variables"
  | undeclared name => "'" ++ name ++ "' is not a declared variable"
  | undefined name => "'" ++ name ++ "' is not defined"
  | namespaceAsValue name => "'" ++ name ++ "' is an integration namespace, not a value"
  | notConstant owner name => owner ++ "." ++ name ++ " is not a constant"
  | operationAsValue owner name => owner ++ "." ++ name ++ " is an operation and must be called"
  | noProperty kind name => kind.text ++ " has no property '" ++ name ++ "'"
  | notIndexable kind => "cannot index into " ++ kind.text
  | notFunction name => "'" ++ name ++ "' is not a function"
  | notCallable => "expression is not callable"
  | unknownOperation owner name => owner ++ "." ++ name ++ " is not a function"
  | writeNotAwaited primitive => primitive ++ "() must be awaited"
  | writeWithoutName primitive got =>
    primitive ++ "() expects a variable name, got " ++ ((got.map Value.Kind.text).getD "nothing")
  | deferredNotAwaited owner name => "deferred call " ++ owner ++ "." ++ name ++ "() must be awaited"
  | addsNonNumber name got => "addValue('" ++ name ++ "') expects a number, got " ++ got.text
  | reported message => message

end EvalFault

inductive DefinitionFault where
  | invalidName
  | emptyRange (min max : Float)
  | valueAndExpression
  | noRule
  | noCommand (scope : String)
  | noLabel (scope : String)
  deriving DecidableEq, Repr

namespace DefinitionFault

def message : DefinitionFault → String
  | invalidName => "not a valid identifier"
  | emptyRange min max =>
    "min " ++ Number.plain.write min ++ " is greater than max " ++ Number.plain.write max
  | valueAndExpression => "declares both a value and an expression"
  | noRule => "needs either a value or an expression"
  | noCommand scope => "no such command in " ++ scope
  | noLabel scope => "no such label in " ++ scope

end DefinitionFault

inductive FormatFault where
  | unknownExtension (path : String)
  | invalidSheet (format : String)
  | invalidSettings (format : String)
  | unknownSettings
  | unknownOutput (format : String)
  | noScript
  | failedExpressions (count : Nat)
  | failedFiles (count : Nat)
  deriving DecidableEq, Repr

namespace FormatFault

def message : FormatFault → String
  | unknownExtension path => "Sheet file must be .toml or .json: " ++ path
  | invalidSheet format => "Invalid " ++ format ++ " sheet"
  | invalidSettings format => "Invalid " ++ format ++ " settings"
  | unknownSettings => "Settings file must be .json or .toml format"
  | unknownOutput format => "Unknown output format in settings: " ++ format
  | noScript => "Either --command or --script is required"
  | failedExpressions count => toString count ++ " expression(s) failed to parse"
  | failedFiles count => toString count ++ " files have errors"

end FormatFault

inductive SheetError where
  | io (message : String)
  | parse (position : Position) (fault : SyntaxFault)
  | unknownVariable (name : String)
  | evaluation (fault : EvalFault)
  | integration (owner operation message : String)
  | unknownScope (scope : String)
  | definition (name : String) (fault : DefinitionFault)
  /-- A state file that is no map of scopes to maps of values. -/
  | invalidState (path : String)
  | fileNotFound (path : String)
  | invalidFormat (fault : FormatFault)
  deriving DecidableEq, Repr

namespace SheetError

def message : SheetError → String
  | io message => "IO error: " ++ message
  | parse position fault =>
    "Parse error at line " ++ toString position.line ++ ", column " ++ toString position.column ++ ": "
      ++ fault.message
  | unknownVariable name => "Unknown variable '" ++ name ++ "'"
  | evaluation fault => "Evaluation error: " ++ fault.message
  | integration owner operation message =>
    "Integration " ++ owner ++ "." ++ operation ++ " failed: " ++ message
  | unknownScope scope => "Unknown scope '" ++ scope ++ "'"
  | definition name fault => "Invalid definition for '" ++ name ++ "': " ++ fault.message
  | invalidState path => "Persistence error: invalid state file " ++ path
  | fileNotFound path => "File not found: " ++ path
  | invalidFormat fault => "Invalid format: " ++ fault.message

end SheetError

end LiveSheet
