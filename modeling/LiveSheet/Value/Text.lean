import LiveSheet.Json.Printer
import LiveSheet.Number.Layout
import LiveSheet.Value

/-!
Three texts of a value. The display text is what labels show, the canonical text is what
data files hold, and the source text is an expression that evaluates back to the value.
-/

namespace LiveSheet.Value

/-- Numbers as scripts show them: plain decimals, and words for the rest. -/
def scriptNumbers : Number.Layout :=
  { Number.plain with infinity := "Infinity", negativeInfinity := "-Infinity" }

mutual

/-- The value in a data file. NaN and the infinities become null. -/
def toJson : Value → Json
  | null => .null
  | bool b => .bool b
  | number n => if n.isFinite then .number (Number.dataFile.writeShort n) else .null
  | string s => .string s
  | array items => .array (itemsToJson items)

def itemsToJson : List Value → List Json
  | [] => []
  | v :: vs => v.toJson :: itemsToJson vs

end

def canonical (v : Value) : String := v.toJson.compact

mutual

def sourceChars : Value → List Char
  | number n =>
    if n.isNaN then "NaN".toList
    else if n.isInf then (if n < 0 then "(-Infinity)" else "Infinity").toList
    else (number n).toJson.compactChars
  | array items => Json.enclose '[' ']' (sourceItems items)
  | v => v.toJson.compactChars

def sourceItems : List Value → List (List Char)
  | [] => []
  | v :: vs => v.sourceChars :: sourceItems vs

end

/-- Expression text that evaluates to the value: the canonical text, with numbers it cannot
express written as constants. -/
def source (v : Value) : String := String.ofList v.sourceChars

/-- The text of a value in labels and concatenations: strings raw, arrays canonical. -/
def display : Value → String
  | string s => s
  | number n => scriptNumbers.writeShort n
  | bool b => if b then "true" else "false"
  | null => "null"
  | array items => canonical (array items)

end LiveSheet.Value
