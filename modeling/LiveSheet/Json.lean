/-!
JSON trees, as they are written. A number is its literal, because numbers are not written
alike everywhere, and an object keeps its members in order.
-/

namespace LiveSheet

inductive Json where
  | null
  | bool (b : Bool)
  | number (literal : String)
  | string (s : String)
  | array (items : List Json)
  | object (members : List (String × Json))
  deriving Repr, Inhabited

namespace Json

def ofNat (n : Nat) : Json := number (toString n)

def strings (items : List String) : Json := array (items.map string)

end Json

end LiveSheet
