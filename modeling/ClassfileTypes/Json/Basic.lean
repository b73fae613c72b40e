namespace ClassfileTypes

inductive Json where
  | null
  | bool (b : Bool)
  | number (mantissa : Int) (exponent : Nat)
  | string (s : String)
  | array (items : List Json)
  | object (fields : List (String × Json))

namespace Json

instance : Inhabited Json := ⟨.null⟩

def bool? : Json → Option Bool
  | .bool b => some b
  | _ => none

def string? : Json → Option String
  | .string s => some s
  | _ => none

def items? : Json → Option (List Json)
  | .array js => some js
  | _ => none

def listOf? {α : Type} (read : Json → Option α) (j : Json) : Option (List α) :=
  j.items?.bind fun js => js.mapM read

def choice? : Json → Option String
  | .string s => some s
  | .object [(s, .null)] => some s
  | _ => none

def valuesAt (key : String) (fields : List (String × Json)) : List Json :=
  (fields.filter fun f => f.1 == key).map Prod.snd

def field? (key : String) (fields : List (String × Json)) : Option Json :=
  match valuesAt key fields with
  | [j] => some j
  | _ => none

def fieldOr? (absent : Json) (key : String) (fields : List (String × Json)) : Option Json :=
  match valuesAt key fields with
  | [] => some absent
  | [j] => some j
  | _ => none

structure Shape where
  required : List String
  optional : List (String × Json)
  closed : Bool

namespace Shape

def ofFields (required : List String) : Shape := ⟨required, [], false⟩

def knows (s : Shape) (key : String) : Bool :=
  s.required.contains key || s.optional.any fun f => f.1 == key

def values? (s : Shape) : Json → Option (List Json)
  | .object fields => do
      guard (!s.closed || fields.all fun f => s.knows f.1)
      let given ← s.required.mapM fun key => field? key fields
      let rest ← s.optional.mapM fun f => fieldOr? f.2 f.1 fields
      return given ++ rest
  | .array js => do
      guard (s.required.length ≤ js.length)
      guard (js.length ≤ s.required.length + s.optional.length)
      return js ++ (s.optional.drop (js.length - s.required.length)).map Prod.snd
  | _ => none

end Shape

end Json

end ClassfileTypes
