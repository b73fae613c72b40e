import ClassfileTypes.Json.Basic
import ClassfileTypes.Ty.Basic

namespace ClassfileTypes

namespace Primitive

def toJson (p : Primitive) : Json := .string p.keyword

def ofJson? (j : Json) : Option Primitive := j.choice?.bind ofKeyword?

end Primitive

namespace Variance

def word : Variance → String
  | .invariant => "exact"
  | .covariant => "extends"
  | .contravariant => "super"

def ofWord? : String → Option Variance
  | "exact" => some .invariant
  | "extends" => some .covariant
  | "super" => some .contravariant
  | _ => none

def toJson (v : Variance) : Json := .string v.word

def ofJson? (j : Json) : Option Variance := j.choice?.bind ofWord?

end Variance

namespace Ty

mutual

def toJson : Ty → Json
  | .primitive k => .object [("Primitive", k.toJson)]
  | .array c => .object [("Array", toJson c)]
  | .named n => .object [("Class", .string n)]
  | .generic g => .object [("Generic", useToJson g)]

def useToJson : GenericUse Ty → Json
  | ⟨n, r, w, bs, e⟩ => .object [
      ("name", .string n), ("is_type", .bool r), ("is_wildcard", .bool w),
      ("bounds", .array (boundsToJson bs)), ("erasure", toJson e)]

def boundToJson : Bound Ty → Json
  | ⟨v, t⟩ => .object [("kind", v.toJson), ("ty", toJson t)]

def boundsToJson : List (Bound Ty) → List Json
  | [] => []
  | b :: bs => boundToJson b :: boundsToJson bs

end

mutual

def ofJson? : Json → Option Ty
  | .object [(kind, j)] =>
      match kind with
      | "Primitive" => (Primitive.ofJson? j).map Ty.primitive
      | "Array" => (ofJson? j).map Ty.array
      | "Class" => j.string?.map Ty.named
      | "Generic" => (useOfJson? j).map Ty.generic
      | _ => none
  | _ => none

def useOfJson? : Json → Option (GenericUse Ty)
  | .object fields => do
      let name ← (← Json.field? "name" fields).string?
      let resolved ← (← Json.field? "is_type" fields).bool?
      let wildcard ← (← Json.field? "is_wildcard" fields).bool?
      let bounds ← boundsField? "bounds" fields
      let erasure ← tyField? "erasure" fields
      return ⟨name, resolved, wildcard, bounds, erasure⟩
  | .array [n, r, w, bs, e] => do
      return ⟨← n.string?, ← r.bool?, ← w.bool?, ← boundsOfJson? bs, ← ofJson? e⟩
  | _ => none

def boundOfJson? : Json → Option (Bound Ty)
  | .object fields => do
      let variance ← Variance.ofJson? (← Json.field? "kind" fields)
      let ty ← tyField? "ty" fields
      return ⟨variance, ty⟩
  | .array [v, t] => do return ⟨← Variance.ofJson? v, ← ofJson? t⟩
  | _ => none

def boundsOfJson? : Json → Option (List (Bound Ty))
  | .array js => boundsOfItems? js
  | _ => none

def boundsOfItems? : List Json → Option (List (Bound Ty))
  | [] => some []
  | j :: js => do return (← boundOfJson? j) :: (← boundsOfItems? js)

def tyField? (key : String) : List (String × Json) → Option Ty
  | [] => none
  | (k, j) :: fields =>
      if k == key then
        if (Json.valuesAt key fields).isEmpty then ofJson? j else none
      else tyField? key fields

def boundsField? (key : String) : List (String × Json) → Option (List (Bound Ty))
  | [] => none
  | (k, j) :: fields =>
      if k == key then
        if (Json.valuesAt key fields).isEmpty then boundsOfJson? j else none
      else boundsField? key fields

end

end Ty

end ClassfileTypes
