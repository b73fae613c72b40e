import ClassfileTypes.Declaration
import ClassfileTypes.Json.Ty
import ClassfileTypes.Settings

namespace ClassfileTypes

namespace Parameter

def toJson (p : Parameter) : Json :=
  .object [("name", .string p.name), ("ty", p.ty.toJson)]

def ofJson? (j : Json) : Option Parameter :=
  match (Json.Shape.ofFields ["name", "ty"]).values? j with
  | some [n, t] => do return ⟨← n.string?, ← Ty.ofJson? t⟩
  | _ => none

end Parameter

namespace MethodType

def toJson (m : MethodType) : Json :=
  .object [("parameter_types", .array (m.parameters.map Ty.toJson)),
    ("return_type", m.result.toJson)]

def ofJson? (j : Json) : Option MethodType :=
  match (Json.Shape.ofFields ["parameter_types", "return_type"]).values? j with
  | some [ps, t] => do return ⟨← ps.listOf? Ty.ofJson?, ← Ty.ofJson? t⟩
  | _ => none

end MethodType

namespace TypeParameter

def toJson (p : TypeParameter) : Json :=
  .object [("name", .string p.name), ("bounds", .array (p.bounds.map Ty.toJson)),
    ("interface_bounds_only", .bool p.interfacesOnly)]

def shape : Json.Shape :=
  ⟨["name", "bounds"], [("interface_bounds_only", .bool false)], false⟩

def ofJson? (j : Json) : Option TypeParameter :=
  match shape.values? j with
  | some [n, bs, i] => do return ⟨← n.string?, ← bs.listOf? Ty.ofJson?, ← i.bool?⟩
  | _ => none

end TypeParameter

namespace Scope

def toJson (s : Scope) : Json :=
  .object [("type_parameters", .array (s.parameters.map TypeParameter.toJson))]

def ofJson? (j : Json) : Option Scope :=
  match (Json.Shape.ofFields ["type_parameters"]).values? j with
  | some [ps] => (ps.listOf? TypeParameter.ofJson?).map Scope.mk
  | _ => none

end Scope

namespace ClassDecl

def toJson (d : ClassDecl) : Json :=
  .object [("name", .string d.name), ("generic_signature", d.scope.toJson)]

def ofJson? (j : Json) : Option ClassDecl :=
  match (Json.Shape.ofFields ["name", "generic_signature"]).values? j with
  | some [n, s] => do return ⟨← n.string?, ← Scope.ofJson? s⟩
  | _ => none

end ClassDecl

namespace MethodDecl

def toJson (d : MethodDecl) : Json :=
  .object [("name", .string d.name), ("generic_signature", d.scope.toJson),
    ("parameters", .array (d.parameters.map Parameter.toJson)), ("return_type", d.result.toJson)]

def shape : Json.Shape :=
  .ofFields ["name", "generic_signature", "parameters", "return_type"]

def ofJson? (j : Json) : Option MethodDecl :=
  match shape.values? j with
  | some [n, s, ps, t] => do
      return ⟨← n.string?, ← Scope.ofJson? s, ← ps.listOf? Parameter.ofJson?, ← Ty.ofJson? t⟩
  | _ => none

end MethodDecl

namespace UndeclaredPolicy

def toJson (p : UndeclaredPolicy) : Json := .string p.word

def ofJson? (j : Json) : Option UndeclaredPolicy := j.choice?.bind ofWord?

end UndeclaredPolicy

namespace Settings

def toJson (s : Settings) : Json :=
  .object [("unresolved_generics", s.undeclared.toJson)]

def shape : Json.Shape :=
  ⟨[], [("unresolved_generics", default.undeclared.toJson)], true⟩

def ofJson? (j : Json) : Option Settings :=
  match shape.values? j with
  | some [p] => (UndeclaredPolicy.ofJson? p).map Settings.mk
  | _ => none

end Settings

end ClassfileTypes
