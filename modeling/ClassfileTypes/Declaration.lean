import ClassfileTypes.Ty.Equality

namespace ClassfileTypes

structure Parameter where
  name : String
  ty : Ty
  deriving DecidableEq

structure MethodType where
  parameters : List Ty
  result : Ty
  deriving DecidableEq

def MethodType.ofParameters (parameters : List Parameter) (result : Ty) : MethodType :=
  ⟨parameters.map Parameter.ty, result⟩

structure TypeParameter where
  name : String
  bounds : List Ty
  interfacesOnly : Bool
  deriving DecidableEq

namespace TypeParameter

def bounded (name : String) (bounds : List Ty) : TypeParameter :=
  ⟨name, bounds, false⟩

def interfaceBounded (name : String) (bounds : List Ty) : TypeParameter :=
  ⟨name, bounds, true⟩

def bound (p : TypeParameter) : Ty :=
  p.bounds.head?.getD .object

end TypeParameter

structure Scope where
  parameters : List TypeParameter
  deriving DecidableEq

namespace Scope

def empty : Scope := ⟨[]⟩

def isEmpty (s : Scope) : Bool := s.parameters.isEmpty

def find? (s : Scope) (name : String) : Option TypeParameter :=
  s.parameters.find? fun p => p.name == name

def bound? (s : Scope) (name : String) : Option Ty :=
  (s.find? name).map TypeParameter.bound

theorem bound?_eq_none_iff {s : Scope} {name : String} :
    s.bound? name = none ↔ ∀ p ∈ s.parameters, p.name ≠ name := by
  simp [bound?, find?]

def add (s : Scope) (p : TypeParameter) : Scope := ⟨s.parameters ++ [p]⟩

end Scope

structure ClassDecl where
  name : String
  scope : Scope
  deriving DecidableEq

structure MethodDecl where
  name : String
  scope : Scope
  parameters : List Parameter
  result : Ty
  deriving DecidableEq

def MethodDecl.type (m : MethodDecl) : MethodType :=
  .ofParameters m.parameters m.result

inductive Declaration where
  | bare (scope : Scope)
  | cls (decl : ClassDecl)
  | method (decl : MethodDecl)

def Declaration.scope : Declaration → Scope
  | .bare s => s
  | .cls d => d.scope
  | .method d => d.scope

end ClassfileTypes
