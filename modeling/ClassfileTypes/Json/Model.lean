import ClassfileTypes.Json.Declaration

namespace ClassfileTypes

inductive Model where
  | primitive
  | variance
  | policy
  | ty
  | genericUse
  | bound
  | parameter
  | methodType
  | typeParameter
  | scope
  | classDecl
  | methodDecl
  | settings
  deriving DecidableEq, Repr

namespace Model

abbrev Value : Model → Type
  | .primitive => Primitive
  | .variance => Variance
  | .policy => UndeclaredPolicy
  | .ty => Ty
  | .genericUse => GenericUse Ty
  | .bound => Bound Ty
  | .parameter => Parameter
  | .methodType => MethodType
  | .typeParameter => TypeParameter
  | .scope => Scope
  | .classDecl => ClassDecl
  | .methodDecl => MethodDecl
  | .settings => Settings

def read? : (m : Model) → Json → Option m.Value
  | .primitive => Primitive.ofJson?
  | .variance => Variance.ofJson?
  | .policy => UndeclaredPolicy.ofJson?
  | .ty => Ty.ofJson?
  | .genericUse => Ty.useOfJson?
  | .bound => Ty.boundOfJson?
  | .parameter => Parameter.ofJson?
  | .methodType => MethodType.ofJson?
  | .typeParameter => TypeParameter.ofJson?
  | .scope => Scope.ofJson?
  | .classDecl => ClassDecl.ofJson?
  | .methodDecl => MethodDecl.ofJson?
  | .settings => Settings.ofJson?

def write : (m : Model) → m.Value → Json
  | .primitive => Primitive.toJson
  | .variance => Variance.toJson
  | .policy => UndeclaredPolicy.toJson
  | .ty => Ty.toJson
  | .genericUse => Ty.useToJson
  | .bound => Ty.boundToJson
  | .parameter => Parameter.toJson
  | .methodType => MethodType.toJson
  | .typeParameter => TypeParameter.toJson
  | .scope => Scope.toJson
  | .classDecl => ClassDecl.toJson
  | .methodDecl => MethodDecl.toJson
  | .settings => Settings.toJson

instance : (m : Model) → DecidableEq m.Value
  | .primitive => inferInstanceAs (DecidableEq Primitive)
  | .variance => inferInstanceAs (DecidableEq Variance)
  | .policy => inferInstanceAs (DecidableEq UndeclaredPolicy)
  | .ty => inferInstanceAs (DecidableEq Ty)
  | .genericUse => inferInstanceAs (DecidableEq (GenericUse Ty))
  | .bound => inferInstanceAs (DecidableEq (Bound Ty))
  | .parameter => inferInstanceAs (DecidableEq Parameter)
  | .methodType => inferInstanceAs (DecidableEq MethodType)
  | .typeParameter => inferInstanceAs (DecidableEq TypeParameter)
  | .scope => inferInstanceAs (DecidableEq Scope)
  | .classDecl => inferInstanceAs (DecidableEq ClassDecl)
  | .methodDecl => inferInstanceAs (DecidableEq MethodDecl)
  | .settings => inferInstanceAs (DecidableEq Settings)

def same? (m : Model) (a b : Json) : Option Bool := do
  return decide ((← m.read? a) = (← m.read? b))

end Model

end ClassfileTypes
