import ClassfileTypes.Descriptor
import ClassfileTypes.Resolution.Logged
import ClassfileTypes.Settings

namespace ClassfileTypes

def Scope.locate? (name : String) : List Scope → Option (Nat × Ty)
  | [] => none
  | s :: outer =>
      match s.bound? name with
      | some t => some (0, t)
      | none => (locate? name outer).map fun (depth, t) => (depth + 1, t)

structure Resolver where
  scopes : List Scope
  settings : Settings

namespace Resolver

def ofScopes (scopes : List Scope) : Resolver := ⟨scopes, .default⟩

def forMethod (owner method : Declaration) : Resolver :=
  ofScopes [method.scope, owner.scope]

def withSettings (r : Resolver) (settings : Settings) : Resolver :=
  { r with settings }

def substitute (r : Resolver) (g : GenericUse Ty) : Logged Undeclared Ty :=
  match Scope.locate? g.name r.scopes with
  | some (depth, t) => .tell (.declared g.name depth) t
  | none =>
      match r.settings.undeclared with
      | .erasure => .tell (.erased g.name) g.erasure
      | .strict => .fail ⟨g.name⟩

def resolve (r : Resolver) : Ty → Logged Undeclared Ty
  | .array c => Ty.array <$> r.resolve c
  | .generic g => if g.resolved then pure (.generic g) else r.substitute g
  | t => pure t

theorem resolve_of_resolved (r : Resolver) {g : GenericUse Ty} (hg : g.resolved = true) :
    r.resolve (.generic g) = pure (.generic g) := if_pos hg

theorem resolve_of_variable (r : Resolver) {g : GenericUse Ty} (hg : g.resolved = false) :
    r.resolve (.generic g) = r.substitute g := if_neg (by simp [hg])

def writeResolved (r : Resolver) (out : String) (t : Ty) : Logged Undeclared String :=
  Ty.writeDescriptor out <$> r.resolve t

def infer (r : Resolver) (parameters : List Ty) (result : Ty) :
    Logged Undeclared String := do
  let out ← parameters.foldlM r.writeResolved "("
  r.writeResolved (out.push ')') result

def inferDescriptor (r : Resolver) (parameters : List Parameter) (result : Ty) :
    Logged Undeclared String := do
  let out ← parameters.foldlM (fun out p => r.writeResolved out p.ty) "("
  r.writeResolved (out.push ')') result

def inferTypeSpec (r : Resolver) (m : MethodType) : Logged Undeclared String :=
  r.infer m.parameters m.result

end Resolver

def inferMethodDescriptor (owner method : Declaration) (parameters : List Parameter)
    (result : Ty) : Logged Undeclared String :=
  (Resolver.forMethod owner method).inferDescriptor parameters result

end ClassfileTypes
