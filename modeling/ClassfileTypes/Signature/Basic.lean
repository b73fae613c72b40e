import ClassfileTypes.Descriptor
import ClassfileTypes.Signature.Terminator

namespace ClassfileTypes

namespace Ty

mutual

def writeFragment (out : String) : Ty → String
  | .generic ⟨name, resolved, wildcard, bounds, _⟩ =>
      if bounds.isEmpty then
        if resolved then (out ++ name).push ';'
        else if wildcard then out ++ name
        else (out.push 'T' ++ name).push ';'
      else if wildcard then (writeArguments out bounds).push ';'
      else ((writeArguments ((out ++ name).push '<') bounds).push '>').push ';'
  | t => writeDescriptor out t

def writeArguments (out : String) : List (Bound Ty) → String
  | [] => out
  | ⟨v, t⟩ :: bs => writeArguments (writeFragment (out ++ v.sign) t) bs

end

def signature (t : Ty) : String :=
  Terminator.collapse (writeFragment "" t)

end Ty

def argumentsSignature (bounds : List (Bound Ty)) : String :=
  Terminator.collapse (Ty.writeArguments "" bounds)

def TypeParameter.write (out : String) (p : TypeParameter) : String :=
  let named := out ++ p.name
  let opened :=
    if p.bounds.isEmpty then named.push ':' ++ Ty.object.descriptor
    else if p.interfacesOnly then named.push ':'
    else named
  p.bounds.foldl (fun out t => t.writeFragment (out.push ':')) opened

def Scope.signature (s : Scope) : String :=
  if s.isEmpty then ""
  else Terminator.collapse ((s.parameters.foldl TypeParameter.write "<").push '>')

end ClassfileTypes
