import ClassfileTypes.Declaration

namespace ClassfileTypes

namespace Ty

def writeDescriptor (out : String) : Ty → String
  | .primitive k => out.push k.tag
  | .array c => writeDescriptor (out.push '[') c
  | .named n => (out.push 'L' ++ internalName n).push ';'
  | .generic ⟨_, _, _, _, e⟩ => writeDescriptor out e

def writeBinaryName (out : String) : Ty → String
  | .primitive k => out.push k.tag
  | .array c => writeDescriptor out (.array c)
  | .named n => out ++ internalName n
  | .generic ⟨_, _, _, _, e⟩ => writeBinaryName out e

def descriptor (t : Ty) : String := writeDescriptor "" t

def binaryName (t : Ty) : String := writeBinaryName "" t

theorem writeDescriptor_eq (out : String) (t : Ty) :
    writeDescriptor out t = out ++ t.descriptor := by
  induction t generalizing out with
  | primitive k => simp [writeDescriptor, descriptor]
  | array c ih =>
      simp only [descriptor, writeDescriptor, ih (String.push _ _)]
      simp [← String.toList_inj]
  | named n => simp [← String.toList_inj, writeDescriptor, descriptor]
  | generic g _ ih => exact ih out

theorem writeBinaryName_eq (out : String) (t : Ty) :
    writeBinaryName out t = out ++ t.binaryName := by
  induction t generalizing out with
  | primitive k => simp [writeBinaryName, binaryName]
  | array c => exact writeDescriptor_eq out (.array c)
  | named n => simp [writeBinaryName, binaryName]
  | generic g _ ih => exact ih out

@[simp] theorem toList_descriptor_primitive (k : Primitive) :
    (primitive k).descriptor.toList = [k.tag] := by
  simp [descriptor, writeDescriptor]

@[simp] theorem toList_descriptor_array (c : Ty) :
    (array c).descriptor.toList = '[' :: c.descriptor.toList := by
  rw [descriptor, writeDescriptor, writeDescriptor_eq]
  simp

@[simp] theorem toList_descriptor_named (name : String) :
    (named name).descriptor.toList = 'L' :: (name.toList.map slashed ++ [';']) := by
  simp [descriptor, writeDescriptor]

@[simp] theorem descriptor_generic (g : GenericUse Ty) :
    (generic g).descriptor = g.erasure.descriptor := rfl

theorem descriptor_array (c : Ty) : (array c).descriptor = "[" ++ c.descriptor := by
  rw [← String.toList_inj, toList_descriptor_array, String.toList_append]
  rfl

theorem descriptor_named (name : String) :
    (named name).descriptor = "L" ++ internalName name ++ ";" := by
  simp [← String.toList_inj]

theorem binaryName_array (c : Ty) : (array c).binaryName = (array c).descriptor := rfl

theorem binaryName_named (name : String) : (named name).binaryName = internalName name := by
  simp [binaryName, writeBinaryName]

theorem toList_descriptor_arrayOf (t : Ty) (n : Nat) :
    (t.arrayOf n).descriptor.toList = List.replicate n '[' ++ t.descriptor.toList := by
  induction n with
  | zero => rfl
  | succ n ih =>
      rw [arrayOf_succ, toList_descriptor_array, ih]
      rfl

inductive Form where
  | descriptor
  | binaryName
  deriving DecidableEq

def write (form : Form) (out : String) (t : Ty) : String :=
  match form with
  | .descriptor => writeDescriptor out t
  | .binaryName => writeBinaryName out t

def text (form : Form) (t : Ty) : String :=
  match form with
  | .descriptor => t.descriptor
  | .binaryName => t.binaryName

theorem write_eq (form : Form) (out : String) (t : Ty) : t.write form out = out ++ t.text form := by
  cases form
  · exact writeDescriptor_eq out t
  · exact writeBinaryName_eq out t

end Ty

def descriptors (ts : List Ty) : String :=
  ts.foldl Ty.writeDescriptor ""

def binaryNames (ts : List Ty) : String :=
  ts.foldl Ty.writeBinaryName ""

def parametersDescriptor (ps : List Parameter) : String :=
  ps.foldl (fun out p => p.ty.writeDescriptor out) ""

def methodDescriptor (parameters : List Ty) (result : Ty) : String :=
  result.writeDescriptor ((parameters.foldl Ty.writeDescriptor "(").push ')')

def declaredDescriptor (parameters : List Parameter) (result : Ty) : String :=
  result.writeDescriptor ((parameters.foldl (fun out p => p.ty.writeDescriptor out) "(").push ')')

theorem toList_foldl_append {α : Type} {write : String → α → String} {text : α → List Char}
    (h : ∀ out a, (write out a).toList = out.toList ++ text a) (as : List α) (out : String) :
    (as.foldl write out).toList = out.toList ++ as.flatMap text := by
  induction as generalizing out with
  | nil => simp
  | cons a as ih => rw [List.foldl_cons, ih, h, List.append_assoc, List.flatMap_cons]

theorem toList_foldl_writeDescriptor (ts : List Ty) (out : String) :
    (ts.foldl Ty.writeDescriptor out).toList =
      out.toList ++ ts.flatMap fun t => t.descriptor.toList :=
  toList_foldl_append (fun out t => by rw [Ty.writeDescriptor_eq, String.toList_append]) ts out

theorem toList_descriptors (ts : List Ty) :
    (descriptors ts).toList = ts.flatMap fun t => t.descriptor.toList := by
  simp [descriptors, toList_foldl_writeDescriptor]

theorem toList_methodDescriptor (parameters : List Ty) (result : Ty) :
    (methodDescriptor parameters result).toList =
      '(' :: ((parameters.flatMap fun t => t.descriptor.toList) ++
        ')' :: result.descriptor.toList) := by
  rw [methodDescriptor, Ty.writeDescriptor_eq]
  simp [toList_foldl_writeDescriptor]

namespace MethodType

def descriptor (m : MethodType) : String :=
  methodDescriptor m.parameters m.result

def binaryName (m : MethodType) : String :=
  m.result.writeBinaryName ((m.parameters.foldl Ty.writeBinaryName "(").push ')')

end MethodType

end ClassfileTypes
