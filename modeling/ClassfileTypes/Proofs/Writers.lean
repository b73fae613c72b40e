import ClassfileTypes.Descriptor

namespace ClassfileTypes

theorem foldl_write_eq {α : Type} {write : String → α → String} {text : α → String}
    (h : ∀ out a, write out a = out ++ text a) (as : List α) (out : String) :
    as.foldl write out = out ++ String.join (as.map text) := by
  have ht (out : String) (a : α) : (write out a).toList = out.toList ++ (text a).toList := by
    rw [h, String.toList_append]
  rw [← String.toList_inj, toList_foldl_append ht]
  simp [List.flatMap_map]

theorem descriptors_eq_join (ts : List Ty) :
    descriptors ts = String.join (ts.map Ty.descriptor) := by
  rw [descriptors, foldl_write_eq Ty.writeDescriptor_eq, String.empty_append]

theorem binaryNames_eq_join (ts : List Ty) :
    binaryNames ts = String.join (ts.map Ty.binaryName) := by
  rw [binaryNames, foldl_write_eq Ty.writeBinaryName_eq, String.empty_append]

theorem descriptors_append (ts us : List Ty) :
    descriptors (ts ++ us) = descriptors ts ++ descriptors us := by
  simp only [descriptors_eq_join, List.map_append, String.join_append]

theorem binaryNames_append (ts us : List Ty) :
    binaryNames (ts ++ us) = binaryNames ts ++ binaryNames us := by
  simp only [binaryNames_eq_join, List.map_append, String.join_append]

theorem parametersDescriptor_eq (ps : List Parameter) :
    parametersDescriptor ps = descriptors (ps.map Parameter.ty) := by
  rw [parametersDescriptor, descriptors, List.foldl_map]

theorem declaredDescriptor_eq (ps : List Parameter) (result : Ty) :
    declaredDescriptor ps result = methodDescriptor (ps.map Parameter.ty) result := by
  rw [declaredDescriptor, methodDescriptor, List.foldl_map]

theorem methodDescriptor_eq (ts : List Ty) (result : Ty) :
    methodDescriptor ts result = "(" ++ descriptors ts ++ ")" ++ result.descriptor := by
  rw [methodDescriptor, Ty.writeDescriptor_eq, foldl_write_eq Ty.writeDescriptor_eq,
    descriptors_eq_join]
  rfl

theorem MethodType.binaryName_eq (m : MethodType) :
    m.binaryName = "(" ++ binaryNames m.parameters ++ ")" ++ m.result.binaryName := by
  rw [MethodType.binaryName, Ty.writeBinaryName_eq, foldl_write_eq Ty.writeBinaryName_eq,
    binaryNames_eq_join]
  rfl

theorem writers_append_and_agree :
    (∀ (out : String) (writes : List (Ty.Form × Ty)),
      writes.foldl (fun out w => w.2.write w.1 out) out =
        out ++ String.join (writes.map fun w => w.2.text w.1)) ∧
    (∀ ts us : List Ty, descriptors (ts ++ us) = descriptors ts ++ descriptors us) ∧
    (∀ ts us : List Ty, binaryNames (ts ++ us) = binaryNames ts ++ binaryNames us) ∧
    (∀ (ps : List Parameter) (result : Ty),
      let text := "(" ++ parametersDescriptor ps ++ ")" ++ result.descriptor
      (MethodType.ofParameters ps result).descriptor = text ∧
        declaredDescriptor ps result = text ∧
        methodDescriptor (ps.map Parameter.ty) result = text) ∧
    ∀ (ps : List Parameter) (result : Ty),
      (MethodType.ofParameters ps result).binaryName =
        "(" ++ binaryNames (ps.map Parameter.ty) ++ ")" ++ result.binaryName := by
  refine ⟨?_, descriptors_append, binaryNames_append, ?_, ?_⟩
  · intro out writes
    exact foldl_write_eq (fun out w => w.2.write_eq w.1 out) writes out
  · intro ps result text
    have ht : methodDescriptor (ps.map Parameter.ty) result = text := by
      rw [methodDescriptor_eq, ← parametersDescriptor_eq]
    exact ⟨ht, (declaredDescriptor_eq ps result).trans ht, ht⟩
  · intro ps result
    exact MethodType.binaryName_eq (.ofParameters ps result)

end ClassfileTypes
