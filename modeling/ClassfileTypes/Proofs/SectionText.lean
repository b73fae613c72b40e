import ClassfileTypes.Proofs.SignatureText

namespace ClassfileTypes

namespace TypeParameter

def explicit (p : TypeParameter) : TypeParameter :=
  if p.bounds = [] then .bounded p.name [.object] else p

theorem explicit_of_bounds_eq_nil {p : TypeParameter} (h : p.bounds = []) :
    p.explicit = .bounded p.name [.object] := if_pos h

theorem explicit_of_bounds_ne_nil {p : TypeParameter} (h : p.bounds ≠ []) : p.explicit = p :=
  if_neg h

theorem bounds_explicit_ne_nil (p : TypeParameter) : p.explicit.bounds ≠ [] := by
  unfold explicit
  split_ifs with h
  · exact List.cons_ne_nil _ _
  · exact h

def boundFragment (t : Ty) : List Char := ':' :: t.fragment

def fragment (p : TypeParameter) : List Char :=
  p.name.toList ++ ((if p.interfacesOnly then [':'] else []) ++ p.bounds.flatMap boundFragment)

theorem toList_write (p : TypeParameter) (out : String) :
    (p.write out).toList = out.toList ++ p.explicit.fragment := by
  have hw (out : String) (t : Ty) :
      (t.writeFragment (out.push ':')).toList = out.toList ++ boundFragment t := by
    rw [Ty.toList_writeFragment]
    simp [boundFragment]
  rw [write, toList_foldl_append hw]
  by_cases hb : p.bounds = []
  · have ho : Ty.object.fragment = Ty.object.descriptor.toList := rfl
    rw [explicit_of_bounds_eq_nil hb]
    simp [hb, fragment, bounded, boundFragment, ho]
  · rw [explicit_of_bounds_ne_nil hb]
    cases hi : p.interfacesOnly <;> simp [hb, hi, fragment]

end TypeParameter

namespace Scope

def fragment (s : Scope) : List Char :=
  '<' :: (s.parameters.flatMap (fun p => p.explicit.fragment) ++ ['>'])

theorem toList_signature (s : Scope) :
    s.signature.toList = if s.parameters = [] then [] else Terminator.squeeze false s.fragment := by
  unfold signature isEmpty
  by_cases hs : s.parameters = []
  · simp [hs]
  · rw [if_neg hs, if_neg (by simpa using hs), Terminator.toList_collapse, String.toList_push,
      toList_foldl_append fun out p => p.toList_write out]
    rfl

end Scope

end ClassfileTypes
