import ClassfileTypes.Descriptor

namespace ClassfileTypes.Ty

def erase : Ty → Ty
  | .array c => .array c.erase
  | .generic ⟨_, _, _, _, e⟩ => e.erase
  | t => t

@[simp] theorem erase_primitive (k : Primitive) : (primitive k).erase = .primitive k := rfl

@[simp] theorem erase_array (c : Ty) : (array c).erase = .array c.erase := rfl

@[simp] theorem erase_named (name : String) : (named name).erase = .named name := rfl

@[simp] theorem erase_generic (g : GenericUse Ty) : (generic g).erase = g.erasure.erase := rfl

theorem descriptor_erase (t : Ty) : t.erase.descriptor = t.descriptor := by
  induction t with
  | primitive k => rfl
  | array c ih =>
      rw [← String.toList_inj, erase_array, toList_descriptor_array, toList_descriptor_array, ih]
  | named name => rfl
  | generic g _ ih => rw [erase_generic, ih, descriptor_generic]

def ClassNames (p : String → Prop) (t : Ty) : Prop :=
  ∀ name, t.erase.element = .named name → p name

theorem classNames_named {p : String → Prop} {name : String} :
    (named name).ClassNames p ↔ p name := by
  simp [ClassNames, element]

theorem classNames_array {p : String → Prop} {c : Ty} :
    (array c).ClassNames p ↔ c.ClassNames p := Iff.rfl

theorem classNames_arrayOf {p : String → Prop} {t : Ty} {n : Nat} :
    (t.arrayOf n).ClassNames p ↔ t.ClassNames p := by
  induction n generalizing t with
  | zero => rfl
  | succ n ih => exact ih.trans classNames_array

theorem classNames_generic {p : String → Prop} {g : GenericUse Ty} :
    (generic g).ClassNames p ↔ g.erasure.ClassNames p := Iff.rfl

end ClassfileTypes.Ty
