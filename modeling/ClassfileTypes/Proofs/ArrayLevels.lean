import ClassfileTypes.Descriptor

namespace ClassfileTypes

namespace Ty

theorem element_of_ne_array {e : Ty} (h : ∀ c, e ≠ .array c) :
    e.element = e ∧ e.dimensions = 0 := by
  cases e with
  | array c => exact absurd rfl (h c)
  | _ => exact ⟨rfl, rfl⟩

theorem arrayOf_eq_iff {t e : Ty} {n : Nat} :
    (∀ c, e ≠ .array c) ∧ e.arrayOf n = t ↔ e = t.element ∧ n = t.dimensions := by
  constructor
  · rintro ⟨he, rfl⟩
    obtain ⟨hel, hdim⟩ := element_of_ne_array he
    rw [element_arrayOf, dimensions_arrayOf, hel, hdim, Nat.zero_add]
    exact ⟨rfl, rfl⟩
  · rintro ⟨rfl, rfl⟩
    exact ⟨t.element_ne_array, t.arrayOf_element⟩

theorem binaryName_arrayOf_succ (t : Ty) (n : Nat) :
    (t.arrayOf (n + 1)).binaryName = (t.arrayOf (n + 1)).descriptor := by
  rw [arrayOf_succ, binaryName_array]

theorem array_levels_invert :
    (∀ t c : Ty, t.element ≠ .array c) ∧
    (∀ t : Ty, t.element.arrayOf t.dimensions = t) ∧
    (∀ (t e : Ty) (n : Nat),
      (∀ c, e ≠ .array c) ∧ e.arrayOf n = t ↔ e = t.element ∧ n = t.dimensions) ∧
    (∀ (t : Ty) (n : Nat), (t.arrayOf n).dimensions = t.dimensions + n) ∧
    (∀ (t : Ty) (n : Nat), (t.arrayOf n).element = t.element) ∧
    (∀ (t : Ty) (m n : Nat), (t.arrayOf m).arrayOf n = t.arrayOf (m + n)) ∧
    (∀ (t : Ty) (n : Nat),
      (t.arrayOf n).descriptor.toList = List.replicate n '[' ++ t.descriptor.toList) ∧
    ∀ (t : Ty) (n : Nat), 0 < n → (t.arrayOf n).binaryName = (t.arrayOf n).descriptor := by
  refine ⟨element_ne_array, arrayOf_element, fun _ _ _ => arrayOf_eq_iff, dimensions_arrayOf,
    element_arrayOf, arrayOf_arrayOf, toList_descriptor_arrayOf, ?_⟩
  intro t n hn
  obtain ⟨m, rfl⟩ := Nat.exists_eq_add_one.mpr hn
  exact t.binaryName_arrayOf_succ m

theorem array_levels_invert_erased_array :
    let t : Ty := .array (.generic { GenericUse.var "T" with erasure := .array (.primitive .int) })
    0 < 2 ∧ t.dimensions = 1 ∧ (t.arrayOf 2).descriptor = "[[[[I" ∧
    (t.arrayOf 2).binaryName = (t.arrayOf 2).descriptor := by
  intro t
  obtain ⟨-, -, -, -, -, -, -, hbinary⟩ := array_levels_invert
  exact ⟨by decide, rfl, by decide, hbinary t 2 (by decide)⟩

end Ty

end ClassfileTypes
