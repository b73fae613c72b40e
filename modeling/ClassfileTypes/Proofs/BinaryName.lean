import ClassfileTypes.Proofs.Erasure

namespace ClassfileTypes

theorem intercalate_modifyHead_cons {d c : Char} {parts : List (List Char)} (h : parts ≠ []) :
    [d].intercalate (parts.modifyHead (c :: ·)) = c :: [d].intercalate parts := by
  obtain ⟨s, parts, rfl⟩ := List.exists_cons_of_ne_nil h
  cases parts with
  | nil => simp
  | cons t parts => simp [List.intercalate_cons_cons]

theorem map_slashed_eq_intercalate (cs : List Char) :
    cs.map slashed = ['/'].intercalate (cs.splitOn '.') := by
  induction cs with
  | nil => rfl
  | cons c cs ih =>
      have hne : cs.splitOn '.' ≠ [] := List.splitOn_ne_nil '.' cs
      rw [List.map_cons, ih, List.splitOn_cons_eq_if_modifyHead]
      by_cases hc : c = '.'
      · subst hc
        rw [if_pos (beq_self_eq_true '.'), List.intercalate_cons_of_ne_nil hne]
        rfl
      · have hs : slashed c = c := if_neg hc
        rw [if_neg (by simpa using hc), intercalate_modifyHead_cons hne, hs]

namespace Ty

theorem binaryName_erase (t : Ty) : t.erase.binaryName = t.binaryName := by
  induction t with
  | primitive k => rfl
  | array c _ => exact descriptor_erase (.array c)
  | named name => rfl
  | generic g _ ih => exact ih

theorem binaryName_of_erase_named {t : Ty} {name : String} (h : t.erase = .named name) :
    t.binaryName = internalName name := by
  rw [← binaryName_erase, h, binaryName_named]

theorem descriptor_of_erase_named {t : Ty} {name : String} (h : t.erase = .named name) :
    t.descriptor = "L" ++ t.binaryName ++ ";" := by
  rw [binaryName_of_erase_named h, ← descriptor_erase, h, descriptor_named]

theorem binaryName_eq_descriptor {t : Ty} (h : ∀ name, t.erase ≠ .named name) :
    t.binaryName = t.descriptor := by
  induction t with
  | primitive k => rfl
  | array c _ => exact binaryName_array c
  | named name => exact absurd rfl (h name)
  | generic g _ ih => exact ih h

theorem binary_names_follow_erasure :
    (∀ t : Ty, t.descriptor = t.erase.descriptor ∧ t.binaryName = t.erase.binaryName) ∧
    (∀ (t : Ty) (name : String), t.erase = .named name →
      t.binaryName = internalName name ∧ t.descriptor = "L" ++ t.binaryName ++ ";") ∧
    (∀ t : Ty, (∀ name, t.erase ≠ .named name) → t.binaryName = t.descriptor) ∧
    ∀ name : String,
      (internalName name).toList = ['/'].intercalate (name.toList.splitOn '.') := by
  refine ⟨?_, ?_, ?_, ?_⟩
  · intro t
    exact ⟨t.descriptor_erase.symm, t.binaryName_erase.symm⟩
  · intro t name h
    exact ⟨binaryName_of_erase_named h, descriptor_of_erase_named h⟩
  · intro t h
    exact binaryName_eq_descriptor h
  · intro name
    rw [toList_internalName, map_slashed_eq_intercalate]

theorem binary_names_follow_erasure_chain :
    let list : Ty := .generic (.parameterized "java.util.List" [⟨.covariant, .primitive .int⟩])
    let wildcard : Ty := .generic (.wildcardOf ⟨.covariant, list⟩)
    let t : Ty := .generic { GenericUse.var "T" with erasure := wildcard }
    let u : Ty := .generic { GenericUse.var "U" with erasure := .array t }
    t.erase = .named "java.util.List" ∧
    t.binaryName = "java/util/List" ∧
    (t.binaryName = internalName "java.util.List" ∧ t.descriptor = "L" ++ t.binaryName ++ ";") ∧
    (∀ name, u.erase ≠ .named name) ∧ u.binaryName = "[Ljava/util/List;" ∧
    u.binaryName = u.descriptor := by
  intro list wildcard t u
  obtain ⟨-, hclass, hother, -⟩ := binary_names_follow_erasure
  have ht : t.erase = .named "java.util.List" := rfl
  have hu : ∀ name, u.erase ≠ .named name := nofun
  exact ⟨ht, by decide, hclass t _ ht, hu, by decide, hother u hu⟩

end Ty

end ClassfileTypes
