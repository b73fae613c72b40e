import ClassfileTypes.Proofs.SignatureText

namespace ClassfileTypes

open Terminator (squeeze)

namespace Ty

inductive Nameable : Ty → Prop
  | plain {t : Ty} : t.generic? = none → Nameable t
  | var (name : String) : Nameable (.generic (.var name))
  | parameterized (name : String) (arguments : List (Bound Ty)) :
      Nameable (.generic (.parameterized name arguments))

inductive ErasedInArrays : Ty → Prop
  | var (name : String) : ErasedInArrays (.generic (.var name))
  | parameterized (name : String) {arguments : List (Bound Ty)} : arguments ≠ [] →
      ErasedInArrays (.generic (.parameterized name arguments))

theorem ErasedInArrays.generic {t : Ty} (h : t.ErasedInArrays) :
    ∃ g, t = .generic g ∧ (g.resolved = false ∨ g.bounds ≠ []) := by
  cases h with
  | var name => exact ⟨_, rfl, .inl rfl⟩
  | parameterized name hne => exact ⟨_, rfl, .inr hne⟩

theorem toList_signature_arrayOf_succ (t : Ty) (n : Nat) :
    (t.arrayOf (n + 1)).signature.toList =
      List.replicate (n + 1) '[' ++ squeeze false t.descriptor.toList := by
  have hf : (t.arrayOf (n + 1)).fragment = (t.arrayOf (n + 1)).descriptor.toList :=
    fragment_of_generic?_eq_none (by rw [arrayOf_succ]; rfl)
  have hm : Terminator.mark ∉ List.replicate (n + 1) '[' := by
    simp [List.mem_replicate, Terminator.mark]
  rw [toList_signature, hf, toList_descriptor_arrayOf, Terminator.squeeze_append_of_notMem hm]

theorem toList_descriptor_parameterized (name : String) (arguments : List (Bound Ty)) :
    (generic (.parameterized name arguments)).descriptor.toList =
      (GenericUse.parameterized name arguments).name.toList ++ [';'] := by
  simp [GenericUse.parameterized]

theorem squeeze_applied_ne (word : List Char) (rest : List Char) :
    squeeze false (word ++ [';']) ≠ squeeze false (word ++ '<' :: rest) := by
  intro h
  rw [Terminator.squeeze_append, Terminator.squeeze_append] at h
  have ht := List.append_cancel_left h
  cases hc : Terminator.closes false word <;> simp [hc, squeeze, Terminator.mark] at ht

theorem squeeze_descriptor_eq_iff {t : Ty} (h : t.Nameable) :
    squeeze false t.descriptor.toList = squeeze false t.fragment ↔ ¬ t.ErasedInArrays := by
  cases h with
  | plain hp =>
      rw [fragment_of_generic?_eq_none hp]
      refine iff_of_true rfl fun he => ?_
      obtain ⟨g, rfl, -⟩ := he.generic
      cases hp
  | var name =>
      refine iff_of_false ?_ (not_not_intro (.var name))
      rw [fragment_generic]
      simp [GenericUse.var, squeeze, Terminator.mark, object]
  | parameterized name arguments =>
      have hb : (GenericUse.parameterized name arguments).bounds = arguments := rfl
      rw [toList_descriptor_parameterized, fragment_generic, hb]
      by_cases ha : arguments = []
      · subst ha
        refine iff_of_true rfl fun he => ?_
        obtain ⟨g, hg, hr⟩ := he.generic
        cases hg
        simp [GenericUse.parameterized] at hr
      · refine iff_of_false ?_ (not_not_intro (.parameterized name ha))
        rw [if_neg ha, if_neg (by simp [GenericUse.parameterized])]
        exact squeeze_applied_ne _ _

theorem signature_keeps_array_levels_iff {t : Ty} (h : t.Nameable) (n : Nat) :
    (t.arrayOf n).signature.toList = List.replicate n '[' ++ t.signature.toList ↔
      n = 0 ∨ ¬ t.ErasedInArrays := by
  cases n with
  | zero => simp [arrayOf]
  | succ n =>
      rw [toList_signature_arrayOf_succ, toList_signature, List.append_cancel_left_eq,
        squeeze_descriptor_eq_iff h]
      simp

theorem signature_keeps_array_levels_iff_nested :
    let list : Ty := .generic (.parameterized "java.util.List" [⟨.invariant, .generic (.var "E")⟩])
    let t : Ty := .array list
    t.Nameable ∧ ¬ t.ErasedInArrays ∧ t.signature = "[Ljava/util/List;" ∧
    (t.arrayOf 2).signature.toList = List.replicate 2 '[' ++ t.signature.toList ∧
    list.Nameable ∧ list.ErasedInArrays ∧ list.signature = "Ljava/util/List<TE;>;" ∧
    (list.arrayOf 2).signature.toList ≠ List.replicate 2 '[' ++ list.signature.toList := by
  intro list t
  have ht : t.Nameable := .plain rfl
  have hl : list.Nameable := .parameterized _ _
  have hte : ¬ (Ty.array list).ErasedInArrays := nofun
  have hle : list.ErasedInArrays := .parameterized _ (List.cons_ne_nil _ _)
  have hkept := (signature_keeps_array_levels_iff ht 2).mpr (.inr hte)
  have hlost := mt (signature_keeps_array_levels_iff hl 2).mp
    (not_or.mpr ⟨by decide, not_not_intro hle⟩)
  exact ⟨ht, hte, by decide, hkept, hl, hle, by decide, hlost⟩

theorem generic_array_signature_erased :
    let v : Ty := .generic (.var "T")
    let list : Ty := .generic (.parameterized "java.util.List" [⟨.invariant, .generic (.var "E")⟩])
    v.signature = "TT;" ∧ (v.arrayOf 1).signature = "[Ljava/lang/Object;" ∧
    list.signature = "Ljava/util/List<TE;>;" ∧ (list.arrayOf 1).signature = "[Ljava/util/List;" ∧
    ¬ ∀ t : Ty, t.Nameable → ∀ n : Nat,
      (t.arrayOf n).signature.toList = List.replicate n '[' ++ t.signature.toList := by
  refine ⟨by decide, by decide, by decide, by decide, fun h => ?_⟩
  have hv := h (.generic (.var "T")) (.var "T") 1
  exact absurd hv (by decide)

end Ty

end ClassfileTypes
