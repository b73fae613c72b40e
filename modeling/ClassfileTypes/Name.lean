namespace ClassfileTypes

def objectName : String := "java.lang.Object"

def slashed (c : Char) : Char := if c = '.' then '/' else c

theorem slashed_eq_iff {c d : Char} (hs : d ≠ '/') (hd : d ≠ '.') : slashed c = d ↔ c = d := by
  unfold slashed
  split
  · next hc =>
      subst hc
      exact ⟨fun e => absurd e.symm hs, fun e => absurd e.symm hd⟩
  · rfl

theorem mem_map_slashed {d : Char} (hs : d ≠ '/') (hd : d ≠ '.') {cs : List Char} :
    d ∈ cs.map slashed ↔ d ∈ cs := by
  simp [slashed_eq_iff hs hd]

theorem slashed_inj {c d : Char} (hc : c ≠ '/') (hd : d ≠ '/') (h : slashed c = slashed d) :
    c = d := by
  unfold slashed at h
  split at h
  · next ec =>
      split at h
      · next ed => rw [ec, ed]
      · exact absurd h.symm hd
  · split at h
    · exact absurd h hc
    · exact h

theorem map_slashed_inj {cs ds : List Char} (hc : '/' ∉ cs) (hd : '/' ∉ ds)
    (h : cs.map slashed = ds.map slashed) : cs = ds := by
  induction cs generalizing ds with
  | nil => cases ds <;> simp_all
  | cons c cs ih =>
      cases ds with
      | nil => simp at h
      | cons d ds =>
          obtain ⟨hcd, hr⟩ := List.cons.inj h
          simp only [List.mem_cons, not_or] at hc hd
          rw [slashed_inj (Ne.symm hc.1) (Ne.symm hd.1) hcd, ih hc.2 hd.2 hr]

def internalName (name : String) : String :=
  String.ofList (name.toList.map slashed)

@[simp] theorem toList_internalName (name : String) :
    (internalName name).toList = name.toList.map slashed := by
  simp [internalName]

end ClassfileTypes
