import ClassfileTypes.Proofs.BracketErasure

namespace ClassfileTypes

namespace Ty

def TerminatorFree (t : Ty) : Prop :=
  t.EachName (fun name => ';' ∉ name.toList) fun name => ';' ∉ name.toList ∧ name ≠ ""

theorem TerminatorFree.signable {t : Ty} (h : t.TerminatorFree) : t.Signable := by
  induction h with
  | primitive k => exact .primitive k
  | array hc _ => exact .array hc.classNames
  | named hn => exact .named hn
  | generic hg _ _ ih _ => exact .generic hg.1 (fun _ _ => hg.2) ih

namespace Signable

variable {t : Ty}

theorem opens_tidy (h : t.Signable) : Terminator.Opens t.tidy := by
  rw [← h.squeeze_fragment]
  exact h.opens_fragment.squeeze false

theorem no_run_tidy (h : t.Signable) : ¬ [';', ';'] <:+: t.tidy := by
  rw [← h.squeeze_fragment]
  exact Terminator.no_run_squeeze false t.fragment

end Signable

end Ty

theorem argumentsSignature_append {as bs : List (Bound Ty)} (ha : ∀ a ∈ as, a.ty.Signable)
    (hb : ∀ b ∈ bs, b.ty.Signable) :
    argumentsSignature (as ++ bs) = argumentsSignature as ++ argumentsSignature bs := by
  have hab : ∀ b ∈ as ++ bs, b.ty.Signable := by
    intro b hm
    exact (List.mem_append.mp hm).elim (ha b) (hb b)
  rw [← String.toList_inj, String.toList_append, toList_argumentsSignature hab,
    toList_argumentsSignature ha, toList_argumentsSignature hb, List.flatMap_append]

theorem signature_closes_wildcards_once :
    (∀ t : Ty, t.TerminatorFree →
      t.signature.toList = t.tidy ∧ t.tidy ≠ [] ∧ t.tidy.head? ≠ some ';' ∧
        ¬ [';', ';'] <:+: t.tidy) ∧
    (∀ as bs : List (Bound Ty), (∀ b ∈ as ++ bs, b.ty.TerminatorFree) →
      argumentsSignature (as ++ bs) = argumentsSignature as ++ argumentsSignature bs) := by
  constructor
  · intro t h
    have hs : t.Signable := h.signable
    have ho : Terminator.Opens t.tidy := hs.opens_tidy
    exact ⟨hs.toList_signature, ho.ne_nil, ho.head?_ne, hs.no_run_tidy⟩
  · intro as bs h
    exact argumentsSignature_append (fun a ha => (h a (List.mem_append_left _ ha)).signable)
      fun b hb => (h b (List.mem_append_right _ hb)).signable

theorem signature_closes_wildcards_once_nested :
    let upper : Ty := .generic (.wildcardOf ⟨.covariant, .array (.primitive .int)⟩)
    let lower : Ty := .generic (.wildcardOf ⟨.contravariant, .named "A"⟩)
    let bs : List (Bound Ty) := [⟨.covariant, upper⟩, ⟨.invariant, lower⟩]
    let t : Ty := .generic ⟨"*", true, true, bs, upper⟩
    t.TerminatorFree ∧ Ty.writeFragment "" t = "++[I;-LA;;;" ∧ t.signature = "++[I;-LA;" ∧
    t.signature.toList = t.tidy ∧ t.tidy ≠ [] ∧ t.tidy.head? ≠ some ';' ∧
    ¬ [';', ';'] <:+: t.tidy ∧
    (∀ b ∈ bs ++ bs, b.ty.TerminatorFree) ∧
    argumentsSignature (bs ++ bs) = argumentsSignature bs ++ argumentsSignature bs := by
  intro upper lower bs t
  have hi : (Ty.array (.primitive .int)).TerminatorFree := .array (.primitive .int)
  have ha : (Ty.named "A").TerminatorFree := .named (by decide)
  have hu : upper.TerminatorFree := .generic (by decide) (List.forall_mem_singleton.mpr hi) hi
  have hl : lower.TerminatorFree :=
    .generic (by decide) (List.forall_mem_singleton.mpr ha) (.named (by decide))
  have hb : ∀ b ∈ bs, b.ty.TerminatorFree := by simp [bs, hu, hl]
  have ht : t.TerminatorFree := .generic (by decide) hb hu
  have hbs : ∀ b ∈ bs ++ bs, b.ty.TerminatorFree := by simp [bs, hu, hl]
  obtain ⟨htidy, hne, hhead, hrun⟩ := signature_closes_wildcards_once.1 t ht
  exact ⟨ht, by decide, by decide +kernel, htidy, hne, hhead, hrun, hbs,
    signature_closes_wildcards_once.2 bs bs hbs⟩

end ClassfileTypes
