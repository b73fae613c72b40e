import ClassfileTypes.Proofs.SignatureText

namespace ClassfileTypes

def LegalName (cs : List Char) : Prop :=
  cs ≠ [] ∧ ∀ c ∈ cs, c ∉ ['.', ';', '[', '/', '<', '>', ':']

def LegalClassName (name : String) : Prop :=
  ∃ segments : List (List Char), segments ≠ [] ∧ (∀ s ∈ segments, LegalName s) ∧
    name.toList = ['.'].intercalate segments

namespace Signature

mutual

inductive ReferenceText : List Char → Prop
  | cls {segments : List (List Char)} : segments ≠ [] → (∀ s ∈ segments, LegalName s) →
      ReferenceText ('L' :: (['/'].intercalate segments ++ [';']))
  | applied {segments arguments : List (List Char)} : segments ≠ [] →
      (∀ s ∈ segments, LegalName s) → arguments ≠ [] → (∀ a ∈ arguments, ArgumentText a) →
      ReferenceText
        ('L' :: (['/'].intercalate segments ++ '<' :: (arguments.flatten ++ ['>', ';'])))
  | var {name : List Char} : LegalName name → ReferenceText ('T' :: (name ++ [';']))
  | primitives {k : Primitive} : k ≠ .void → ReferenceText ['[', k.tag]
  | array {component : List Char} : ReferenceText component → ReferenceText ('[' :: component)

inductive ArgumentText : List Char → Prop
  | any : ArgumentText ['*']
  | reference (v : Variance) {text : List Char} : ReferenceText text →
      ArgumentText (v.sign.toList ++ text)

end

end Signature

namespace Ty

mutual

inductive Reference : Ty → Prop
  | named {name : String} : LegalClassName name → Reference (.named name)
  | primitives {k : Primitive} : k ≠ .void → Reference (.array (.primitive k))
  | array {c : Ty} : Reference c → Reference (.array c)
  | var {name : String} : LegalName name.toList → Reference (.generic (.var name))
  | parameterized {name : String} {arguments : List (Bound Ty)} : LegalClassName name →
      arguments ≠ [] → (∀ b ∈ arguments, Argument b) →
      Reference (.generic (.parameterized name arguments))

inductive Argument : Bound Ty → Prop
  | unbounded : Argument ⟨.invariant, .generic .unbounded⟩
  | reference (v : Variance) {t : Ty} : Reference t → Argument ⟨v, t⟩
  | wildcard {v : Variance} {t : Ty} : v ≠ .invariant → Reference t →
      Argument ⟨.invariant, .generic (.wildcardOf ⟨v, t⟩)⟩

end

mutual

inductive Unclosed : Ty → Prop
  | parameterized (name : String) {arguments : List (Bound Ty)} {b : Bound Ty} :
      b ∈ arguments → UnclosedArgument b → Unclosed (.generic (.parameterized name arguments))

inductive UnclosedArgument : Bound Ty → Prop
  | primitives (v : Variance) (k : Primitive) (levels : Nat) :
      UnclosedArgument
        ⟨.invariant, .generic (.wildcardOf ⟨v, (Ty.primitive k).arrayOf (levels + 1)⟩)⟩
  | reference (v : Variance) {t : Ty} : Unclosed t → UnclosedArgument ⟨v, t⟩
  | wildcard (v : Variance) {t : Ty} : Unclosed t →
      UnclosedArgument ⟨.invariant, .generic (.wildcardOf ⟨v, t⟩)⟩

end

end Ty

theorem mem_intercalate {d : Char} {segments : List (List Char)} {c : Char}
    (h : c ∈ [d].intercalate segments) : c = d ∨ ∃ s ∈ segments, c ∈ s := by
  induction segments with
  | nil => simp at h
  | cons s segments ih =>
      cases segments with
      | nil => exact .inr ⟨s, by simp, by simpa using h⟩
      | cons t segments =>
          rw [List.intercalate_cons_cons, List.append_assoc, List.mem_append, List.mem_append] at h
          rcases h with h | h | h
          · exact .inr ⟨s, by simp, h⟩
          · exact .inl (List.mem_singleton.mp h)
          · rcases ih h with e | ⟨u, hu, hc⟩
            · exact .inl e
            · exact .inr ⟨u, List.mem_cons_of_mem _ hu, hc⟩

theorem notMem_intercalate {c d : Char} {segments : List (List Char)} (hcd : c ≠ d)
    (hc : c ∈ ['.', ';', '[', '/', '<', '>', ':']) (h : ∀ s ∈ segments, LegalName s) :
    c ∉ [d].intercalate segments := by
  intro hm
  rcases mem_intercalate hm with e | ⟨s, hs, hcs⟩
  · exact hcd e
  · exact (h s hs).2 c hcs hc

theorem map_slashed_intercalate {segments : List (List Char)}
    (h : ∀ s ∈ segments, LegalName s) :
    (['.'].intercalate segments).map slashed = ['/'].intercalate segments := by
  have hs (s : List Char) (hl : LegalName s) : s.map slashed = s := by
    have hc : ∀ c ∈ s, slashed c = id c := by
      intro c hc
      exact if_neg fun e => hl.2 c hc (by simp [e])
    rw [List.map_congr_left hc, List.map_id]
  induction segments with
  | nil => rfl
  | cons s segments ih =>
      cases segments with
      | nil => simpa using hs s (h s (by simp))
      | cons t segments =>
          rw [List.intercalate_cons_cons, List.intercalate_cons_cons, List.map_append,
            List.map_append, ih fun u hu => h u (List.mem_cons_of_mem _ hu), hs s (h s (by simp))]
          rfl

theorem LegalClassName.notMem {name : String} (h : LegalClassName name) {c : Char}
    (hc : c ∈ [';', '[', '/', '<', '>', ':']) : c ∉ name.toList := by
  obtain ⟨segments, -, hs, e⟩ := h
  rw [e]
  exact notMem_intercalate (by rintro rfl; simp at hc) (List.mem_cons_of_mem _ hc) hs

theorem legalClassName_object : LegalClassName objectName :=
  ⟨[['j', 'a', 'v', 'a'], ['l', 'a', 'n', 'g'], ['O', 'b', 'j', 'e', 'c', 't']], by decide,
    by simp [LegalName], by decide⟩

open Signature

namespace Ty

theorem Reference.erasure_cases {t : Ty} (h : t.Reference) :
    (∃ name levels, LegalClassName name ∧ t.erase = (Ty.named name).arrayOf levels) ∨
      ∃ k levels, k ≠ .void ∧ t = (Ty.primitive k).arrayOf (levels + 1) := by
  induction h using Reference.rec (motive_2 := fun _ _ => True) with
  | @named name hn => exact .inl ⟨name, 0, hn, rfl⟩
  | @primitives k hk => exact .inr ⟨k, 0, hk, rfl⟩
  | @array c _ ih =>
      rcases ih with ⟨name, levels, hn, e⟩ | ⟨k, levels, hk, rfl⟩
      · exact .inl ⟨name, levels + 1, hn, by rw [erase_array, e, arrayOf_succ]⟩
      · exact .inr ⟨k, levels + 1, hk, (arrayOf_succ _ _).symm⟩
  | var _ => exact .inl ⟨objectName, 0, legalClassName_object, rfl⟩
  | @parameterized name _ hn _ _ _ => exact .inl ⟨name, 0, hn, rfl⟩
  | unbounded => trivial
  | reference _ _ _ => trivial
  | wildcard _ _ _ => trivial

theorem Reference.classNames {t : Ty} (h : t.Reference) :
    t.ClassNames fun name => ';' ∉ name.toList := by
  rcases h.erasure_cases with ⟨name, levels, hn, e⟩ | ⟨k, levels, -, rfl⟩
  · intro m hm
    rw [e, element_arrayOf] at hm
    cases hm
    exact hn.notMem (by simp)
  · exact classNames_arrayOf.mpr fun _ hm => by cases hm

theorem Reference.signable {t : Ty} (h : t.Reference) : t.Signable := by
  induction h using Reference.rec (motive_2 := fun b _ => b.ty.Signable) with
  | named hn => exact .named (hn.notMem (by simp))
  | primitives _ => exact .array fun name e => by cases e
  | array hc _ => exact .array hc.classNames
  | var hn =>
      exact .generic (fun h => hn.2 ';' h (by simp)) (by simp [GenericUse.var])
        (by simp [GenericUse.var])
  | parameterized hn hne _ ih =>
      refine .generic ?_ (fun e => absurd e hne) ih
      have hm := mt (mem_map_slashed (by decide) (by decide)).mp (hn.notMem (c := ';') (by simp))
      simpa [GenericUse.parameterized] using hm
  | unbounded => exact .generic (by decide) (by decide) (by simp [GenericUse.unbounded])
  | reference _ _ ih => exact ih
  | wildcard _ _ ih =>
      exact .generic (by simp [GenericUse.wildcardOf]) (by simp [GenericUse.wildcardOf])
        (by simpa [GenericUse.wildcardOf] using ih)

theorem Reference.closes_descriptor {t : Ty} (h : t.Reference) :
    Terminator.closes false t.descriptor.toList = true ∨
      ∃ k levels, t = (Ty.primitive k).arrayOf (levels + 1) := by
  rcases h.erasure_cases with ⟨name, levels, -, e⟩ | ⟨k, levels, -, rfl⟩
  · left
    have hd : t.descriptor.toList =
        (List.replicate levels '[' ++ 'L' :: name.toList.map slashed) ++ [';'] := by
      rw [← descriptor_erase, e, toList_descriptor_arrayOf]
      simp
    rw [hd]
    exact Terminator.closes_concat_mark _ _
  · exact .inr ⟨k, levels, rfl⟩

theorem Reference.closes_tidy {t : Ty} (h : t.Reference) :
    Terminator.closes false t.tidy = true ∨
      ∃ k levels, t = (primitive k).arrayOf (levels + 1) := by
  cases h with
  | named hn => exact (Reference.named hn).closes_descriptor
  | primitives hk => exact (Reference.primitives hk).closes_descriptor
  | array hc => exact (Reference.array hc).closes_descriptor
  | var _ =>
      rw [tidy_variable rfl rfl rfl, ← List.cons_append]
      exact .inl (Terminator.closes_concat_mark _ _)
  | parameterized _ hne _ =>
      rw [tidy_applied hne rfl]
      simp [Terminator.closes_append, Terminator.closes, Terminator.mark]

theorem descriptor_named_text {name : String} (h : LegalClassName name) :
    ReferenceText (named name).descriptor.toList := by
  obtain ⟨segments, hne, hs, e⟩ := h
  rw [toList_descriptor_named, e, map_slashed_intercalate hs]
  exact .cls hne hs

theorem descriptor_arrayOf_text {t : Ty} (h : ReferenceText t.descriptor.toList) (levels : Nat) :
    ReferenceText (t.arrayOf levels).descriptor.toList := by
  induction levels with
  | zero => exact h
  | succ n ih =>
      rw [arrayOf_succ, toList_descriptor_array]
      exact .array ih

theorem Reference.descriptor_text {t : Ty} (h : t.Reference) :
    ReferenceText t.descriptor.toList := by
  rcases h.erasure_cases with ⟨name, levels, hn, e⟩ | ⟨k, levels, hk, rfl⟩
  · rw [← descriptor_erase, e]
    exact descriptor_arrayOf_text (descriptor_named_text hn) levels
  · have ht : ReferenceText (Ty.array (Ty.primitive k)).descriptor.toList := by
      simpa using ReferenceText.primitives hk
    exact descriptor_arrayOf_text ht levels

theorem wildcard_text {v : Variance} {t : Ty} (hv : v ≠ .invariant)
    (hc : Terminator.closes false t.tidy = true) (ht : ReferenceText t.tidy) :
    ArgumentText (tidyArgument ⟨.invariant, .generic (.wildcardOf ⟨v, t⟩)⟩) := by
  have hs : Terminator.closes false (tidyArgument ⟨v, t⟩) = true := by
    cases v with
    | invariant => exact absurd rfl hv
    | covariant => simpa [tidyArgument, Variance.sign, Terminator.closes, Terminator.mark] using hc
    | contravariant =>
        simpa [tidyArgument, Variance.sign, Terminator.closes, Terminator.mark] using hc
  rw [tidyArgument_wildcardOf, Terminator.close, if_pos hs]
  exact .reference v ht

theorem Reference.tidy_text {t : Ty} (h : t.Reference) : ¬ t.Unclosed → ReferenceText t.tidy := by
  induction h using Reference.rec
    (motive_2 := fun b _ => ¬ UnclosedArgument b → ArgumentText (tidyArgument b)) with
  | named hn => exact fun _ => descriptor_named_text hn
  | primitives hk => exact fun _ => (Reference.primitives hk).descriptor_text
  | array hc _ => exact fun _ => (Reference.array hc).descriptor_text
  | var hn =>
      intro _
      rw [tidy_variable rfl rfl rfl]
      exact .var hn
  | @parameterized name arguments hn hne _ ih =>
      intro hu
      obtain ⟨segments, hse, hs, e⟩ := hn
      have ha : ∀ a ∈ arguments.map tidyArgument, ArgumentText a := by
        intro a m
        obtain ⟨b, hb, rfl⟩ := List.mem_map.mp m
        exact ih b hb fun hbu => hu (.parameterized name hb hbu)
      rw [tidy_applied hne rfl]
      simp only [GenericUse.parameterized, String.toList_append, toList_internalName, e,
        map_slashed_intercalate hs, List.flatMap_def]
      exact .applied hse hs (by simpa using hne) ha
  | unbounded _ => exact .any
  | reference v _ ih hu => exact .reference v (ih fun ht => hu (.reference v ht))
  | @wildcard v t hv ht ih hu =>
      rcases ht.closes_tidy with hc | ⟨k, levels, rfl⟩
      · exact wildcard_text hv hc (ih fun hut => hu (.wildcard v hut))
      · exact absurd (.primitives v k levels) hu

end Ty

namespace Signature

def BareArray (cs : List Char) : Prop :=
  ∃ k : Primitive, ['[', k.tag, ';'] <:+: cs

theorem bareArray_cons {c : Char} (hc : c ≠ '[') {cs : List Char} :
    BareArray (c :: cs) ↔ BareArray cs := by
  simp [BareArray, List.infix_cons_iff, Ne.symm hc]

theorem bareArray_append {cs : List Char} (h : '[' ∉ cs) {rest : List Char} :
    BareArray (cs ++ rest) ↔ BareArray rest := by
  induction cs with
  | nil => rfl
  | cons c cs ih =>
      obtain ⟨hc, hcs⟩ := not_or.mp (mt List.mem_cons.mpr h)
      rw [List.cons_append, bareArray_cons (Ne.symm hc), ih hcs]

theorem bareArray_bracket {c : Char} {cs : List Char}
    (h : ∀ k : Primitive, c = k.tag → cs.head? ≠ some ';') (hb : BareArray ('[' :: c :: cs)) :
    BareArray (c :: cs) := by
  obtain ⟨k, hk⟩ := hb
  rcases List.infix_cons_iff.mp hk with hp | hi
  · obtain ⟨-, hp⟩ := List.cons_prefix_cons.mp hp
    obtain ⟨hc, hp⟩ := List.cons_prefix_cons.mp hp
    obtain ⟨rest, rfl⟩ := hp
    exact absurd rfl (h k hc.symm)
  · exact ⟨k, hi⟩

theorem notMem_slashes {segments : List (List Char)} (h : ∀ s ∈ segments, LegalName s) :
    '[' ∉ ['/'].intercalate segments :=
  notMem_intercalate (by decide) (by simp) h

theorem ReferenceText.head {cs : List Char} (h : ReferenceText cs) :
    ∃ c rest, cs = c :: rest ∧ c ∈ ['L', 'T', '['] := by
  cases h <;> exact ⟨_, _, rfl, by simp⟩

theorem ArgumentText.opens {cs : List Char} (h : ArgumentText cs) : Terminator.Opens cs := by
  cases h with
  | any => simp [Terminator.Opens, Terminator.mark]
  | reference v ht =>
      obtain ⟨c, rest, rfl, hc⟩ := ht.head
      cases v with
      | invariant =>
          rintro rfl
          simp [Terminator.mark] at hc
      | covariant => simp [Terminator.Opens, Terminator.mark, Variance.sign]
      | contravariant => simp [Terminator.Opens, Terminator.mark, Variance.sign]

def Transparent (cs : List Char) : Prop :=
  ∀ rest : List Char, rest.head? ≠ some ';' → BareArray (cs ++ rest) → BareArray rest

theorem transparent_flatten {arguments : List (List Char)}
    (ho : ∀ a ∈ arguments, Terminator.Opens a) (ht : ∀ a ∈ arguments, Transparent a) :
    Transparent arguments.flatten := by
  induction arguments with
  | nil => exact fun _ _ h => h
  | cons a arguments ih =>
      intro rest hr hb
      have hr' : (arguments.flatten ++ rest).head? ≠ some ';' := by
        cases arguments with
        | nil => exact hr
        | cons b arguments =>
            rw [List.flatten_cons, List.append_assoc]
            exact ((ho b (by simp)).append _).head?_ne
      rw [List.flatten_cons, List.append_assoc] at hb
      exact ih (fun b m => ho b (List.mem_cons_of_mem _ m))
        (fun b m => ht b (List.mem_cons_of_mem _ m)) rest hr
        (ht a (List.mem_cons_self ..) _ hr' hb)

theorem ReferenceText.transparent {cs : List Char} (h : ReferenceText cs) : Transparent cs := by
  induction h using ReferenceText.rec (motive_2 := fun cs _ => Transparent cs) with
  | @cls segments _ hs =>
      intro rest _ hb
      have hn : '[' ∉ 'L' :: (['/'].intercalate segments ++ [';']) := by
        simpa using notMem_slashes hs
      exact (bareArray_append hn).mp hb
  | @applied segments arguments _ hs _ ha ih =>
      intro rest _ hb
      have hn : '[' ∉ 'L' :: (['/'].intercalate segments ++ ['<']) := by
        simpa using notMem_slashes hs
      have hb' : BareArray (arguments.flatten ++ ('>' :: ';' :: rest)) := by
        refine (bareArray_append hn).mp ?_
        simpa using hb
      have he := transparent_flatten (fun a m => (ha a m).opens) ih _ (by simp) hb'
      exact (bareArray_cons (by decide)).mp ((bareArray_cons (by decide)).mp he)
  | @var name hn =>
      intro rest _ hb
      have hm : '[' ∉ 'T' :: (name ++ [';']) := by
        simpa using fun m => hn.2 '[' m (by simp)
      exact (bareArray_append hm).mp hb
  | @primitives k _ =>
      intro rest hr hb
      have ht : BareArray (k.tag :: rest) := bareArray_bracket (fun _ _ => hr) hb
      exact (bareArray_cons (by cases k <;> decide)).mp ht
  | @array component hc ih =>
      intro rest hr hb
      obtain ⟨c, cs, rfl, hm⟩ := hc.head
      refine ih rest hr (bareArray_bracket (fun k e => ?_) hb)
      cases k <;> simp [e, Primitive.tag] at hm
  | any =>
      intro rest _ hb
      exact (bareArray_cons (by decide)).mp hb
  | reference v _ ih =>
      intro rest hr hb
      have hm : '[' ∉ v.sign.toList := by cases v <;> decide
      rw [List.append_assoc] at hb
      exact ih rest hr ((bareArray_append hm).mp hb)

theorem ReferenceText.not_bareArray {cs : List Char} (h : ReferenceText cs) :
    ¬ BareArray cs := by
  intro hb
  obtain ⟨k, hk⟩ := h.transparent [] (by simp) (by simpa using hb)
  simp at hk

theorem BareArray.of_infix {cs ds : List Char} (h : BareArray cs) (hi : cs <:+: ds) :
    BareArray ds := by
  obtain ⟨k, hk⟩ := h
  exact ⟨k, hk.trans hi⟩

end Signature

namespace Ty

theorem bareArray_primitives (v : Variance) (k : Primitive) (levels : Nat) :
    BareArray (Terminator.close
      (tidyArgument ⟨v, (Ty.primitive k).arrayOf (levels + 1)⟩)) := by
  have ht : tidyArgument ⟨v, (Ty.primitive k).arrayOf (levels + 1)⟩ =
      (v.sign.toList ++ List.replicate levels '[') ++ ['[', k.tag] := by
    rw [tidyArgument, tidy_arrayOf rfl, List.replicate_succ']
    simp
  have hc : Terminator.closes false (tidyArgument ⟨v, (Ty.primitive k).arrayOf (levels + 1)⟩) =
      false := by
    rw [ht, Terminator.closes_append]
    cases k <;> rfl
  rw [Terminator.close, hc, ht]
  exact ⟨k, ⟨v.sign.toList ++ List.replicate levels '[', [], by simp [Terminator.mark]⟩⟩

theorem Unclosed.bareArray {t : Ty} (h : t.Unclosed) : BareArray t.tidy := by
  induction h using Unclosed.rec (motive_2 := fun b _ => BareArray (tidyArgument b)) with
  | @parameterized name arguments b hm _ ih =>
      have hi : tidyArgument b <:+: arguments.flatMap tidyArgument :=
        List.infix_of_mem_flatten (List.mem_map_of_mem hm)
      rw [tidy_applied (List.ne_nil_of_mem hm) rfl]
      refine ih.of_infix (hi.trans ?_)
      exact List.infix_append_of_infix_right (List.infix_cons (List.infix_append_left ..))
  | primitives v k levels =>
      rw [tidyArgument_wildcardOf]
      exact bareArray_primitives v k levels
  | reference v _ ih => exact ih.of_infix (List.infix_append_right ..)
  | @wildcard v t _ ih =>
      rw [tidyArgument_wildcardOf, Terminator.close]
      refine ih.of_infix ?_
      split
      · exact List.infix_append_right ..
      · exact List.infix_append_of_infix_left (List.infix_append_right ..)

end Ty

theorem signature_derivable_iff {t : Ty} (h : t.Reference) :
    ReferenceText t.signature.toList ↔ ¬ t.Unclosed := by
  rw [h.signable.toList_signature]
  constructor
  · intro ht hu
    exact ht.not_bareArray hu.bareArray
  · exact h.tidy_text

theorem signature_derivable_iff_lower_bound :
    let t : Ty := .generic (.parameterized "Box"
      [⟨.covariant, .generic (.var "T")⟩,
        ⟨.invariant, .generic (.wildcardOf ⟨.contravariant, .array (.generic (.var "T"))⟩)⟩])
    t.Reference ∧ ReferenceText t.signature.toList ∧ ¬ t.Unclosed := by
  intro t
  have hv : (Ty.generic (.var "T")).Reference := .var (by simp [LegalName])
  have hr : t.Reference := by
    refine .parameterized ⟨[['B', 'o', 'x']], by simp, by simp [LegalName], by decide⟩ (by simp) ?_
    simp only [List.forall_mem_cons, List.not_mem_nil, false_imp_iff, implies_true, and_true]
    exact ⟨.reference _ hv, .wildcard (by decide) (.array hv)⟩
  have hc : ArgumentText "+TT;".toList :=
    .reference .covariant (@ReferenceText.var ['T'] (by simp [LegalName]))
  have hl : ArgumentText "-[Ljava/lang/Object;".toList :=
    .reference .contravariant (.array (Ty.descriptor_named_text legalClassName_object))
  have ht : ReferenceText t.signature.toList := by
    have hs : t.signature.toList = 'L' :: (['/'].intercalate [['B', 'o', 'x']] ++
        '<' :: (["+TT;".toList, "-[Ljava/lang/Object;".toList].flatten ++ ['>', ';'])) := by
      decide +kernel
    rw [hs]
    refine .applied (by simp) (by simp [LegalName]) (List.cons_ne_nil _ _) ?_
    simp only [List.forall_mem_cons, List.not_mem_nil, false_imp_iff, implies_true, and_true]
    exact ⟨hc, hl⟩
  exact ⟨hr, ht, (signature_derivable_iff hr).mp ht⟩

theorem primitive_array_bound_not_derivable :
    let t : Ty := .generic (.parameterized "java.util.List"
      [⟨.invariant, .generic (.wildcardOf ⟨.covariant, .array (.primitive .int)⟩)⟩])
    t.Reference ∧ t.signature = "Ljava/util/List<+[I;>;" ∧ ¬ ReferenceText t.signature.toList := by
  intro t
  have hr : t.Reference := by
    refine .parameterized ⟨[['j', 'a', 'v', 'a'], ['u', 't', 'i', 'l'], ['L', 'i', 's', 't']],
      by simp, by simp [LegalName], by decide⟩ (by simp) ?_
    simp only [List.forall_mem_cons, List.not_mem_nil, false_imp_iff, implies_true, and_true]
    exact .wildcard (by decide) (.primitives (by decide))
  have hs : t.signature = "Ljava/util/List<+[I;>;" := by decide
  refine ⟨hr, hs, fun ht => ht.not_bareArray ⟨.int, ?_⟩⟩
  rw [hs]
  exact ⟨"Ljava/util/List<+".toList, ['>', ';'], by decide⟩

end ClassfileTypes
