import Mathlib.Data.List.Forall2
import ClassfileTypes.Proofs.SectionText
import ClassfileTypes.Proofs.SignatureReading

namespace ClassfileTypes

theorem Ty.Readable.stops_colon (x : List Char) : Stops Ty.tidy Ty.Readable (':' :: x) := by
  intro t ht y e
  have h : List.replicate 0 '[' ++ ':' :: x = t.tidy ++ y := e.symm
  rcases ht.shape (by decide) h with ⟨k, hc, -⟩ | ⟨hc, -⟩ | ⟨hc, -⟩ | ⟨hc, -⟩
  · exact absurd hc (by cases k <;> decide)
  · exact absurd hc (by decide)
  · exact absurd hc (by decide)
  · exact absurd hc (by decide)

theorem Ty.readable_object : Ty.object.Readable :=
  .named 0 (by simp [Ty.ClassWord, objectName])

namespace TypeParameter

structure Readable (p : TypeParameter) : Prop where
  name_ne : p.name ≠ ""
  name_word : Ty.VariableWord p.name
  bounds : ∀ t ∈ p.bounds, t.Readable

def forgetErasures (p : TypeParameter) : TypeParameter :=
  { p with bounds := p.bounds.map Ty.forgetErasures }

def Equivalent (p q : TypeParameter) : Prop :=
  p.explicit.forgetErasures = q.explicit.forgetErasures

def boundTidy (t : Ty) : List Char := ':' :: t.tidy

def boundsTidy (p : TypeParameter) : List Char :=
  (if p.interfacesOnly then [':'] else []) ++ p.bounds.flatMap boundTidy

def tidy (p : TypeParameter) : List Char := p.name.toList ++ p.boundsTidy

section

variable {p q : TypeParameter}

theorem Readable.explicit (h : p.Readable) : p.explicit.Readable := by
  by_cases hb : p.bounds = []
  · rw [explicit_of_bounds_eq_nil hb]
    exact ⟨h.name_ne, h.name_word, by simpa [bounded] using Ty.readable_object⟩
  · rw [explicit_of_bounds_ne_nil hb]
    exact h

theorem Readable.notMem_name (h : p.Readable) {c : Char}
    (hc : c ∈ ['.', ';', '<', '>', '/', '[', ':']) : c ∉ p.name.toList :=
  fun m => h.name_word c m hc

theorem Readable.name_cons (h : p.Readable) :
    ∃ c cs, p.name.toList = c :: cs ∧ c ∉ ['.', ';', '<', '>', '/', '[', ':'] := by
  cases hn : p.name.toList with
  | nil => exact absurd (String.toList_inj.mp (by simpa using hn)) h.name_ne
  | cons c cs => exact ⟨c, cs, rfl, h.name_word c (by simp [hn])⟩

theorem Readable.squeeze_bounds (h : p.Readable) :
    Terminator.squeeze false ((if p.interfacesOnly then [':'] else []) ++
      p.bounds.flatMap boundFragment) = p.boundsTidy := by
  have ho : ∀ t ∈ p.bounds, Terminator.Opens (boundFragment t) := by
    intro t _
    simp [boundFragment, Terminator.Opens, Terminator.mark]
  have hs : Terminator.squeeze false (p.bounds.flatMap boundFragment) =
      p.bounds.flatMap boundTidy := by
    rw [Terminator.squeeze_flatMap ho]
    refine List.flatMap_congr fun t m => ?_
    simpa [boundFragment, boundTidy, Terminator.squeeze, Terminator.mark] using
      (h.bounds t m).signable.squeeze_fragment
  unfold boundsTidy
  cases p.interfacesOnly <;> simp [Terminator.squeeze, Terminator.mark, hs]

theorem Readable.squeeze_fragment (h : p.Readable) :
    Terminator.squeeze false p.fragment = p.tidy := by
  have hm : Terminator.mark ∉ p.name.toList := h.notMem_name (by simp [Terminator.mark])
  rw [fragment, Terminator.squeeze_append_of_notMem hm, h.squeeze_bounds, tidy]

theorem Readable.opens_fragment (h : p.Readable) : Terminator.Opens p.fragment := by
  have hm : ';' ∉ p.name.toList := h.notMem_name (by simp)
  exact (Ty.opens_name hm h.name_ne).append _

theorem stops_colons (x : List Char) : Stops boundTidy Ty.Readable (':' :: ':' :: x) := by
  intro t ht y e
  exact Ty.Readable.stops_colon x t ht y (List.cons.inj e).2

theorem stops_boundTidy {x : List Char} (hx : x.head? ≠ some ':') :
    Stops boundTidy Ty.Readable x := by
  rintro t _ y rfl
  exact hx rfl

theorem delimits_boundTidy {t : Ty} (h : t.Readable) :
    Delimits boundTidy Ty.forgetErasures Ty.Readable t := by
  intro u hu x y e
  exact h.delimits u hu x y (List.cons.inj e).2

theorem boundsTidy_cons (hb : p.bounds ≠ []) (x : List Char) :
    ∃ rest, p.boundsTidy ++ x = ':' :: rest := by
  obtain ⟨t, ts, hts⟩ := List.exists_cons_of_ne_nil hb
  unfold boundsTidy
  cases p.interfacesOnly <;> simp [hts, boundTidy]

theorem Readable.interfacesOnly_iff (h : p.Readable) (hb : p.bounds ≠ []) (x : List Char) :
    p.interfacesOnly = true ↔ ∃ rest, p.boundsTidy ++ x = ':' :: ':' :: rest := by
  obtain ⟨t, ts, hts⟩ := List.exists_cons_of_ne_nil hb
  constructor
  · intro hi
    exact ⟨t.tidy ++ (ts.flatMap boundTidy ++ x), by simp [boundsTidy, hi, hts, boundTidy]⟩
  · rintro ⟨rest, hr⟩
    by_contra hi
    have ht : t.Readable := h.bounds t (by simp [hts])
    have hw : boundTidy t ++ (ts.flatMap boundTidy ++ x) = ':' :: ':' :: rest := by
      simpa [boundsTidy, hi, hts] using hr
    exact stops_colons rest t ht _ hw

theorem Readable.boundsTidy_unique (hp : p.Readable) (hq : q.Readable) (hpb : p.bounds ≠ [])
    (hqb : q.bounds ≠ []) {x y : List Char} (hx : x.head? ≠ some ':') (hy : y.head? ≠ some ':')
    (e : p.boundsTidy ++ x = q.boundsTidy ++ y) :
    p.interfacesOnly = q.interfacesOnly ∧
      p.bounds.map Ty.forgetErasures = q.bounds.map Ty.forgetErasures ∧ x = y := by
  have hi : p.interfacesOnly = q.interfacesOnly := by
    rw [Bool.eq_iff_iff, hp.interfacesOnly_iff hpb x, hq.interfacesOnly_iff hqb y, e]
  have hf : p.bounds.flatMap boundTidy ++ x = q.bounds.flatMap boundTidy ++ y := by
    rw [boundsTidy, boundsTidy, hi, List.append_assoc, List.append_assoc] at e
    exact List.append_cancel_left e
  exact ⟨hi, flatMap_delimits hp.bounds hq.bounds (fun t m => delimits_boundTidy (hp.bounds t m))
    (stops_boundTidy hx) (stops_boundTidy hy) hf⟩

end

def Stated (p : TypeParameter) : Prop := p.Readable ∧ p.bounds ≠ []

theorem Stated.delimits {p : TypeParameter} (h : p.Stated) :
    DelimitsBefore tidy forgetErasures Stated (fun x => x.head? ≠ some ':') p := by
  intro q hq x y hx hy e
  obtain ⟨hp, hpb⟩ := h
  obtain ⟨hq, hqb⟩ := hq
  have hpc : ':' ∉ p.name.toList := hp.notMem_name (by simp)
  have hqc : ':' ∉ q.name.toList := hq.notMem_name (by simp)
  obtain ⟨rest, hr⟩ := boundsTidy_cons hpb x
  obtain ⟨rest', hr'⟩ := boundsTidy_cons hqb y
  rw [tidy, tidy, List.append_assoc, List.append_assoc, hr, hr'] at e
  obtain ⟨hn, -, hrr⟩ := append_cons_unique hqc hpc e
  have hb : p.boundsTidy ++ x = q.boundsTidy ++ y := by rw [hr, hr', hrr]
  obtain ⟨hi, hbs, hxy⟩ := hp.boundsTidy_unique hq hpb hqb hx hy hb
  refine ⟨?_, hxy⟩
  rw [forgetErasures, forgetErasures, hbs, hi, String.toList_inj.mp hn]

theorem Stated.head {p : TypeParameter} (h : p.Stated) (x : List Char) :
    ∃ c rest, p.tidy ++ x = c :: rest ∧ c ∉ ['.', ';', '<', '>', '/', '[', ':'] := by
  obtain ⟨c, cs, hn, hc⟩ := h.1.name_cons
  exact ⟨c, cs ++ (p.boundsTidy ++ x), by simp [tidy, hn], hc⟩

theorem Stated.head?_ne {p : TypeParameter} (h : p.Stated) (x : List Char) :
    (p.tidy ++ x).head? ≠ some ':' := by
  obtain ⟨c, rest, e, hc⟩ := h.head x
  rw [e]
  rintro ⟨⟩
  simp at hc

theorem stops_close (x : List Char) : Stops tidy Stated ('>' :: x) := by
  intro p hp y e
  obtain ⟨c, rest, ec, hc⟩ := hp.head y
  obtain ⟨rfl, -⟩ := List.cons.inj (ec.symm.trans e)
  simp at hc

end TypeParameter

namespace Scope

def Readable (s : Scope) : Prop := ∀ p ∈ s.parameters, p.Readable

def stated (s : Scope) : List TypeParameter := s.parameters.map TypeParameter.explicit

theorem Readable.stated {s : Scope} (h : s.Readable) : ∀ p ∈ s.stated, p.Stated := by
  intro p m
  obtain ⟨q, hq, rfl⟩ := List.mem_map.mp m
  exact ⟨(h q hq).explicit, q.bounds_explicit_ne_nil⟩

theorem Readable.toList_signature {s : Scope} (h : s.Readable) (hs : s.parameters ≠ []) :
    s.signature.toList = '<' :: (s.stated.flatMap TypeParameter.tidy ++ ['>']) := by
  have ho : ∀ p ∈ s.parameters, Terminator.Opens p.explicit.fragment :=
    fun p m => (h p m).explicit.opens_fragment
  have ht : Terminator.squeeze false (s.parameters.flatMap fun p => p.explicit.fragment) =
      s.stated.flatMap TypeParameter.tidy := by
    rw [Terminator.squeeze_flatMap ho, Scope.stated, List.flatMap_map]
    exact List.flatMap_congr fun p m => (h p m).explicit.squeeze_fragment
  rw [Scope.toList_signature, if_neg hs, Scope.fragment, Terminator.squeeze_bracketed, ht]
  rfl

theorem Readable.stated_unique {A B : Scope} (hA : A.Readable) (hB : B.Readable)
    (h : A.signature = B.signature) :
    A.stated.map TypeParameter.forgetErasures = B.stated.map TypeParameter.forgetErasures := by
  have e : A.signature.toList = B.signature.toList := congrArg _ h
  by_cases ha : A.parameters = []
  · by_cases hb : B.parameters = []
    · rw [Scope.stated, Scope.stated, ha, hb]
    · rw [Scope.toList_signature, if_pos ha, hB.toList_signature hb] at e
      cases e
  · by_cases hb : B.parameters = []
    · rw [Scope.toList_signature B, if_pos hb, hA.toList_signature ha] at e
      cases e
    · rw [hA.toList_signature ha, hB.toList_signature hb] at e
      exact (flatMap_delimitsBefore (fun x => x.head? ≠ some ':') (fun p hp => hp.head?_ne)
        hA.stated hB.stated (fun p m => (hA.stated p m).delimits) (by simp) (by simp)
        (TypeParameter.stops_close []) (TypeParameter.stops_close []) (List.cons.inj e).2).1

end Scope

theorem section_determines_parameters {A B : Scope} (hA : A.Readable) (hB : B.Readable)
    (h : A.signature = B.signature) :
    List.Forall₂ TypeParameter.Equivalent A.parameters B.parameters := by
  have hs := hA.stated_unique hB h
  have he : List.Forall₂ Eq (A.stated.map TypeParameter.forgetErasures)
      (B.stated.map TypeParameter.forgetErasures) := by
    rw [List.forall₂_eq_eq_eq]
    exact hs
  simp only [Scope.stated, List.forall₂_map_left_iff, List.forall₂_map_right_iff] at he
  exact he

theorem section_determines_parameters_implied_bound :
    let v (erasure : Ty) : Ty := .generic { GenericUse.var "V" with erasure }
    let comparable (erasure : Ty) : Ty := .generic { GenericUse.parameterized "java.lang.Comparable"
      [⟨.invariant, v erasure⟩] with erasure }
    let A : Scope := ⟨[⟨"K", [], true⟩, .interfaceBounded "V" [comparable .object]]⟩
    let B : Scope := ⟨[⟨"K", [.object], false⟩,
      .interfaceBounded "V" [comparable (.primitive .int)]]⟩
    A.Readable ∧ B.Readable ∧
    A.signature = "<K:Ljava/lang/Object;V::Ljava/lang/Comparable<TV;>;>" ∧
    A.signature = B.signature ∧
    List.Forall₂ TypeParameter.Equivalent A.parameters B.parameters := by
  intro v comparable A B
  have hv (erasure : Ty) : (v erasure).Readable := .var erasure (by simp [Ty.VariableWord])
  have hc (erasure : Ty) : (comparable erasure).Readable := by
    refine .parameterized erasure (by simp [Ty.ClassWord]) (by simp) ?_
    simpa using Ty.ReadableArgument.reference .invariant (hv erasure)
  have hk (bounds : List Ty) (i : Bool) (h : ∀ t ∈ bounds, t.Readable) :
      TypeParameter.Readable ⟨"K", bounds, i⟩ := ⟨by simp, by simp [Ty.VariableWord], h⟩
  have hp (erasure : Ty) :
      (TypeParameter.interfaceBounded "V" [comparable erasure]).Readable :=
    ⟨by simp [TypeParameter.interfaceBounded],
      by simp [Ty.VariableWord, TypeParameter.interfaceBounded],
      by simpa [TypeParameter.interfaceBounded] using hc erasure⟩
  have hA : A.Readable := by
    simpa [A, Scope.Readable] using ⟨hk [] true (by simp), hp .object⟩
  have hB : B.Readable := by
    simpa [B, Scope.Readable] using
      ⟨hk [.object] false (by simpa using Ty.readable_object), hp (.primitive .int)⟩
  have hs : A.signature = "<K:Ljava/lang/Object;V::Ljava/lang/Comparable<TV;>;>" := by decide
  have he : A.signature = B.signature := rfl
  exact ⟨hA, hB, hs, he, section_determines_parameters hA hB he⟩

end ClassfileTypes
