import ClassfileTypes.Proofs.SelfDelimiting
import ClassfileTypes.Proofs.SignatureText

namespace ClassfileTypes

namespace Ty

mutual

def forgetErasures : Ty → Ty
  | .generic ⟨name, resolved, wildcard, bounds, _⟩ =>
      .generic ⟨name, resolved, wildcard, forgetInBounds bounds, .object⟩
  | .array c => .array c.forgetErasures
  | .primitive k => .primitive k
  | .named name => .named name

def forgetInBounds : List (Bound Ty) → List (Bound Ty)
  | [] => []
  | ⟨v, t⟩ :: bs => ⟨v, t.forgetErasures⟩ :: forgetInBounds bs

end

def forgetInBound (b : Bound Ty) : Bound Ty := ⟨b.variance, b.ty.forgetErasures⟩

theorem forgetInBounds_eq (bs : List (Bound Ty)) : forgetInBounds bs = bs.map forgetInBound := by
  induction bs with
  | nil => rfl
  | cons b bs ih => rw [forgetInBounds, ih, List.map_cons, forgetInBound]

def ClassWord (name : String) : Prop :=
  ∀ c ∈ name.toList, c ∉ [';', '<', '>', '/', '[', ':']

def VariableWord (name : String) : Prop :=
  ∀ c ∈ name.toList, c ∉ ['.', ';', '<', '>', '/', '[', ':']

mutual

inductive Readable : Ty → Prop
  | primitive (k : Primitive) (levels : Nat) : Readable ((Ty.primitive k).arrayOf levels)
  | named {name : String} (levels : Nat) : ClassWord name →
      Readable ((Ty.named name).arrayOf levels)
  | var {name : String} (erasure : Ty) : VariableWord name →
      Readable (.generic { GenericUse.var name with erasure })
  | parameterized {name : String} {arguments : List (Bound Ty)} (erasure : Ty) : ClassWord name →
      arguments ≠ [] → (∀ b ∈ arguments, ReadableArgument b) →
      Readable (.generic { GenericUse.parameterized name arguments with erasure })

inductive ReadableArgument : Bound Ty → Prop
  | unbounded (erasure : Ty) :
      ReadableArgument ⟨.invariant, .generic { GenericUse.unbounded with erasure }⟩
  | reference (v : Variance) {t : Ty} : Readable t → ReadableArgument ⟨v, t⟩

end

theorem ClassWord.notMem_slashed {name : String} (h : ClassWord name) {c : Char}
    (hc : c ∈ [';', '<', '>', '[', ':']) : c ∉ name.toList.map slashed := by
  have hs : c ≠ '/' := by rintro rfl; simp at hc
  have hd : c ≠ '.' := by rintro rfl; simp at hc
  refine mt (mem_map_slashed hs hd).mp fun m => h c m ?_
  simp only [List.mem_cons, List.not_mem_nil, or_false] at hc ⊢
  tauto

theorem ClassWord.inj {m n : String} (hm : ClassWord m) (hn : ClassWord n)
    (h : m.toList.map slashed = n.toList.map slashed) : m = n :=
  String.toList_inj.mp (map_slashed_inj (fun e => hm _ e (by simp)) (fun e => hn _ e (by simp)) h)

theorem tidy_primitive_append (k : Primitive) (levels : Nat) (x : List Char) :
    ((Ty.primitive k).arrayOf levels).tidy ++ x = List.replicate levels '[' ++ k.tag :: x := by
  rw [tidy_arrayOf rfl]
  simp

theorem tidy_named_append (name : String) (levels : Nat) (x : List Char) :
    ((Ty.named name).arrayOf levels).tidy ++ x =
      List.replicate levels '[' ++ 'L' :: (name.toList.map slashed ++ ';' :: x) := by
  rw [tidy_arrayOf rfl]
  simp

theorem tidy_var_append (name : String) (erasure : Ty) (x : List Char) :
    (Ty.generic { GenericUse.var name with erasure }).tidy ++ x =
      List.replicate 0 '[' ++ 'T' :: (name.toList ++ ';' :: x) := by
  rw [tidy_variable rfl rfl rfl]
  simp [GenericUse.var]

theorem tidy_parameterized_append (name : String) {arguments : List (Bound Ty)}
    (h : arguments ≠ []) (erasure : Ty) (x : List Char) :
    (Ty.generic { GenericUse.parameterized name arguments with erasure }).tidy ++ x =
      List.replicate 0 '[' ++ 'L' :: (name.toList.map slashed ++
        '<' :: (arguments.flatMap tidyArgument ++ '>' :: ';' :: x)) := by
  rw [tidy_applied h rfl]
  simp [GenericUse.parameterized]

theorem levels_unique {m n : Nat} {c d : Char} {x y : List Char} (hc : c ≠ '[') (hd : d ≠ '[')
    (h : List.replicate m '[' ++ c :: x = List.replicate n '[' ++ d :: y) :
    m = n ∧ c = d ∧ x = y := by
  obtain ⟨hl, hr⟩ := append_cons_unique (by simp [hc]) (by simp [hd]) h
  exact ⟨by simpa using congrArg List.length hl, hr⟩

theorem sign_unique {v w : Variance} {c d : Char} {x y : List Char} (hc : c ∉ ['+', '-'])
    (hd : d ∉ ['+', '-']) (h : v.sign.toList ++ c :: x = w.sign.toList ++ d :: y) :
    v = w ∧ c :: x = d :: y := by
  cases v <;> cases w <;> simp [Variance.sign] at hc hd h ⊢ <;> grind

theorem Readable.head {t : Ty} (h : t.Readable) (x : List Char) :
    ∃ c rest, t.tidy ++ x = c :: rest ∧ c ∉ ['*', '+', '-', '>'] := by
  have lead (levels : Nat) (c : Char) (rest : List Char) (hc : c ∉ ['*', '+', '-', '>']) :
      ∃ d tail, List.replicate levels '[' ++ c :: rest = d :: tail ∧ d ∉ ['*', '+', '-', '>'] := by
    cases levels with
    | zero => exact ⟨c, rest, rfl, hc⟩
    | succ n => exact ⟨'[', List.replicate n '[' ++ c :: rest, rfl, by decide⟩
  cases h with
  | primitive k levels =>
      rw [tidy_primitive_append]
      exact lead _ _ _ (by cases k <;> decide)
  | named levels _ =>
      rw [tidy_named_append]
      exact lead _ _ _ (by decide)
  | var erasure _ =>
      rw [tidy_var_append]
      exact lead _ _ _ (by decide)
  | parameterized erasure _ hne _ =>
      rw [tidy_parameterized_append _ hne]
      exact lead _ _ _ (by decide)

theorem tidyArgument_unbounded_append (erasure : Ty) (x : List Char) :
    tidyArgument ⟨.invariant, .generic { GenericUse.unbounded with erasure }⟩ ++ x = '*' :: x := by
  rw [tidyArgument, tidy_unbounded rfl rfl rfl]
  simp [GenericUse.unbounded, Variance.sign]

theorem Readable.argument_head {t : Ty} (h : t.Readable) (v : Variance) (x : List Char) :
    ∃ c rest, t.tidy ++ x = c :: rest ∧ tidyArgument ⟨v, t⟩ ++ x = v.sign.toList ++ c :: rest ∧
      c ∉ ['*', '+', '-', '>'] := by
  obtain ⟨c, rest, e, hc⟩ := h.head x
  exact ⟨c, rest, e, by rw [tidyArgument, List.append_assoc, e], hc⟩

theorem star_ne_sign {v : Variance} {c : Char} {x rest : List Char}
    (hc : c ∉ ['*', '+', '-', '>']) : '*' :: x ≠ v.sign.toList ++ c :: rest := by
  intro e
  cases v <;> simp [Variance.sign] at e
  simp [← e.1] at hc

theorem ReadableArgument.stops_close (x : List Char) :
    Stops tidyArgument ReadableArgument ('>' :: x) := by
  intro b hb y e
  cases hb with
  | unbounded erasure =>
      rw [tidyArgument_unbounded_append] at e
      exact absurd (List.cons.inj e).1 (by decide)
  | reference v ht =>
      obtain ⟨c, rest, -, ea, hc⟩ := ht.argument_head v y
      rw [ea] at e
      cases v <;> simp [Variance.sign] at e
      simp [e.1] at hc

theorem ReadableArgument.stops_nil : Stops tidyArgument ReadableArgument [] := by
  intro b hb y e
  cases hb with
  | unbounded erasure =>
      rw [tidyArgument_unbounded_append] at e
      cases e
  | reference v ht =>
      obtain ⟨c, rest, -, ea, -⟩ := ht.argument_head v y
      rw [ea] at e
      simp at e

theorem Readable.shape {t : Ty} (h : t.Readable) {levels : Nat} {c : Char} {x y : List Char}
    (hc : c ≠ '[') (e : List.replicate levels '[' ++ c :: x = t.tidy ++ y) :
    (∃ k, c = k.tag ∧ t = (Ty.primitive k).arrayOf levels ∧ x = y) ∨
    (c = 'L' ∧ ∃ name, ClassWord name ∧ t = (Ty.named name).arrayOf levels ∧
      x = name.toList.map slashed ++ ';' :: y) ∨
    (c = 'T' ∧ ∃ name erasure, VariableWord name ∧ levels = 0 ∧
      t = .generic { GenericUse.var name with erasure } ∧ x = name.toList ++ ';' :: y) ∨
    (c = 'L' ∧ ∃ name arguments erasure, ClassWord name ∧ (∀ b ∈ arguments, ReadableArgument b) ∧
      levels = 0 ∧ t = .generic { GenericUse.parameterized name arguments with erasure } ∧
      x = name.toList.map slashed ++
        '<' :: (arguments.flatMap tidyArgument ++ '>' :: ';' :: y)) := by
  cases h with
  | primitive k n =>
      rw [tidy_primitive_append] at e
      obtain ⟨rfl, ec, ex⟩ := levels_unique hc (by cases k <;> decide) e
      exact .inl ⟨k, ec, rfl, ex⟩
  | @named name n hn =>
      rw [tidy_named_append] at e
      obtain ⟨rfl, ec, ex⟩ := levels_unique hc (by decide) e
      exact .inr (.inl ⟨ec, name, hn, rfl, ex⟩)
  | @var name erasure hn =>
      rw [tidy_var_append] at e
      obtain ⟨en, ec, ex⟩ := levels_unique hc (by decide) e
      exact .inr (.inr (.inl ⟨ec, name, erasure, hn, en, rfl, ex⟩))
  | @parameterized name arguments erasure hn hne ha =>
      rw [tidy_parameterized_append _ hne] at e
      obtain ⟨en, ec, ex⟩ := levels_unique hc (by decide) e
      exact .inr (.inr (.inr ⟨ec, name, arguments, erasure, hn, ha, en, rfl, ex⟩))

theorem ClassWord.unique {m n : String} (hm : ClassWord m) (hn : ClassWord n) {c d : Char}
    (hc : c ∈ [';', '<']) (hd : d ∈ [';', '<']) {x y : List Char}
    (h : m.toList.map slashed ++ c :: x = n.toList.map slashed ++ d :: y) :
    m = n ∧ c = d ∧ x = y := by
  have hs : [';', '<'] ⊆ [';', '<', '>', '[', ':'] := by decide
  obtain ⟨hw, hr⟩ := append_cons_unique (hn.notMem_slashed (hs hc)) (hm.notMem_slashed (hs hd)) h
  exact ⟨hm.inj hn hw, hr⟩

theorem VariableWord.unique {m n : String} (hm : VariableWord m) (hn : VariableWord n)
    {x y : List Char} (h : m.toList ++ ';' :: x = n.toList ++ ';' :: y) : m = n ∧ x = y := by
  obtain ⟨hw, -, hr⟩ :=
    append_cons_unique (fun e => hn _ e (by simp)) (fun e => hm _ e (by simp)) h
  exact ⟨String.toList_inj.mp hw, hr⟩

theorem delimits_unbounded (erasure : Ty) :
    Delimits tidyArgument forgetInBound ReadableArgument
      ⟨.invariant, .generic { GenericUse.unbounded with erasure }⟩ := by
  intro c hc x y e
  rw [tidyArgument_unbounded_append] at e
  cases hc with
  | unbounded erasure' =>
      rw [tidyArgument_unbounded_append] at e
      exact ⟨rfl, (List.cons.inj e).2⟩
  | reference w hu =>
      obtain ⟨d, rest, -, eu, hd⟩ := hu.argument_head w y
      exact absurd (e.trans eu) (star_ne_sign hd)

theorem Readable.delimits_argument {t : Ty} (ht : t.Readable)
    (hd : Delimits tidy forgetErasures Readable t) (v : Variance) :
    Delimits tidyArgument forgetInBound ReadableArgument ⟨v, t⟩ := by
  intro c hc x y e
  obtain ⟨d, rest, ed, et, hn⟩ := ht.argument_head v x
  cases hc with
  | unbounded erasure =>
      rw [tidyArgument_unbounded_append] at e
      exact absurd (e.symm.trans et) (star_ne_sign hn)
  | @reference w u hu =>
      obtain ⟨d', rest', ed', eu, hn'⟩ := hu.argument_head w y
      obtain ⟨rfl, er⟩ := sign_unique (by simp_all) (by simp_all) (et.symm.trans (e.trans eu))
      obtain ⟨hv, hr⟩ := hd u hu x y (ed.trans (er.trans ed'.symm))
      exact ⟨by simp [forgetInBound, hv], hr⟩

theorem Readable.delimits {t : Ty} (h : t.Readable) :
    Delimits tidy forgetErasures Readable t := by
  induction h using Readable.rec
    (motive_2 := fun b _ => Delimits tidyArgument forgetInBound ReadableArgument b) with
  | primitive k levels =>
      intro u hu x y e
      rw [tidy_primitive_append] at e
      have hk := k.tag_notMem
      rcases hu.shape (by cases k <;> decide) e with
        ⟨l, hkl, rfl, rfl⟩ | ⟨hc, -⟩ | ⟨hc, -⟩ | ⟨hc, -⟩
      · rw [Primitive.tag_inj.mp hkl]
        exact ⟨rfl, rfl⟩
      · simp [hc] at hk
      · simp [hc] at hk
      · simp [hc] at hk
  | @named name levels hn =>
      intro u hu x y e
      rw [tidy_named_append] at e
      rcases hu.shape (by decide) e with
        ⟨l, hc, -, -⟩ | ⟨-, m, hm, rfl, ex⟩ | ⟨hc, -⟩ | ⟨-, m, arguments, erasure, hm, -, -, -, ex⟩
      · exact absurd hc (by cases l <;> decide)
      · obtain ⟨rfl, -, rfl⟩ := hn.unique hm (by simp) (by simp) ex
        exact ⟨rfl, rfl⟩
      · exact absurd hc (by decide)
      · exact absurd (hn.unique hm (by simp) (by simp) ex).2.1 (by decide)
  | @var name erasure hn =>
      intro u hu x y e
      rw [tidy_var_append] at e
      rcases hu.shape (by decide) e with
        ⟨l, hc, -, -⟩ | ⟨hc, -⟩ | ⟨-, m, erasure', hm, -, rfl, ex⟩ | ⟨hc, -⟩
      · exact absurd hc (by cases l <;> decide)
      · exact absurd hc (by decide)
      · obtain ⟨rfl, rfl⟩ := hn.unique hm ex
        exact ⟨rfl, rfl⟩
      · exact absurd hc (by decide)
  | @parameterized name arguments erasure hn hne ha ih =>
      intro u hu x y e
      rw [tidy_parameterized_append _ hne] at e
      rcases hu.shape (by decide) e with
        ⟨l, hc, -, -⟩ | ⟨-, m, hm, -, ex⟩ | ⟨hc, -⟩ | ⟨-, m, cs, erasure', hm, hcs, -, rfl, ex⟩
      · exact absurd hc (by cases l <;> decide)
      · exact absurd (hn.unique hm (by simp) (by simp) ex).2.1 (by decide)
      · exact absurd hc (by decide)
      · obtain ⟨rfl, -, er⟩ := hn.unique hm (by simp) (by simp) ex
        obtain ⟨hv, hr⟩ := flatMap_delimits ha hcs ih (ReadableArgument.stops_close _)
          (ReadableArgument.stops_close _) er
        obtain rfl : x = y := by simpa using hr
        simp [forgetErasures, forgetInBounds_eq, GenericUse.parameterized, hv]
  | unbounded erasure => exact delimits_unbounded erasure
  | reference v ht ih => exact ht.delimits_argument ih v

theorem ReadableArgument.delimits {b : Bound Ty} (h : ReadableArgument b) :
    Delimits tidyArgument forgetInBound ReadableArgument b := by
  cases h with
  | unbounded erasure => exact delimits_unbounded erasure
  | reference v ht => exact ht.delimits_argument ht.delimits v

theorem signable_arrayOf {t : Ty} (h : t.Signable)
    (hn : t.ClassNames fun name => ';' ∉ name.toList) (levels : Nat) :
    (t.arrayOf levels).Signable := by
  cases levels with
  | zero => exact h
  | succ n =>
      rw [arrayOf_succ]
      exact .array (classNames_arrayOf.mpr hn)

theorem signable_unbounded (erasure : Ty) :
    (Ty.generic { GenericUse.unbounded with erasure }).Signable :=
  .generic (by simp [GenericUse.unbounded]) (by simp [GenericUse.unbounded])
    (by simp [GenericUse.unbounded])

theorem Readable.signable {t : Ty} (h : t.Readable) : t.Signable := by
  induction h using Readable.rec (motive_2 := fun b _ => b.ty.Signable) with
  | primitive k levels => exact signable_arrayOf (.primitive k) (fun name e => by cases e) levels
  | named levels hn =>
      have hs : ';' ∉ _ := fun e => hn ';' e (by simp)
      exact signable_arrayOf (.named hs) (classNames_named.mpr hs) levels
  | var erasure hn =>
      exact .generic (fun e => hn ';' e (by simp)) (by simp [GenericUse.var])
        (by simp [GenericUse.var])
  | @parameterized name arguments erasure hn hne _ ih =>
      refine .generic ?_ (fun e => absurd e hne) ih
      simpa [GenericUse.parameterized] using hn.notMem_slashed (c := ';') (by simp)
  | unbounded erasure => exact signable_unbounded erasure
  | reference v _ ih => exact ih

theorem ReadableArgument.signable {b : Bound Ty} (h : ReadableArgument b) : b.ty.Signable := by
  cases h with
  | unbounded erasure => exact signable_unbounded erasure
  | reference v ht => exact ht.signable

end Ty

theorem signature_fragments_unique :
    (∀ s t : Ty, s.Readable → t.Readable → s.signature = t.signature →
      s.forgetErasures = t.forgetErasures) ∧
    (∀ as bs : List (Bound Ty), (∀ a ∈ as, Ty.ReadableArgument a) →
      (∀ b ∈ bs, Ty.ReadableArgument b) → argumentsSignature as = argumentsSignature bs →
      Ty.forgetInBounds as = Ty.forgetInBounds bs) := by
  constructor
  · intro s t hs ht e
    have h : s.tidy ++ [] = t.tidy ++ [] := by
      rw [← hs.signable.toList_signature, ← ht.signable.toList_signature, e]
    exact (hs.delimits t ht [] [] h).1
  · intro as bs ha hb e
    have h : as.flatMap Ty.tidyArgument ++ [] = bs.flatMap Ty.tidyArgument ++ [] := by
      rw [← toList_argumentsSignature fun a m => (ha a m).signable,
        ← toList_argumentsSignature fun b m => (hb b m).signable, e]
    rw [Ty.forgetInBounds_eq, Ty.forgetInBounds_eq]
    exact (flatMap_delimits ha hb (fun a m => (ha a m).delimits) Ty.ReadableArgument.stops_nil
      Ty.ReadableArgument.stops_nil h).1

theorem signature_fragments_unique_erased :
    let box (erasure : Ty) : Ty := .generic { GenericUse.parameterized "Box"
      [⟨.invariant, .generic { GenericUse.unbounded with erasure }⟩] with erasure }
    let t (erasure : Ty) : Ty := .generic { GenericUse.parameterized "Map"
      [⟨.invariant, .generic { GenericUse.var "K" with erasure }⟩,
        ⟨.contravariant, box erasure⟩] with erasure }
    let a (erasure : Ty) : List (Bound Ty) :=
      [⟨.covariant, t erasure⟩, ⟨.invariant, (Ty.primitive .int).arrayOf 2⟩]
    (t .object).signature = (t (.primitive .long)).signature ∧
    (t .object).forgetErasures = (t (.primitive .long)).forgetErasures ∧
    argumentsSignature (a .object) = argumentsSignature (a (.primitive .long)) ∧
    Ty.forgetInBounds (a .object) = Ty.forgetInBounds (a (.primitive .long)) := by
  intro box t a
  have hb (erasure : Ty) : (box erasure).Readable := by
    refine .parameterized erasure (by simp [Ty.ClassWord]) (by simp) ?_
    simpa using Ty.ReadableArgument.unbounded erasure
  have ht (erasure : Ty) : (t erasure).Readable := by
    refine .parameterized erasure (by simp [Ty.ClassWord]) (by simp) ?_
    simp only [List.forall_mem_cons, List.not_mem_nil, false_imp_iff, implies_true, and_true]
    exact ⟨.reference .invariant (.var erasure (by simp [Ty.VariableWord])),
      .reference .contravariant (hb erasure)⟩
  have ha (erasure : Ty) : ∀ b ∈ a erasure, Ty.ReadableArgument b := by
    simp only [a, List.forall_mem_cons, List.not_mem_nil, false_imp_iff, implies_true, and_true]
    exact ⟨.reference .covariant (ht erasure), .reference .invariant (.primitive .int 2)⟩
  have hs : (t .object).signature = (t (.primitive .long)).signature := rfl
  have hl : argumentsSignature (a .object) = argumentsSignature (a (.primitive .long)) := rfl
  exact ⟨hs, signature_fragments_unique.1 _ _ (ht _) (ht _) hs, hl,
    signature_fragments_unique.2 _ _ (ha _) (ha _) hl⟩

end ClassfileTypes
