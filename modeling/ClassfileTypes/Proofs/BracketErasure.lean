import ClassfileTypes.Proofs.SignatureText

namespace ClassfileTypes

def unbracket : Nat → List Char → Option (List Char)
  | 0, [] => some []
  | _ + 1, [] => none
  | 0, c :: cs =>
      if c = '<' then unbracket 1 cs
      else if c = '>' then none
      else (unbracket 0 cs).map (c :: ·)
  | depth + 1, c :: cs =>
      if c = '<' then unbracket (depth + 2) cs
      else if c = '>' then unbracket depth cs
      else unbracket (depth + 1) cs

inductive Balanced : List Char → Prop
  | nil : Balanced []
  | char {c : Char} {cs : List Char} : c ≠ '<' → c ≠ '>' → Balanced cs → Balanced (c :: cs)
  | bracketed {inside cs : List Char} : Balanced inside → Balanced cs →
      Balanced ('<' :: (inside ++ '>' :: cs))

namespace Balanced

variable {cs ds : List Char}

theorem append (hc : Balanced cs) (hd : Balanced ds) : Balanced (cs ++ ds) := by
  induction hc with
  | nil => exact hd
  | char ho hx _ ih => exact .char ho hx ih
  | @bracketed inside cs hi _ _ ih =>
      rw [List.cons_append, List.append_assoc, List.cons_append]
      exact .bracketed hi ih

theorem of_notMem (ho : '<' ∉ cs) (hx : '>' ∉ cs) : Balanced cs := by
  induction cs with
  | nil => exact .nil
  | cons c cs ih =>
      obtain ⟨hoc, ho⟩ := not_or.mp (mt List.mem_cons.mpr ho)
      obtain ⟨hxc, hx⟩ := not_or.mp (mt List.mem_cons.mpr hx)
      exact .char (Ne.symm hoc) (Ne.symm hxc) (ih ho hx)

theorem flatMap {α : Type} {f : α → List Char} {as : List α} (h : ∀ a ∈ as, Balanced (f a)) :
    Balanced (as.flatMap f) := by
  induction as with
  | nil => exact .nil
  | cons a as ih =>
      have hf : Balanced (f a) := h a (List.mem_cons_self ..)
      exact hf.append (ih fun b hb => h b (List.mem_cons_of_mem _ hb))

theorem squeeze (h : Balanced cs) (after : Bool) : Balanced (Terminator.squeeze after cs) := by
  induction h generalizing after with
  | nil => exact .nil
  | @char c cs ho hx _ ih =>
      unfold Terminator.squeeze
      split_ifs
      · exact ih true
      · exact .char ho hx (ih true)
      · exact .char ho hx (ih false)
  | bracketed _ _ ihi ihc =>
      rw [Terminator.squeeze_bracketed]
      exact .bracketed (ihi false) (ihc false)

end Balanced

theorem unbracket_inside {cs : List Char} (h : Balanced cs) (depth : Nat) (rest : List Char) :
    unbracket (depth + 1) (cs ++ rest) = unbracket (depth + 1) rest := by
  -- The section inside is entered one level deeper, so the depth varies along with the rest.
  induction h generalizing depth rest with
  | nil => rfl
  | char ho hx _ ih => simp only [List.cons_append, unbracket, if_neg ho, if_neg hx, ih]
  | @bracketed inside cs _ _ ihi ihc =>
      have hs : '<' :: (inside ++ '>' :: cs) ++ rest = '<' :: (inside ++ '>' :: (cs ++ rest)) := by
        simp
      have hi := ihi (depth + 1) ('>' :: (cs ++ rest))
      rw [hs, unbracket, if_pos rfl, hi, unbracket, if_neg (by decide), if_pos rfl, ihc]

theorem unbracket_outside {cs : List Char} (ho : '<' ∉ cs) (hx : '>' ∉ cs) (rest : List Char) :
    unbracket 0 (cs ++ rest) = (unbracket 0 rest).map (cs ++ ·) := by
  induction cs with
  | nil => simp
  | cons c cs ih =>
      obtain ⟨hoc, ho⟩ := not_or.mp (mt List.mem_cons.mpr ho)
      obtain ⟨hxc, hx⟩ := not_or.mp (mt List.mem_cons.mpr hx)
      rw [List.cons_append, unbracket, if_neg (Ne.symm hoc), if_neg (Ne.symm hxc), ih ho hx,
        Option.map_map]
      rfl

theorem unbracket_bracketed {inside : List Char} (h : Balanced inside) (rest : List Char) :
    unbracket 0 ('<' :: (inside ++ '>' :: rest)) = unbracket 0 rest := by
  rw [unbracket, if_pos rfl, unbracket_inside h, unbracket, if_neg (by decide), if_pos rfl]

theorem unbracket_of_notMem {cs : List Char} (ho : '<' ∉ cs) (hx : '>' ∉ cs) :
    unbracket 0 cs = some cs := by
  have h := unbracket_outside ho hx []
  simpa [unbracket] using h

namespace Ty

inductive EachName (cls gen : String → Prop) : Ty → Prop
  | primitive (k : Primitive) : EachName cls gen (.primitive k)
  | array {c : Ty} : EachName cls gen c → EachName cls gen (.array c)
  | named {name : String} : cls name → EachName cls gen (.named name)
  | generic {g : GenericUse Ty} : gen g.name → (∀ b ∈ g.bounds, EachName cls gen b.ty) →
      EachName cls gen g.erasure → EachName cls gen (.generic g)

theorem EachName.classNames {cls gen : String → Prop} {t : Ty} (h : t.EachName cls gen) :
    t.ClassNames cls := by
  induction h with
  | primitive k => exact fun name e => by cases e
  | array _ ih => exact classNames_array.mpr ih
  | named hn => exact classNames_named.mpr hn
  | generic _ _ _ _ ih => exact classNames_generic.mpr ih

theorem ClassNames.imp {p q : String → Prop} {t : Ty} (h : t.ClassNames p)
    (hpq : ∀ name, p name → q name) : t.ClassNames q :=
  fun name e => hpq name (h name e)

theorem notMem_descriptor {t : Ty} {c : Char} (hs : c ≠ '/') (hd : c ≠ '.')
    (hm : c ∉ ['[', 'L', ';']) (hk : ∀ k : Primitive, c ≠ k.tag)
    (h : t.ClassNames fun name => c ∉ name.toList) : c ∉ t.descriptor.toList := by
  simp only [List.mem_cons, List.not_mem_nil, or_false, not_or] at hm
  obtain ⟨hb, hl, ht⟩ := hm
  induction t with
  | primitive k => simpa using hk k
  | array component ih =>
      have hc : c ∉ component.descriptor.toList := ih (classNames_array.mp h)
      simp [hb, hc]
  | named name =>
      have hn : c ∉ name.toList.map slashed :=
        mt (mem_map_slashed hs hd).mp (classNames_named.mp h)
      simp only [toList_descriptor_named, List.mem_cons, List.mem_append, List.not_mem_nil]
      tauto
  | generic g _ ih => exact ih (classNames_generic.mp h)

def PlainName (name : String) : Prop := ∀ c ∈ name.toList, c ∉ ['<', '>', ';']

instance : DecidablePred PlainName := fun name =>
  List.decidableBAll (fun c => c ∉ ['<', '>', ';']) name.toList

theorem PlainName.notMem {name : String} (h : PlainName name) {c : Char}
    (hc : c ∈ ['<', '>', ';']) : c ∉ name.toList :=
  fun hm => h c hm hc

theorem PlainName.balanced {name : String} (h : PlainName name) : Balanced name.toList :=
  .of_notMem (h.notMem (by simp)) (h.notMem (by simp))

section Descriptor

variable {t : Ty}

theorem notMem_descriptor_open (h : t.ClassNames PlainName) : '<' ∉ t.descriptor.toList :=
  notMem_descriptor (by decide) (by decide) (by decide) (by rintro ⟨⟩ <;> decide)
    (h.imp fun _ hn => hn.notMem (by simp))

theorem notMem_descriptor_close (h : t.ClassNames PlainName) : '>' ∉ t.descriptor.toList :=
  notMem_descriptor (by decide) (by decide) (by decide) (by rintro ⟨⟩ <;> decide)
    (h.imp fun _ hn => hn.notMem (by simp))

theorem balanced_descriptor (h : t.ClassNames PlainName) : Balanced t.descriptor.toList :=
  .of_notMem (notMem_descriptor_open h) (notMem_descriptor_close h)

theorem unbracket_descriptor (h : t.ClassNames PlainName) :
    unbracket 0 t.descriptor.toList = some t.descriptor.toList :=
  unbracket_of_notMem (notMem_descriptor_open h) (notMem_descriptor_close h)

end Descriptor

theorem balanced_argument {b : Bound Ty} (h : Balanced b.ty.fragment) : Balanced (argument b) := by
  have hs : Balanced b.variance.sign.toList := by
    cases b.variance <;> exact .of_notMem (by decide) (by decide)
  exact hs.append h

theorem EachName.balanced_fragment {t : Ty} (h : t.EachName PlainName PlainName) :
    Balanced t.fragment := by
  induction h with
  | primitive k => exact .of_notMem (by cases k <;> decide) (by cases k <;> decide)
  | @array c hc _ => exact balanced_descriptor (t := .array c) (classNames_array.mpr hc.classNames)
  | named hn => exact balanced_descriptor (classNames_named.mpr hn)
  | @generic g hn _ _ ih _ =>
      have ha : Balanced (g.bounds.flatMap argument) :=
        .flatMap fun b m => balanced_argument (ih b m)
      have ht : Balanced [';'] := .of_notMem (by decide) (by decide)
      rw [fragment_generic]
      split_ifs
      · exact hn.balanced.append ht
      · exact hn.balanced
      · exact .char (by decide) (by decide) (hn.balanced.append ht)
      · exact ha.append ht
      · exact hn.balanced.append (.bracketed ha ht)

theorem toList_signature_of_descriptor {t : Ty} (hg : t.generic? = none)
    (h : t.ClassNames fun name => ';' ∉ name.toList) :
    t.signature.toList = t.descriptor.toList := by
  rw [toList_signature, fragment_of_generic?_eq_none hg, squeeze_descriptor h]

theorem unbracket_resolved {g : GenericUse Ty} (hn : PlainName g.name) (hr : g.resolved = true)
    (hw : g.wildcard = false) (ha : Balanced (g.bounds.flatMap argument)) :
    unbracket 0 (generic g).signature.toList = some (g.name.toList ++ [';']) := by
  have hm : ';' ∉ g.name.toList := hn.notMem (by simp)
  have ho : '<' ∉ g.name.toList := hn.notMem (by simp)
  have hx : '>' ∉ g.name.toList := hn.notMem (by simp)
  rw [toList_signature, fragment_generic]
  by_cases hb : g.bounds = []
  · rw [if_pos hb, if_pos hr, Terminator.squeeze_append_of_notMem hm, unbracket_outside ho hx]
    rfl
  · rw [if_neg hb, if_neg (by simp [hw]), Terminator.squeeze_append_of_notMem hm,
      Terminator.squeeze_bracketed, unbracket_outside ho hx, unbracket_bracketed (ha.squeeze false)]
    rfl

end Ty

theorem signature_unbrackets_to_descriptor {t : Ty}
    (ht : t.generic? = none ∨ ∃ name arguments, t = .generic (.parameterized name arguments))
    (hn : t.EachName Ty.PlainName Ty.PlainName) :
    unbracket 0 t.signature.toList = some t.descriptor.toList := by
  have hc : t.ClassNames Ty.PlainName := hn.classNames
  rcases ht with hg | ⟨name, arguments, rfl⟩
  · have hs := Ty.toList_signature_of_descriptor hg (hc.imp fun _ hp => hp.notMem (by simp))
    rw [hs, Ty.unbracket_descriptor hc]
  · cases hn with
    | generic hg hb _ =>
        have ha : Balanced (arguments.flatMap Ty.argument) :=
          .flatMap fun b m => Ty.balanced_argument (hb b m).balanced_fragment
        rw [Ty.unbracket_resolved hg rfl rfl ha]
        simp [GenericUse.parameterized]

theorem signature_unbrackets_to_descriptor_nested :
    let blank : Ty := .generic ⟨"", true, false, [], .object⟩
    let inner : Ty := .generic (.parameterized "A" [⟨.contravariant, blank⟩])
    let t : Ty := .generic (.parameterized "java.util.Map"
      [⟨.invariant, .generic (.wildcardOf ⟨.covariant, inner⟩)⟩,
        ⟨.contravariant, .array (.generic (.var "T"))⟩])
    (t.generic? = none ∨ ∃ name arguments, t = .generic (.parameterized name arguments)) ∧
    t.EachName Ty.PlainName Ty.PlainName ∧
    t.signature = "Ljava/util/Map<+LA<-;>;-[Ljava/lang/Object;>;" ∧
    unbracket 0 t.signature.toList = some "Ljava/util/Map;".toList := by
  intro blank inner t
  have hblank : blank.EachName Ty.PlainName Ty.PlainName :=
    .generic (by decide) (by simp) (.named (by decide))
  have hinner : inner.EachName Ty.PlainName Ty.PlainName :=
    .generic (by decide) (by simpa [GenericUse.parameterized] using hblank) (.named (by decide))
  have hwild : (Ty.generic (.wildcardOf ⟨.covariant, inner⟩)).EachName Ty.PlainName Ty.PlainName :=
    .generic (by decide) (by simpa [GenericUse.wildcardOf] using hinner) hinner
  have hvar : (Ty.array (.generic (.var "T"))).EachName Ty.PlainName Ty.PlainName :=
    .array (.generic (by decide) (by simp [GenericUse.var]) (.named (by decide)))
  have ht : t.EachName Ty.PlainName Ty.PlainName :=
    .generic (by decide) (by simpa [GenericUse.parameterized] using ⟨hwild, hvar⟩)
      (.named (by decide))
  have hs : t.signature = "Ljava/util/Map<+LA<-;>;-[Ljava/lang/Object;>;" := by decide +kernel
  exact ⟨.inr ⟨_, _, rfl⟩, ht, hs, signature_unbrackets_to_descriptor (.inr ⟨_, _, rfl⟩) ht⟩

end ClassfileTypes
