import Mathlib.Data.List.Basic
import ClassfileTypes.Proofs.Erasure
import ClassfileTypes.Proofs.Terminator
import ClassfileTypes.Signature.Basic

namespace ClassfileTypes

namespace Ty

def fragment (t : Ty) : List Char := (writeFragment "" t).toList

def argument (b : Bound Ty) : List Char := b.variance.sign.toList ++ b.ty.fragment

theorem toList_signature (t : Ty) : t.signature.toList = Terminator.squeeze false t.fragment :=
  Terminator.toList_collapse _

theorem fragment_of_generic?_eq_none {t : Ty} (h : t.generic? = none) :
    t.fragment = t.descriptor.toList := by
  cases t with
  | generic g => cases h
  | _ => rfl

theorem toList_writeArguments_of {bs : List (Bound Ty)}
    (ih : ∀ b ∈ bs, ∀ out, (writeFragment out b.ty).toList = out.toList ++ b.ty.fragment)
    (out : String) :
    (writeArguments out bs).toList = out.toList ++ bs.flatMap argument := by
  induction bs generalizing out with
  | nil => simp [writeArguments]
  | cons b bs step =>
      have hb := ih b (List.mem_cons_self ..) (out ++ b.variance.sign)
      have hbs := step (fun c hc => ih c (List.mem_cons_of_mem _ hc))
      simp only [writeArguments]
      rw [hbs, hb]
      simp [argument]

theorem toList_writeFragment (out : String) (t : Ty) :
    (writeFragment out t).toList = out.toList ++ t.fragment := by
  induction t generalizing out with
  | primitive k => simp [fragment, writeFragment, writeDescriptor]
  | array c _ =>
      simp only [fragment, writeFragment]
      rw [writeDescriptor_eq, writeDescriptor_eq ""]
      simp
  | named name => simp [fragment, writeFragment, writeDescriptor]
  | generic g ihb _ =>
      have ha (out : String) := toList_writeArguments_of (fun b hb out => ihb b hb out) out
      simp only [fragment, writeFragment]
      split_ifs <;> simp [ha]

theorem toList_writeArguments (out : String) (bs : List (Bound Ty)) :
    (writeArguments out bs).toList = out.toList ++ bs.flatMap argument :=
  toList_writeArguments_of (fun b _ out => toList_writeFragment out b.ty) out

theorem fragment_generic (g : GenericUse Ty) :
    (generic g).fragment =
      if g.bounds = [] then
        if g.resolved then g.name.toList ++ [';']
        else if g.wildcard then g.name.toList
        else 'T' :: (g.name.toList ++ [';'])
      else if g.wildcard then g.bounds.flatMap argument ++ [';']
      else g.name.toList ++ '<' :: (g.bounds.flatMap argument ++ ['>', ';']) := by
  simp only [fragment, writeFragment, List.isEmpty_iff]
  split_ifs <;> simp [toList_writeArguments]

mutual

def tidy : Ty → List Char
  | .generic ⟨name, resolved, wildcard, bounds, _⟩ =>
      if bounds.isEmpty then
        if resolved then name.toList ++ [';']
        else if wildcard then name.toList
        else 'T' :: (name.toList ++ [';'])
      else if wildcard then Terminator.close (tidyArguments bounds)
      else name.toList ++ '<' :: (tidyArguments bounds ++ ['>', ';'])
  | t => t.descriptor.toList

def tidyArguments : List (Bound Ty) → List Char
  | [] => []
  | ⟨v, t⟩ :: bs => v.sign.toList ++ tidy t ++ tidyArguments bs

end

def tidyArgument (b : Bound Ty) : List Char := b.variance.sign.toList ++ b.ty.tidy

theorem tidyArguments_eq (bs : List (Bound Ty)) : tidyArguments bs = bs.flatMap tidyArgument := by
  induction bs with
  | nil => rfl
  | cons b bs ih => simp [tidyArguments, tidyArgument, ih]

theorem tidy_generic (g : GenericUse Ty) :
    (generic g).tidy =
      if g.bounds = [] then
        if g.resolved then g.name.toList ++ [';']
        else if g.wildcard then g.name.toList
        else 'T' :: (g.name.toList ++ [';'])
      else if g.wildcard then Terminator.close (g.bounds.flatMap tidyArgument)
      else g.name.toList ++ '<' :: (g.bounds.flatMap tidyArgument ++ ['>', ';']) := by
  simp only [tidy, List.isEmpty_iff, tidyArguments_eq]

theorem tidy_arrayOf {t : Ty} (h : t.tidy = t.descriptor.toList) (n : Nat) :
    (t.arrayOf n).tidy = List.replicate n '[' ++ t.descriptor.toList := by
  cases n with
  | zero => exact h
  | succ n =>
      rw [← toList_descriptor_arrayOf, arrayOf_succ]
      rfl

section Shapes

variable {g : GenericUse Ty}

theorem tidy_variable (hb : g.bounds = []) (hr : g.resolved = false) (hw : g.wildcard = false) :
    (generic g).tidy = 'T' :: (g.name.toList ++ [';']) := by
  simp [tidy_generic, hb, hr, hw]

theorem tidy_unbounded (hb : g.bounds = []) (hr : g.resolved = false) (hw : g.wildcard = true) :
    (generic g).tidy = g.name.toList := by
  simp [tidy_generic, hb, hr, hw]

theorem tidy_wildcard (hb : g.bounds ≠ []) (hw : g.wildcard = true) :
    (generic g).tidy = Terminator.close (g.bounds.flatMap tidyArgument) := by
  simp [tidy_generic, hb, hw]

theorem tidyArgument_wildcardOf (b : Bound Ty) :
    tidyArgument ⟨.invariant, .generic (.wildcardOf b)⟩ = Terminator.close (tidyArgument b) := by
  change (generic (.wildcardOf b)).tidy = _
  rw [tidy_wildcard (List.cons_ne_nil _ _) rfl]
  simp [GenericUse.wildcardOf]

theorem tidy_applied (hb : g.bounds ≠ []) (hw : g.wildcard = false) :
    (generic g).tidy = g.name.toList ++ '<' :: (g.bounds.flatMap tidyArgument ++ ['>', ';']) := by
  simp [tidy_generic, hb, hw]

end Shapes

inductive Signable : Ty → Prop
  | primitive (k : Primitive) : Signable (.primitive k)
  | array {c : Ty} : c.ClassNames (fun name => ';' ∉ name.toList) → Signable (.array c)
  | named {name : String} : ';' ∉ name.toList → Signable (.named name)
  | generic {g : GenericUse Ty} : ';' ∉ g.name.toList →
      (g.bounds = [] → g.resolved ∨ g.wildcard → g.name ≠ "") →
      (∀ b ∈ g.bounds, Signable b.ty) → Signable (.generic g)

theorem squeeze_descriptor {t : Ty} (h : t.ClassNames fun name => ';' ∉ name.toList) :
    Terminator.squeeze false t.descriptor.toList = t.descriptor.toList := by
  induction t with
  | primitive k => cases k <;> rfl
  | array c ih => simpa [Terminator.squeeze, Terminator.mark] using ih (classNames_array.mp h)
  | named name =>
      have hn : ';' ∉ name.toList.map slashed :=
        mt (mem_map_slashed (by decide) (by decide)).mp (classNames_named.mp h)
      rw [toList_descriptor_named, ← List.cons_append]
      exact Terminator.squeeze_concat_of_notMem (by simpa [Terminator.mark] using hn)
  | generic g _ ih => exact ih (classNames_generic.mp h)

theorem opens_descriptor (t : Ty) : Terminator.Opens t.descriptor.toList := by
  induction t with
  | primitive k => cases k <;> simp [Terminator.Opens, Terminator.mark, Primitive.tag]
  | array c _ => simp [Terminator.Opens, Terminator.mark]
  | named name => simp [Terminator.Opens, Terminator.mark]
  | generic g _ ih => exact ih

theorem opens_argument {b : Bound Ty} (h : Terminator.Opens b.ty.fragment) :
    Terminator.Opens (argument b) := by
  obtain ⟨v, t⟩ := b
  cases v with
  | invariant => exact h
  | covariant => simp [argument, Variance.sign, Terminator.Opens, Terminator.mark]
  | contravariant => simp [argument, Variance.sign, Terminator.Opens, Terminator.mark]

theorem squeeze_argument {b : Bound Ty}
    (h : Terminator.squeeze false b.ty.fragment = b.ty.tidy) :
    Terminator.squeeze false (argument b) = tidyArgument b := by
  obtain ⟨v, t⟩ := b
  cases v <;> simpa [argument, tidyArgument, Variance.sign, Terminator.squeeze, Terminator.mark]
    using h

theorem opens_name_append {cs : List Char} (h : ';' ∉ cs) {c : Char} (hc : c ≠ ';')
    (rest : List Char) : Terminator.Opens (cs ++ c :: rest) := by
  cases cs with
  | nil => exact hc
  | cons d cs =>
      have hd : d ≠ ';' := fun e => h (e ▸ List.mem_cons_self ..)
      exact hd

theorem opens_name {name : String} (h : ';' ∉ name.toList) (hne : name ≠ "") :
    Terminator.Opens name.toList := by
  cases hn : name.toList with
  | nil => exact absurd (String.toList_inj.mp (by simpa using hn)) hne
  | cons c cs =>
      have hc : c ≠ ';' := fun e => h (by simp [hn, e])
      exact hc

theorem Signable.opens_fragment {t : Ty} (h : t.Signable) : Terminator.Opens t.fragment := by
  induction h with
  | primitive k => exact opens_descriptor (.primitive k)
  | @array c _ => exact opens_descriptor (.array c)
  | @named name _ => exact opens_descriptor (.named name)
  | @generic g hm hne _ ih =>
      rw [fragment_generic]
      split_ifs with hb hr hw hw
      · exact (opens_name hm (hne hb (.inl hr))).append _
      · exact opens_name hm (hne hb (.inr hw))
      · simp [Terminator.Opens, Terminator.mark]
      · exact (Terminator.opens_flatMap hb fun b m => opens_argument (ih b m)).append _
      · exact opens_name_append hm (by decide) _

theorem Signable.squeeze_fragment {t : Ty} (h : t.Signable) :
    Terminator.squeeze false t.fragment = t.tidy := by
  induction h with
  | primitive k => cases k <;> rfl
  | @array c hc => exact squeeze_descriptor (t := .array c) hc
  | @named name hn => exact squeeze_descriptor (t := .named name) (classNames_named.mpr hn)
  | @generic g hm hne hs ih =>
      have ha : Terminator.squeeze false (g.bounds.flatMap argument) =
          g.bounds.flatMap tidyArgument := by
        rw [Terminator.squeeze_flatMap fun b m => opens_argument (hs b m).opens_fragment]
        exact List.flatMap_congr fun b m => squeeze_argument (ih b m)
      rw [fragment_generic, tidy_generic]
      split_ifs with hb hr hw hw
      · exact Terminator.squeeze_concat_of_notMem hm
      · exact Terminator.squeeze_of_notMem hm
      · rw [← List.cons_append]
        exact Terminator.squeeze_concat_of_notMem (by simpa [Terminator.mark] using hm)
      · exact (Terminator.squeeze_concat_mark _).trans (congrArg _ ha)
      · rw [Terminator.squeeze_append_of_notMem hm, Terminator.squeeze_bracketed, ha]
        rfl

theorem Signable.toList_signature {t : Ty} (h : t.Signable) : t.signature.toList = t.tidy :=
  t.toList_signature.trans h.squeeze_fragment

end Ty

theorem toList_argumentsSignature {bs : List (Bound Ty)} (h : ∀ b ∈ bs, b.ty.Signable) :
    (argumentsSignature bs).toList = bs.flatMap Ty.tidyArgument := by
  have ho : ∀ b ∈ bs, Terminator.Opens (Ty.argument b) :=
    fun b m => Ty.opens_argument (h b m).opens_fragment
  rw [argumentsSignature, Terminator.toList_collapse, Ty.toList_writeArguments]
  simp only [String.toList_empty, List.nil_append]
  rw [Terminator.squeeze_flatMap ho]
  exact List.flatMap_congr fun b m => Ty.squeeze_argument (h b m).squeeze_fragment

end ClassfileTypes
