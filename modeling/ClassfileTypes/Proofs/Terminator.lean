import ClassfileTypes.Signature.Terminator

namespace ClassfileTypes.Terminator

variable {α : Type}

def squeeze : Bool → List Char → List Char
  | _, [] => []
  | after, c :: cs =>
      if c = mark then (if after then squeeze true cs else c :: squeeze true cs)
      else c :: squeeze false cs

def closes : Bool → List Char → Bool
  | after, [] => after
  | _, c :: cs => closes (decide (c = mark)) cs

def close (cs : List Char) : List Char :=
  if closes false cs then cs else cs ++ [mark]

def Opens : List Char → Prop
  | [] => False
  | c :: _ => c ≠ mark

theorem endsWith_push (out : String) (c : Char) :
    (out.push c).endsWith mark = decide (c = mark) := by
  rw [String.endsWith_char_eq_getLast?, String.toList_push, List.getLast?_concat,
    Option.some_beq_some]
  rfl

theorem endsWith_empty : "".endsWith mark = false := by
  simp [String.endsWith_char_eq_getLast?]

theorem toList_collapseOnto (out : String) (cs : List Char) :
    (collapseOnto out cs).toList = out.toList ++ squeeze (out.endsWith mark) cs := by
  induction cs generalizing out with
  | nil => simp [collapseOnto, squeeze]
  | cons c cs ih =>
      by_cases hc : c = mark <;> cases ho : out.endsWith mark <;>
        simp [collapseOnto, squeeze, hc, ho, ih, endsWith_push]

theorem squeeze_of_opens {cs : List Char} (h : Opens cs) (after : Bool) :
    squeeze after cs = squeeze false cs := by
  cases cs with
  | nil => exact h.elim
  | cons c cs =>
      have hc : c ≠ mark := h
      simp only [squeeze, if_neg hc]

theorem squeeze_of_hasRun_eq_false {cs : List Char} (h : hasRun cs = false) :
    squeeze false cs = cs := by
  induction cs with
  | nil => rfl
  | cons c cs ih =>
      cases cs with
      | nil => simp [squeeze]
      | cons d cs =>
          simp only [hasRun, Bool.or_eq_false_iff, Bool.and_eq_false_iff, beq_eq_false_iff_ne] at h
          have hd : squeeze false (d :: cs) = d :: cs := ih h.2
          rw [squeeze]
          by_cases hc : c = mark
          · have ho : Opens (d :: cs) := h.1.resolve_left (not_not_intro hc)
            simp [hc, squeeze_of_opens ho, hd]
          · simp [hc, hd]

theorem toList_collapse (text : String) :
    (collapse text).toList = squeeze false text.toList := by
  unfold collapse
  split
  · simp [toList_collapseOnto, endsWith_empty]
  · next h => exact (squeeze_of_hasRun_eq_false (Bool.eq_false_iff.mpr h)).symm

theorem head?_squeeze_true (cs : List Char) : (squeeze true cs).head? ≠ some mark := by
  induction cs with
  | nil => simp [squeeze]
  | cons c cs ih =>
      by_cases hc : c = mark
      · simpa [squeeze, hc] using ih
      · simp [squeeze, hc]

theorem no_run_squeeze (after : Bool) (cs : List Char) : ¬ [mark, mark] <:+: squeeze after cs := by
  induction cs generalizing after with
  | nil => simp [squeeze]
  | cons c cs ih =>
      rw [squeeze]
      split
      · cases after with
        | true => exact ih true
        | false =>
            intro hi
            rcases List.infix_cons_iff.mp hi with hp | hi
            · obtain ⟨rest, hr⟩ := (List.cons_prefix_cons.mp hp).2
              exact head?_squeeze_true cs (by rw [← hr]; rfl)
            · exact ih true hi
      · next hc =>
          intro hi
          rcases List.infix_cons_iff.mp hi with hp | hi
          · exact hc (List.cons_prefix_cons.mp hp).1.symm
          · exact ih false hi

theorem squeeze_append (after : Bool) (xs ys : List Char) :
    squeeze after (xs ++ ys) = squeeze after xs ++ squeeze (closes after xs) ys := by
  induction xs generalizing after with
  | nil => rfl
  | cons c xs ih =>
      by_cases hc : c = mark <;> cases after <;> simp [squeeze, closes, hc, ih]

theorem closes_squeeze (after : Bool) (cs : List Char) :
    closes after (squeeze after cs) = closes after cs := by
  induction cs generalizing after with
  | nil => rfl
  | cons c cs ih =>
      by_cases hc : c = mark <;> cases after <;> simp [squeeze, closes, hc, ih]

theorem closes_append (after : Bool) (xs ys : List Char) :
    closes after (xs ++ ys) = closes (closes after xs) ys := by
  induction xs generalizing after with
  | nil => rfl
  | cons c xs ih => exact ih _

theorem closes_concat_mark (after : Bool) (cs : List Char) :
    closes after (cs ++ [mark]) = true := by
  rw [closes_append]
  rfl

theorem squeeze_of_notMem {cs : List Char} (h : mark ∉ cs) : squeeze false cs = cs := by
  induction cs with
  | nil => rfl
  | cons c cs ih =>
      obtain ⟨hc, hcs⟩ := not_or.mp (mt List.mem_cons.mpr h)
      rw [squeeze, if_neg (Ne.symm hc), ih hcs]

theorem closes_of_notMem {cs : List Char} (h : mark ∉ cs) : closes false cs = false := by
  induction cs with
  | nil => rfl
  | cons c cs ih =>
      obtain ⟨hc, hcs⟩ := not_or.mp (mt List.mem_cons.mpr h)
      rw [closes, decide_eq_false (Ne.symm hc), ih hcs]

theorem squeeze_concat_mark (cs : List Char) :
    squeeze false (cs ++ [mark]) = close (squeeze false cs) := by
  rw [squeeze_append, close, closes_squeeze]
  cases closes false cs <;> simp [squeeze]

theorem squeeze_append_of_notMem {cs : List Char} (h : mark ∉ cs) (rest : List Char) :
    squeeze false (cs ++ rest) = cs ++ squeeze false rest := by
  rw [squeeze_append, squeeze_of_notMem h, closes_of_notMem h]

theorem squeeze_concat_of_notMem {cs : List Char} (h : mark ∉ cs) :
    squeeze false (cs ++ [mark]) = cs ++ [mark] :=
  squeeze_append_of_notMem h [mark]

theorem squeeze_bracketed (after : Bool) (inside rest : List Char) :
    squeeze after ('<' :: (inside ++ '>' :: rest)) =
      '<' :: (squeeze false inside ++ '>' :: squeeze false rest) := by
  simp [squeeze, squeeze_append, mark]

theorem Opens.append {xs : List Char} (h : Opens xs) (ys : List Char) : Opens (xs ++ ys) := by
  cases xs with
  | nil => exact h.elim
  | cons c xs => exact h

theorem Opens.squeeze {cs : List Char} (h : Opens cs) (after : Bool) :
    Opens (squeeze after cs) := by
  cases cs with
  | nil => exact h.elim
  | cons c cs =>
      have hc : c ≠ mark := h
      rw [Terminator.squeeze, if_neg hc]
      exact hc

theorem Opens.ne_nil {cs : List Char} (h : Opens cs) : cs ≠ [] := by
  rintro rfl
  exact h

theorem Opens.head?_ne {cs : List Char} (h : Opens cs) : cs.head? ≠ some mark := by
  cases cs with
  | nil => exact h.elim
  | cons c cs =>
      have hc : c ≠ mark := h
      simpa using hc

theorem opens_flatMap {f : α → List Char} {as : List α} (hne : as ≠ [])
    (h : ∀ a ∈ as, Opens (f a)) : Opens (as.flatMap f) := by
  cases as with
  | nil => exact absurd rfl hne
  | cons a as => exact (h a (List.mem_cons_self ..)).append _

theorem squeeze_flatMap {f : α → List Char} {as : List α} (h : ∀ a ∈ as, Opens (f a)) :
    squeeze false (as.flatMap f) = as.flatMap fun a => squeeze false (f a) := by
  induction as with
  | nil => rfl
  | cons a as ih =>
      have has : ∀ b ∈ as, Opens (f b) := fun b hb => h b (List.mem_cons_of_mem _ hb)
      rw [List.flatMap_cons, List.flatMap_cons, squeeze_append, ← ih has]
      by_cases hne : as = []
      · simp [hne, squeeze]
      · rw [squeeze_of_opens (opens_flatMap hne has)]

theorem squeeze_squeeze (before after : Bool) (cs : List Char) :
    squeeze before (squeeze after cs) = squeeze (before || after) cs := by
  induction cs generalizing before after with
  | nil => rfl
  | cons c cs ih =>
      by_cases hc : c = mark <;> cases before <;> cases after <;> simp [squeeze, hc, ih]

theorem closes_squeeze_false (after : Bool) (cs : List Char) :
    closes after (squeeze false cs) = closes after cs := by
  cases cs with
  | nil => rfl
  | cons c cs =>
      have hs : squeeze false (c :: cs) = c :: squeeze (decide (c = mark)) cs := by
        by_cases hc : c = mark <;> simp [squeeze, hc]
      rw [hs, closes, closes, closes_squeeze]

theorem collapse_collapse (text : String) : collapse (collapse text) = collapse text := by
  rw [← String.toList_inj, toList_collapse, toList_collapse, squeeze_squeeze]
  rfl

def Alike (xs ys : List Char) : Prop :=
  ∀ after, squeeze after xs = squeeze after ys ∧ closes after xs = closes after ys

namespace Alike

variable {ws xs ys zs : List Char}

theorem refl (xs : List Char) : Alike xs xs := fun _ => ⟨rfl, rfl⟩

theorem trans (h : Alike xs ys) (k : Alike ys zs) : Alike xs zs :=
  fun after => ⟨(h after).1.trans (k after).1, (h after).2.trans (k after).2⟩

theorem append (h : Alike ws xs) (k : Alike ys zs) : Alike (ws ++ ys) (xs ++ zs) := by
  intro after
  obtain ⟨hs, hc⟩ := h after
  obtain ⟨ks, kc⟩ := k (closes after xs)
  constructor
  · rw [squeeze_append, squeeze_append, hs, hc, ks]
  · rw [closes_append, closes_append, hc, kc]

theorem flatMap {f g : α → List Char} {as : List α} (h : ∀ a ∈ as, Alike (f a) (g a)) :
    Alike (as.flatMap f) (as.flatMap g) := by
  induction as with
  | nil => exact refl []
  | cons a as ih =>
      have ha : Alike (f a) (g a) := h a (List.mem_cons_self ..)
      exact ha.append (ih fun b hb => h b (List.mem_cons_of_mem _ hb))

theorem squeezed (cs : List Char) : Alike (squeeze false cs) cs := by
  intro after
  exact ⟨by rw [squeeze_squeeze, Bool.or_false], closes_squeeze_false after cs⟩

theorem collapsed {text : String} (h : Alike text.toList xs) : Alike (collapse text).toList xs := by
  rw [toList_collapse]
  exact (squeezed text.toList).trans h

theorem collapse_eq {s t : String} (h : Alike s.toList t.toList) : collapse s = collapse t := by
  rw [← String.toList_inj, toList_collapse, toList_collapse]
  exact (h false).1

end Alike

end ClassfileTypes.Terminator
