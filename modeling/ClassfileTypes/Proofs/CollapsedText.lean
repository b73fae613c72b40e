import ClassfileTypes.Proofs.Terminator
import Mathlib.Data.List.Basic
import Mathlib.Data.List.Induction
import Mathlib.Logic.Relation

namespace ClassfileTypes.Terminator

def Repeats (cs : List Char) : Nat → Prop
  | 0 => False
  | i + 1 => cs[i]? = some mark ∧ cs[i + 1]? = some mark

instance (cs : List Char) : (i : Nat) → Decidable (Repeats cs i)
  | 0 => inferInstanceAs (Decidable False)
  | i + 1 => inferInstanceAs (Decidable (cs[i]? = some mark ∧ cs[i + 1]? = some mark))

def withoutRepeats (cs : List Char) : List Char :=
  (List.range cs.length).filterMap fun i => if Repeats cs i then none else cs[i]?

inductive Merges : List Char → List Char → Prop
  | pair (before after : List Char) :
      Merges (before ++ mark :: mark :: after) (before ++ mark :: after)

theorem closes_iff {cs : List Char} : closes false cs = true ↔ cs.getLast? = some mark := by
  rcases List.eq_nil_or_concat cs with rfl | ⟨ds, c, rfl⟩
  · simp [closes]
  · simp [closes_append, closes]

theorem repeats_append {cs ds : List Char} {i : Nat} (h : i < cs.length) :
    Repeats (cs ++ ds) i ↔ Repeats cs i := by
  cases i with
  | zero => rfl
  | succ i =>
      have hi : i < cs.length := Nat.lt_of_succ_lt h
      rw [Repeats, Repeats, List.getElem?_append_left h, List.getElem?_append_left hi]

theorem repeats_concat {cs : List Char} {c : Char} :
    Repeats (cs ++ [c]) cs.length ↔ c = mark ∧ closes false cs = true := by
  rcases List.eq_nil_or_concat cs with rfl | ⟨ds, d, rfl⟩
  · simp [Repeats, closes]
  · rw [closes_iff, List.concat_eq_append, List.length_append, List.length_singleton, Repeats]
    simp [and_comm]

theorem withoutRepeats_concat (cs : List Char) (c : Char) :
    withoutRepeats (cs ++ [c]) = withoutRepeats cs ++ squeeze (closes false cs) [c] := by
  have hfront : ((List.range cs.length).filterMap fun i =>
      if Repeats (cs ++ [c]) i then none else (cs ++ [c])[i]?) = withoutRepeats cs := by
    refine List.filterMap_congr fun i hi => ?_
    have hl : i < cs.length := List.mem_range.mp hi
    rw [List.getElem?_append_left hl]
    simp only [repeats_append hl]
  have hlast : ([cs.length].filterMap fun i =>
      if Repeats (cs ++ [c]) i then none else (cs ++ [c])[i]?) = squeeze (closes false cs) [c] := by
    by_cases hc : c = mark <;> cases hk : closes false cs <;>
      simp [repeats_concat, squeeze, hc, hk]
  rw [withoutRepeats, List.length_append, List.length_singleton, List.range_succ,
    List.filterMap_append, hfront, hlast]

theorem squeeze_eq_withoutRepeats (cs : List Char) : squeeze false cs = withoutRepeats cs := by
  induction cs using List.reverseRecOn with
  | nil => rfl
  | append_singleton cs c ih => rw [squeeze_append, ih, withoutRepeats_concat]

theorem hasRun_iff {cs : List Char} : hasRun cs = true ↔ [mark, mark] <:+: cs := by
  induction cs with
  | nil => simp [hasRun]
  | cons c cs ih =>
      cases cs with
      | nil => simp [hasRun, List.infix_cons_iff]
      | cons d cs =>
          have hp : [mark, mark] <+: c :: d :: cs ↔ c = mark ∧ d = mark := by
            simp [List.cons_prefix_cons, eq_comm]
          have hi : [mark, mark] <:+: c :: d :: cs ↔
              (c = mark ∧ d = mark) ∨ [mark, mark] <:+: d :: cs := by
            rw [List.infix_cons_iff, hp]
          rw [hasRun, Bool.or_eq_true, ih, hi]
          simp

theorem squeeze_of_no_run {cs : List Char} (h : ¬ [mark, mark] <:+: cs) : squeeze false cs = cs :=
  squeeze_of_hasRun_eq_false (Bool.eq_false_iff.mpr (mt hasRun_iff.mp h))

theorem squeeze_of_head?_ne {cs : List Char} (h : cs.head? ≠ some mark) (after : Bool) :
    squeeze after cs = squeeze false cs := by
  cases cs with
  | nil => rfl
  | cons c cs =>
      have ho : Opens (c :: cs) := mt (congrArg some) h
      exact squeeze_of_opens ho after

theorem alike_run (n : Nat) : Alike (List.replicate (n + 1) mark) [mark] := by
  induction n with
  | zero => exact .refl _
  | succ n ih =>
      have hp : Alike [mark, mark] [mark] := by
        intro after
        cases after <;> exact ⟨rfl, rfl⟩
      exact ((Alike.refl [mark]).append ih).trans hp

theorem squeeze_run {cs ds : List Char} (hc : cs.getLast? ≠ some mark) (hd : ds.head? ≠ some mark)
    (n : Nat) :
    squeeze false (cs ++ List.replicate (n + 1) mark ++ ds) =
      squeeze false cs ++ mark :: squeeze false ds := by
  have hr : Alike (cs ++ List.replicate (n + 1) mark ++ ds) (cs ++ [mark] ++ ds) :=
    ((Alike.refl cs).append (alike_run n)).append (.refl ds)
  have hk : closes false cs = false := Bool.eq_false_iff.mpr (mt closes_iff.mp hc)
  rw [(hr false).1, squeeze_append, squeeze_append, closes_append, hk]
  simp [squeeze, closes, squeeze_of_head?_ne hd]

namespace Merges

variable {xs ys : List Char}

theorem cons (c : Char) (h : Merges xs ys) : Merges (c :: xs) (c :: ys) := by
  cases h with
  | pair before after => exact .pair (c :: before) after

theorem alike (h : Merges xs ys) : Alike xs ys := by
  cases h with
  | pair before after =>
      exact (Alike.refl before).append ((alike_run 1).append (.refl after))

end Merges

theorem merges_cons (c : Char) {xs ys : List Char} (h : Relation.ReflTransGen Merges xs ys) :
    Relation.ReflTransGen Merges (c :: xs) (c :: ys) :=
  h.lift (c :: ·) fun _ _ => Merges.cons c

theorem alike_of_merges {xs ys : List Char} (h : Relation.ReflTransGen Merges xs ys) :
    Alike xs ys := by
  induction h with
  | refl => exact .refl _
  | tail _ hstep ih => exact ih.trans hstep.alike

theorem merges_squeeze (cs : List Char) :
    Relation.ReflTransGen Merges cs (squeeze false cs) ∧
      Relation.ReflTransGen Merges (mark :: cs) (mark :: squeeze true cs) := by
  -- what follows a terminator merges into it, so both walks are needed at once
  induction cs with
  | nil => exact ⟨.refl, .refl⟩
  | cons c cs ih =>
      by_cases hc : c = mark
      · subst hc
        exact ⟨ih.2, .head (.pair [] cs) ih.2⟩
      · have hs (after : Bool) : squeeze after (c :: cs) = c :: squeeze false cs := if_neg hc
        rw [hs, hs]
        exact ⟨merges_cons c ih.1, merges_cons mark (merges_cons c ih.1)⟩

theorem merges_to_normal_iff {cs ds : List Char} :
    Relation.ReflTransGen Merges cs ds ∧ ¬ [mark, mark] <:+: ds ↔ ds = squeeze false cs := by
  constructor
  · rintro ⟨hm, hn⟩
    rw [(alike_of_merges hm false).1, squeeze_of_no_run hn]
  · rintro rfl
    exact ⟨(merges_squeeze cs).1, no_run_squeeze false cs⟩

theorem collapseOnto_empty (text : String) : collapseOnto "" text.toList = collapse text := by
  rw [← String.toList_inj, toList_collapse, toList_collapseOnto, endsWith_empty]
  simp

theorem collapse_collapse_append (s t : String) :
    collapse (collapse s ++ collapse t) = collapse (s ++ t) := by
  have hs : Alike (collapse s).toList s.toList := .collapsed (.refl _)
  have ht : Alike (collapse t).toList t.toList := .collapsed (.refl _)
  have hst : Alike (collapse s ++ collapse t).toList (s ++ t).toList := by
    rw [String.toList_append, String.toList_append]
    exact hs.append ht
  exact hst.collapse_eq

theorem collapse_eq_self_iff {s : String} : collapse s = s ↔ ¬ [mark, mark] <:+: s.toList := by
  constructor
  · intro h
    rw [← h, toList_collapse]
    exact no_run_squeeze false s.toList
  · intro h
    rw [← String.toList_inj, toList_collapse, squeeze_of_no_run h]

theorem collapsed_text_is_normal_form :
    (∀ s : String, (collapse s).toList = withoutRepeats s.toList) ∧
    (∀ (s t : String) (n : Nat), s.toList.getLast? ≠ some ';' → t.toList.head? ≠ some ';' →
      collapse (s ++ String.ofList (List.replicate (n + 1) ';') ++ t) =
        collapse s ++ ";" ++ collapse t) ∧
    (∀ s : String, ¬ [';', ';'] <:+: (collapse s).toList) ∧
    (∀ s : String, collapseOnto "" s.toList = collapse s ∧
      (hasRun s.toList = true ↔ [';', ';'] <:+: s.toList) ∧
      (collapse s = s ↔ ¬ [';', ';'] <:+: s.toList)) ∧
    (∀ s : String, collapse (collapse s) = collapse s) ∧
    (∀ s t : String, collapse (s ++ t) = collapse (collapse s ++ collapse t)) ∧
    ∀ (s : String) (cs : List Char),
      Relation.ReflTransGen Merges s.toList cs ∧ ¬ [';', ';'] <:+: cs ↔
        cs = (collapse s).toList := by
  refine ⟨?_, ?_, ?_, ?_, collapse_collapse, ?_, ?_⟩
  · intro s
    rw [toList_collapse, squeeze_eq_withoutRepeats]
  · intro s t n hs ht
    have hr := squeeze_run hs ht n
    rw [← String.toList_inj]
    simpa [toList_collapse, mark] using hr
  · intro s
    rw [toList_collapse]
    exact no_run_squeeze false s.toList
  · intro s
    exact ⟨collapseOnto_empty s, hasRun_iff, collapse_eq_self_iff⟩
  · intro s t
    exact (collapse_collapse_append s t).symm
  · intro s cs
    rw [toList_collapse]
    exact merges_to_normal_iff

theorem collapsed_text_is_normal_form_one_run :
    let s := "+La"
    let t := ">;;b"
    s.toList.getLast? ≠ some ';' ∧ t.toList.head? ≠ some ';' ∧
    collapse (s ++ String.ofList (List.replicate 3 ';') ++ t) = collapse s ++ ";" ++ collapse t ∧
    collapse s ++ ";" ++ collapse t = "+La;>;b" := by
  intro s t
  have hs : s.toList.getLast? ≠ some ';' := by decide
  have ht : t.toList.head? ≠ some ';' := by decide
  exact ⟨hs, ht, collapsed_text_is_normal_form.2.1 s t 2 hs ht, by decide +kernel⟩

end ClassfileTypes.Terminator
