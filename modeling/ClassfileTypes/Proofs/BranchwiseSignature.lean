import ClassfileTypes.Proofs.SectionText

namespace ClassfileTypes

open Terminator (collapse Alike)

namespace Ty

mutual

def branchwise : Ty → String
  | .generic ⟨name, resolved, wildcard, bounds, _⟩ =>
      if bounds.isEmpty then
        if resolved then collapse (name ++ ";")
        else if wildcard then collapse name
        else collapse ("T" ++ name ++ ";")
      else if wildcard then collapse (branchwiseArguments bounds ++ ";")
      else collapse (name ++ "<" ++ branchwiseArguments bounds ++ ">;")
  | t => collapse t.descriptor

def branchwiseArguments : List (Bound Ty) → String
  | [] => ""
  | ⟨v, t⟩ :: bs => v.sign ++ branchwise t ++ branchwiseArguments bs

end

def branchwiseArgument (b : Bound Ty) : List Char :=
  b.variance.sign.toList ++ b.ty.branchwise.toList

theorem toList_branchwiseArguments (bs : List (Bound Ty)) :
    (branchwiseArguments bs).toList = bs.flatMap branchwiseArgument := by
  induction bs with
  | nil => rfl
  | cons b bs ih => simp [branchwiseArguments, branchwiseArgument, ih]

theorem collapse_branchwise (t : Ty) : collapse t.branchwise = t.branchwise := by
  cases t with
  | generic g =>
      simp only [branchwise]
      split_ifs <;> exact Terminator.collapse_collapse _
  | _ => exact Terminator.collapse_collapse _

theorem alike_argument {b : Bound Ty} (h : Alike b.ty.branchwise.toList b.ty.fragment) :
    Alike (branchwiseArgument b) (argument b) :=
  (Alike.refl _).append h

theorem alike_branchwise (t : Ty) : Alike t.branchwise.toList t.fragment := by
  induction t with
  | primitive k => exact .collapsed (.refl _)
  | array c _ => exact .collapsed (.refl _)
  | named name => exact .collapsed (.refl _)
  | generic g ih _ =>
      have ha : Alike (branchwiseArguments g.bounds).toList (g.bounds.flatMap argument) := by
        rw [toList_branchwiseArguments]
        exact Alike.flatMap fun b m => alike_argument (ih b m)
      have hc : Alike ((branchwiseArguments g.bounds).toList ++ [';'])
          (g.bounds.flatMap argument ++ [';']) := ha.append (.refl _)
      have hb : Alike
          (g.name.toList ++ '<' :: ((branchwiseArguments g.bounds).toList ++ ['>', ';']))
          (g.name.toList ++ '<' :: (g.bounds.flatMap argument ++ ['>', ';'])) :=
        (Alike.refl _).append ((Alike.refl ['<']).append (ha.append (.refl _)))
      simp only [branchwise, List.isEmpty_iff]
      rw [fragment_generic]
      split_ifs
      · exact .collapsed (by simp [Alike.refl])
      · exact .collapsed (.refl _)
      · exact .collapsed (by simp [Alike.refl])
      · exact .collapsed (by simpa using hc)
      · exact .collapsed (by simpa using hb)

theorem alike_branchwiseArguments (bs : List (Bound Ty)) :
    Alike (branchwiseArguments bs).toList (bs.flatMap argument) := by
  rw [toList_branchwiseArguments]
  exact Alike.flatMap fun b _ => alike_argument (alike_branchwise b.ty)

end Ty

def TypeParameter.branchwise (p : TypeParameter) : String :=
  let opening :=
    if p.bounds.isEmpty then ":Ljava/lang/Object;" else if p.interfacesOnly then ":" else ""
  p.name ++ opening ++ String.join (p.bounds.map fun t => ":" ++ t.branchwise)

def Scope.branchwise (s : Scope) : String :=
  if s.isEmpty then ""
  else collapse ("<" ++ String.join (s.parameters.map TypeParameter.branchwise) ++ ">")

theorem TypeParameter.alike_branchwise (p : TypeParameter) :
    Alike p.branchwise.toList p.explicit.fragment := by
  have hb : Alike (p.bounds.flatMap fun t => (":" ++ t.branchwise).toList)
      (p.bounds.flatMap boundFragment) := by
    refine Alike.flatMap fun t _ => ?_
    rw [String.toList_append]
    exact (Alike.refl [':']).append t.alike_branchwise
  by_cases hn : p.bounds = []
  · have ho : Ty.object.fragment = "Ljava/lang/Object;".toList := by decide
    rw [explicit_of_bounds_eq_nil hn]
    simp [TypeParameter.branchwise, hn, fragment, bounded, boundFragment, ho, Alike.refl]
  · rw [explicit_of_bounds_ne_nil hn]
    have ha : Alike (p.name.toList ++ ((if p.interfacesOnly then [':'] else []) ++
        p.bounds.flatMap fun t => (":" ++ t.branchwise).toList)) p.fragment :=
      (Alike.refl _).append ((Alike.refl _).append hb)
    cases hi : p.interfacesOnly <;>
      simpa [TypeParameter.branchwise, hn, hi, List.flatMap_map] using ha

theorem Scope.alike_branchwise (s : Scope) :
    Alike ("<" ++ String.join (s.parameters.map TypeParameter.branchwise) ++ ">").toList
      s.fragment := by
  have hp : Alike (s.parameters.flatMap fun p => p.branchwise.toList)
      (s.parameters.flatMap fun p => p.explicit.fragment) :=
    .flatMap fun p _ => p.alike_branchwise
  have ha : Alike ('<' :: ((s.parameters.flatMap fun p => p.branchwise.toList) ++ ['>']))
      s.fragment := (Alike.refl ['<']).append (hp.append (.refl ['>']))
  simpa [List.flatMap_map] using ha

theorem signature_collapses_branchwise :
    (∀ t : Ty, t.signature = t.branchwise) ∧
    (∀ bs : List (Bound Ty), argumentsSignature bs = collapse (Ty.branchwiseArguments bs)) ∧
    (∀ s : Scope, s.signature = s.branchwise) := by
  refine ⟨?_, ?_, ?_⟩
  · intro t
    rw [← t.collapse_branchwise]
    exact (Alike.collapse_eq t.alike_branchwise).symm
  · intro bs
    have hw : (Ty.writeArguments "" bs).toList = bs.flatMap Ty.argument := by
      simp [Ty.toList_writeArguments]
    refine (Alike.collapse_eq ?_).symm
    rw [hw]
    exact Ty.alike_branchwiseArguments bs
  · intro s
    rw [← String.toList_inj, Scope.toList_signature]
    by_cases hs : s.parameters = []
    · simp [Scope.branchwise, Scope.isEmpty, hs]
    · rw [if_neg hs, Scope.branchwise, Scope.isEmpty, if_neg (by simpa using hs),
        Terminator.toList_collapse]
      exact (s.alike_branchwise false).1.symm

end ClassfileTypes
