import ClassfileTypes.Proofs.Inference

namespace ClassfileTypes

def Ty.lookedUp? (t : Ty) : Option String :=
  match t.element with
  | .generic g => if g.resolved then none else some g.name
  | _ => none

theorem Ty.lookedUp?_eq_some_iff {t : Ty} {name : String} :
    t.lookedUp? = some name ↔ ∃ g, t.element = .generic g ∧ g.resolved = false ∧ g.name = name := by
  unfold lookedUp?
  cases he : t.element with
  | generic g => cases hr : g.resolved <;> simp [hr]
  | _ => simp

namespace Resolver

theorem resolve_element (r : Resolver) (t : Ty) :
    r.resolve t = (fun u => u.arrayOf t.dimensions) <$> r.resolve t.element := by
  induction t with
  | array c ih =>
      have he : (Ty.array c).element = c.element := rfl
      rw [resolve, ih, he, Functor.map_map]
      simp only [Ty.dimensions, Ty.arrayOf_succ]
  | _ => exact (id_map _).symm

theorem resolve_variable {r : Resolver} {t : Ty} {g : GenericUse Ty} (ht : t.element = .generic g)
    (hg : g.resolved = false) :
    r.resolve t = (fun u => u.arrayOf t.dimensions) <$> r.substitute g := by
  rw [resolve_element, ht, resolve_of_variable r hg]

theorem resolve_of_located {r : Resolver} {t u : Ty} {name : String} {depth : Nat}
    (ht : t.lookedUp? = some name) (h : Scope.locate? name r.scopes = some (depth, u)) :
    r.resolve t = ⟨.ok (u.arrayOf t.dimensions), [.declared name depth]⟩ := by
  obtain ⟨g, hg, hr, rfl⟩ := Ty.lookedUp?_eq_some_iff.mp ht
  rw [resolve_variable hg hr, substitute, h, Logged.map_eq]
  rfl

theorem resolve_of_no_lookup {t : Ty} (ht : t.lookedUp? = none) (r : Resolver) :
    r.resolve t = ⟨.ok t, []⟩ := by
  have he : r.resolve t.element = pure t.element := by
    unfold Ty.lookedUp? at ht
    cases hc : t.element with
    | primitive k => rfl
    | array c => exact absurd hc (t.element_ne_array c)
    | named n => rfl
    | generic g =>
        have hr : g.resolved = true := by simpa [hc] using ht
        exact resolve_of_resolved r hr
  rw [resolve_element, he, map_pure, Ty.arrayOf_element]
  rfl

end Resolver

end ClassfileTypes
