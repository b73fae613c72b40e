import ClassfileTypes.Proofs.ElementResolution
import ClassfileTypes.Proofs.ScopeLookup

namespace ClassfileTypes

namespace Resolver

inductive ByElement (r : Resolver) (t : Ty) : Logged Undeclared Ty → Prop
  | primitive {k : Primitive} : t.element = .primitive k → ByElement r t ⟨.ok t, []⟩
  | named {name : String} : t.element = .named name → ByElement r t ⟨.ok t, []⟩
  | resolved {g : GenericUse Ty} : t.element = .generic g → g.resolved = true →
      ByElement r t ⟨.ok t, []⟩
  | declared {g : GenericUse Ty} {depth : Nat} {p : TypeParameter} : t.element = .generic g →
      g.resolved = false → Scope.DeclaredAt r.scopes g.name depth p →
      ByElement r t ⟨.ok (p.bound.arrayOf t.dimensions), [.declared g.name depth]⟩
  | erased {g : GenericUse Ty} : t.element = .generic g → g.resolved = false →
      ¬ Scope.Declares r.scopes g.name → r.settings.undeclared = .erasure →
      ByElement r t ⟨.ok (g.erasure.arrayOf t.dimensions), [.erased g.name]⟩
  | refused {g : GenericUse Ty} : t.element = .generic g → g.resolved = false →
      ¬ Scope.Declares r.scopes g.name → r.settings.undeclared = .strict →
      ByElement r t ⟨.error ⟨g.name⟩, []⟩

namespace ByElement

variable {r : Resolver} {t : Ty} {x : Logged Undeclared Ty}

theorem eq_resolve (h : r.ByElement t x) : r.resolve t = x := by
  cases h with
  | primitive he => exact resolve_of_no_lookup (by simp [Ty.lookedUp?, he]) r
  | named he => exact resolve_of_no_lookup (by simp [Ty.lookedUp?, he]) r
  | resolved he hg => exact resolve_of_no_lookup (by simp [Ty.lookedUp?, he, hg]) r
  | declared he hg hd =>
      exact resolve_of_located (Ty.lookedUp?_eq_some_iff.mpr ⟨_, he, hg, rfl⟩)
        (Scope.locate?_of_declaredAt hd)
  | erased he hg hd hp =>
      have hl := Scope.locate?_eq_none_iff.mpr (Scope.not_declares_iff.mp hd)
      simp only [resolve_variable he hg, substitute, hl, hp]
      rfl
  | refused he hg hd hp =>
      have hl := Scope.locate?_eq_none_iff.mpr (Scope.not_declares_iff.mp hd)
      simp only [resolve_variable he hg, substitute, hl, hp]
      rfl

theorem total (r : Resolver) (t : Ty) : ∃ x, r.ByElement t x := by
  cases he : t.element with
  | primitive k => exact ⟨_, .primitive he⟩
  | array c => exact absurd he (t.element_ne_array c)
  | named name => exact ⟨_, .named he⟩
  | generic g =>
      cases hg : g.resolved with
      | true => exact ⟨_, .resolved he hg⟩
      | false =>
          by_cases hd : Scope.Declares r.scopes g.name
          · obtain ⟨depth, p, hp⟩ := Scope.declaredAt_of_declares hd
            exact ⟨_, .declared he hg hp⟩
          · cases hp : r.settings.undeclared with
            | erasure => exact ⟨_, .erased he hg hd hp⟩
            | strict => exact ⟨_, .refused he hg hd hp⟩

end ByElement

theorem byElement_iff (r : Resolver) (t : Ty) (x : Logged Undeclared Ty) :
    r.ByElement t x ↔ r.resolve t = x := by
  constructor
  · intro h
    exact h.eq_resolve
  · intro h
    obtain ⟨y, hy⟩ := ByElement.total r t
    rwa [← h, hy.eq_resolve]

theorem fails_iff (r : Resolver) (t : Ty) :
    (∃ e, (r.resolve t).result = .error e) ↔
      r.settings.undeclared = .strict ∧
        ∃ g, t.element = .generic g ∧ g.resolved = false ∧ ¬ Scope.Declares r.scopes g.name := by
  constructor
  · rintro ⟨e, h⟩
    obtain ⟨x, hx⟩ := ByElement.total r t
    rw [hx.eq_resolve] at h
    cases hx with
    | refused he hg hd hp => exact ⟨hp, _, he, hg, hd⟩
    | _ => cases h
  · rintro ⟨hp, g, he, hg, hd⟩
    exact ⟨⟨g.name⟩, congrArg Logged.result (ByElement.refused he hg hd hp).eq_resolve⟩

theorem dimensions_of_resolvesTo {r : Resolver} {t u : Ty} {g : GenericUse Ty}
    (he : t.element = .generic g) (hg : g.resolved = false) (h : r.ResolvesTo t u) :
    ∃ b : Ty, u.dimensions = t.dimensions + b.dimensions ∧
      ((∃ depth p, Scope.DeclaredAt r.scopes g.name depth p ∧ p.bound = b) ∨
        ¬ Scope.Declares r.scopes g.name ∧ g.erasure = b) := by
  have hb (b : Ty) : (b.arrayOf t.dimensions).dimensions = t.dimensions + b.dimensions := by
    rw [Ty.dimensions_arrayOf, Nat.add_comm]
  obtain ⟨x, hx⟩ := ByElement.total r t
  rw [ResolvesTo, hx.eq_resolve] at h
  cases hx with
  | primitive hk => cases he.symm.trans hk
  | named hn => cases he.symm.trans hn
  | resolved hr ht =>
      cases he.symm.trans hr
      exact absurd (hg.symm.trans ht) (by decide)
  | @declared _ depth p hr _ hd =>
      cases he.symm.trans hr
      cases h
      exact ⟨p.bound, hb p.bound, .inl ⟨depth, p, hd, rfl⟩⟩
  | erased hr _ hd _ =>
      cases he.symm.trans hr
      cases h
      exact ⟨g.erasure, hb g.erasure, .inr ⟨hd, rfl⟩⟩
  | refused => cases h

theorem resolution_looks_up_element_once :
    (∀ t : Ty, t.element.arrayOf t.dimensions = t) ∧
    (∀ (r : Resolver) (t : Ty) (x : Logged Undeclared Ty), r.ByElement t x ↔ r.resolve t = x) ∧
    (∀ (r : Resolver) (t : Ty), (∃ e, (r.resolve t).result = .error e) ↔
      r.settings.undeclared = .strict ∧
        ∃ g, t.element = .generic g ∧ g.resolved = false ∧ ¬ Scope.Declares r.scopes g.name) ∧
    ∀ (r : Resolver) (t u : Ty) (g : GenericUse Ty), t.element = .generic g →
      g.resolved = false → r.ResolvesTo t u →
      ∃ b : Ty, u.dimensions = t.dimensions + b.dimensions ∧
        ((∃ depth p, Scope.DeclaredAt r.scopes g.name depth p ∧ p.bound = b) ∨
          ¬ Scope.Declares r.scopes g.name ∧ g.erasure = b) := by
  refine ⟨Ty.arrayOf_element, byElement_iff, fails_iff, ?_⟩
  intro r t u g he hg h
  exact dimensions_of_resolvesTo he hg h

theorem resolution_looks_up_element_once_shadowed :
    let t : Ty := .array (.generic (.var "T"))
    let p : TypeParameter := .bounded "T" [.array (.named "A"), .named "B"]
    let scopes : List Scope := [⟨[.bounded "U" []]⟩, ⟨[p, .bounded "T" []]⟩, ⟨[.bounded "T" []]⟩]
    let r : Resolver := ⟨scopes, .strict⟩
    r.resolve t = ⟨.ok (.array (.array (.named "A"))), [.declared "T" 1]⟩ ∧
    (∃ e, (r.resolve (.array (.generic (.var "X")))).result = .error e) ∧
    t.element = .generic (.var "T") ∧ (GenericUse.var "T").resolved = false ∧
    r.ResolvesTo t (.array (.array (.named "A"))) ∧
    ∃ b : Ty, (Ty.array (.array (.named "A"))).dimensions = t.dimensions + b.dimensions ∧
      ((∃ depth p, Scope.DeclaredAt scopes "T" depth p ∧ p.bound = b) ∨
        ¬ Scope.Declares scopes "T" ∧ (GenericUse.var "T").erasure = b) := by
  intro t p scopes r
  obtain ⟨-, hresolve, hfails, hdimensions⟩ := resolution_looks_up_element_once
  have hd : Scope.DeclaredAt scopes "T" 1 p :=
    ⟨[⟨[.bounded "U" []]⟩], ⟨[p, .bounded "T" []]⟩, [⟨[.bounded "T" []]⟩], rfl, rfl,
      by simp [Scope.Declares, TypeParameter.bounded], rfl, [], [.bounded "T" []], rfl, by simp⟩
  have hx : ¬ Scope.Declares scopes "X" := by
    simp [Scope.Declares, scopes, p, TypeParameter.bounded]
  have hb : r.ByElement t ⟨.ok (p.bound.arrayOf t.dimensions), [.declared "T" 1]⟩ :=
    .declared (g := .var "T") rfl rfl hd
  have ht : r.resolve t = ⟨.ok (.array (.array (.named "A"))), [.declared "T" 1]⟩ :=
    (hresolve r t _).mp hb
  have hu : r.ResolvesTo t (.array (.array (.named "A"))) := congrArg Logged.result ht
  exact ⟨ht, (hfails r _).mpr ⟨rfl, .var "X", rfl, rfl, hx⟩, rfl, rfl, hu,
    hdimensions r t _ (.var "T") rfl rfl hu⟩

end Resolver

end ClassfileTypes
