import ClassfileTypes.Proofs.Substitution

namespace ClassfileTypes

namespace Ty

def heads : Ty → List String
  | .array c => c.heads
  | .generic ⟨name, resolved, _, _, e⟩ => if resolved then [] else name :: e.heads
  | _ => []

theorem heads_resolved {g : GenericUse Ty} (hg : g.resolved = true) : (generic g).heads = [] :=
  if_pos hg

theorem heads_variable {g : GenericUse Ty} (hg : g.resolved = false) :
    (generic g).heads = g.name :: g.erasure.heads := by
  rw [heads, hg]
  rfl

inductive Settled : Ty → Prop
  | primitive (k : Primitive) : Settled (.primitive k)
  | array {c : Ty} : Settled c → Settled (.array c)
  | named (name : String) : Settled (.named name)
  | resolved {g : GenericUse Ty} : g.resolved = true → Settled (.generic g)

theorem Settled.lookedUp?_eq_none {t : Ty} (h : t.Settled) : t.lookedUp? = none := by
  induction h with
  | primitive k => rfl
  | array _ ih => exact ih
  | named name => rfl
  | resolved hg => simp [lookedUp?, element, hg]

theorem settled_of_heads_eq_nil {t : Ty} (h : t.heads = []) : t.Settled := by
  induction t with
  | primitive k => exact .primitive k
  | array c ih => exact .array (ih h)
  | named name => exact .named name
  | generic g _ _ =>
      cases hg : g.resolved with
      | true => exact .resolved hg
      | false =>
          rw [heads_variable hg] at h
          cases h

end Ty

def Scope.Ranked (rank : String → Nat) (scopes : List Scope) : Prop :=
  ∀ name p, declared? name scopes = some p → ∀ head ∈ p.bound.heads, rank head < rank name

namespace Resolver

def iterate (r : Resolver) : Nat → Ty → Logged Undeclared Ty
  | 0, t => pure t
  | n + 1, t => r.resolve t >>= r.iterate n

theorem iterate_succ (r : Resolver) (n : Nat) (t : Ty) :
    r.iterate (n + 1) t = r.iterate n t >>= r.resolve := by
  induction n generalizing t with
  | zero => simp [iterate]
  | succ n ih =>
      have hn : r.iterate (n + 1) = fun u => r.iterate n u >>= r.resolve := funext ih
      calc r.iterate (n + 2) t = r.resolve t >>= r.iterate (n + 1) := rfl
        _ = r.resolve t >>= fun u => r.iterate n u >>= r.resolve := congrArg _ hn
        _ = r.iterate (n + 1) t >>= r.resolve := (bind_assoc _ _ _).symm

theorem iterate_array (r : Resolver) (n : Nat) (c : Ty) :
    r.iterate n (.array c) = Ty.array <$> r.iterate n c := by
  induction n generalizing c with
  | zero => rfl
  | succ n ih => simp only [iterate, resolve, bind_map_left, ih, map_bind]

theorem exists_iterate {r : Resolver} (h : r.settings.undeclared = .erasure) (n : Nat) (t : Ty) :
    ∃ u, (r.iterate n t).result = .ok u := by
  induction n generalizing t with
  | zero => exact ⟨t, rfl⟩
  | succ n ih =>
      obtain ⟨u, hu⟩ := exists_substitutes h t
      obtain ⟨v, hv⟩ := ih u
      refine ⟨v, ?_⟩
      rw [iterate, Logged.bind_of_ok (resolvesTo_iff_substitutes.mpr hu)]
      exact hv

namespace Substitutes

variable {r : Resolver} {t u : Ty}

theorem dimensions_le (h : r.Substitutes t u) : t.dimensions ≤ u.dimensions := by
  induction h with
  | array _ ih => exact Nat.succ_le_succ ih
  | _ => exact Nat.zero_le _

theorem heads_eq_nil (h : r.Substitutes t u)
    (hb : ∀ name p, Scope.declared? name r.scopes = some p → p.bound.heads = [])
    (he : ∀ g, t.element = .generic g → g.resolved = false → g.erasure.heads = []) :
    u.heads = [] := by
  induction h with
  | primitive k => rfl
  | array _ ih => exact ih he
  | named name => rfl
  | resolved hg => exact Ty.heads_resolved hg
  | declared _ hd => exact hb _ _ hd
  | erased hg _ _ => exact he _ rfl hg

end Substitutes

def Settles (r : Resolver) (t : Ty) : Prop :=
  ∃ n u, (r.iterate n t).result = .ok u ∧ u.Settled

namespace Settles

variable {r : Resolver} {t u c : Ty}

theorem of_settled (h : t.Settled) : r.Settles t := ⟨0, t, rfl, h⟩

theorem step (h : r.Substitutes t u) (hu : r.Settles u) : r.Settles t := by
  obtain ⟨n, v, hv, hs⟩ := hu
  refine ⟨n + 1, v, ?_, hs⟩
  rw [iterate, Logged.bind_of_ok (resolvesTo_iff_substitutes.mpr h)]
  exact hv

theorem array (h : r.Settles c) : r.Settles (.array c) := by
  obtain ⟨n, v, hv, hs⟩ := h
  refine ⟨n, .array v, ?_, .array hs⟩
  rw [iterate_array, Logged.map_eq, hv]
  rfl

end Settles

theorem settles_of_heads {scopes : List Scope} {t : Ty}
    (h : ∀ name ∈ t.heads, ∀ p, Scope.declared? name scopes = some p →
      (erasing scopes).Settles p.bound) : (erasing scopes).Settles t := by
  -- Dropping to an erasure makes the type smaller; only a jump to a bound needs the hypothesis.
  induction t with
  | primitive k => exact .of_settled (.primitive k)
  | array c ih => exact (ih h).array
  | named name => exact .of_settled (.named name)
  | generic g _ ih =>
      cases hg : g.resolved with
      | true => exact .of_settled (.resolved hg)
      | false =>
          rw [Ty.heads_variable hg] at h
          cases hd : Scope.declared? g.name scopes with
          | some p => exact .step (.declared hg hd) (h g.name (List.mem_cons_self ..) p hd)
          | none =>
              have he : (erasing scopes).Settles g.erasure :=
                ih fun name hm => h name (List.mem_cons_of_mem _ hm)
              exact .step (.erased hg hd rfl) he

theorem settles_bound {scopes : List Scope} {rank : String → Nat} (hr : Scope.Ranked rank scopes)
    {name : String} {p : TypeParameter} (hp : Scope.declared? name scopes = some p) :
    (erasing scopes).Settles p.bound := by
  induction hk : rank name using Nat.strongRecOn generalizing name p with
  | ind k ih =>
      refine settles_of_heads fun head hm q hq => ?_
      have hlt : rank head < k := hk ▸ hr name p hp head hm
      exact ih (rank head) hlt hq rfl

theorem resolution_settles :
    (∀ (scopes : List Scope) (rank : String → Nat), Scope.Ranked rank scopes → ∀ t : Ty,
      ∃ n u, ((erasing scopes).iterate n t).result = .ok u ∧ u.Settled ∧
        (erasing scopes).resolve u = ⟨.ok u, []⟩) ∧
    (∀ (scopes : List Scope) (t : Ty) (n : Nat),
      ∃ u v, ((erasing scopes).iterate n t).result = .ok u ∧
        ((erasing scopes).iterate (n + 1) t).result = .ok v ∧ u.dimensions ≤ v.dimensions) ∧
    (∀ (scopes : List Scope) (t : Ty),
      (∀ name p, Scope.declared? name scopes = some p → p.bound.heads = []) →
      (∀ g, t.element = .generic g → g.resolved = false → g.erasure.heads = []) →
      ∃ u, (erasing scopes).ResolvesTo t u ∧ (erasing scopes).resolve u = ⟨.ok u, []⟩) := by
  refine ⟨?_, ?_, ?_⟩
  · intro scopes rank hr t
    obtain ⟨n, u, hu, hs⟩ := settles_of_heads (t := t) fun _ _ _ hp => settles_bound hr hp
    exact ⟨n, u, hu, hs, resolve_of_no_lookup hs.lookedUp?_eq_none _⟩
  · intro scopes t n
    obtain ⟨u, hu⟩ := exists_iterate (r := erasing scopes) rfl n t
    obtain ⟨v, hv⟩ := exists_substitutes (r := erasing scopes) rfl u
    refine ⟨u, v, hu, ?_, hv.dimensions_le⟩
    rw [iterate_succ, Logged.bind_of_ok hu]
    exact resolvesTo_iff_substitutes.mpr hv
  · intro scopes t hb he
    obtain ⟨u, hu⟩ := exists_substitutes (r := erasing scopes) rfl t
    have hs : u.Settled := Ty.settled_of_heads_eq_nil (hu.heads_eq_nil hb he)
    exact ⟨u, resolvesTo_iff_substitutes.mpr hu, resolve_of_no_lookup hs.lookedUp?_eq_none _⟩

theorem resolution_settles_through_bounds :
    let t : Ty := .array (.generic (.var "T"))
    let u : Ty := .generic { GenericUse.var "U" with erasure := .generic (.var "X") }
    let hidden : TypeParameter := .bounded "T" [.generic (.var "T")]
    let scopes : List Scope :=
      [⟨[.bounded "T" [.array u]]⟩, ⟨[.bounded "U" [.named "A"], hidden]⟩]
    let rank : String → Nat := fun name => if name = "T" then 2 else if name = "U" then 1 else 0
    let flat : List Scope := [⟨[.bounded "T" [.array .object]]⟩]
    Scope.Ranked rank scopes ∧
    (∃ n u, ((erasing scopes).iterate n t).result = .ok u ∧ u.Settled ∧
      (erasing scopes).resolve u = ⟨.ok u, []⟩) ∧
    ((erasing scopes).iterate 2 t).result = .ok (.array (.array (.named "A"))) ∧
    (∀ name p, Scope.declared? name flat = some p → p.bound.heads = []) ∧
    (∀ g, t.element = .generic g → g.resolved = false → g.erasure.heads = []) ∧
    ∃ u, (erasing flat).ResolvesTo t u ∧ (erasing flat).resolve u = ⟨.ok u, []⟩ := by
  intro t u hidden scopes rank flat
  have hr : Scope.Ranked rank scopes := by
    intro name p hp head hh
    have hn : p.name = name := by simpa using List.find?_some hp
    have hm : p ∈ [.bounded "T" [.array u], .bounded "U" [.named "A"], hidden] :=
      List.mem_of_find?_eq_some hp
    subst hn
    simp only [List.mem_cons, List.not_mem_nil, or_false] at hm
    rcases hm with rfl | rfl | rfl
    · have hu : head ∈ ["U", "X"] := hh
      revert head
      decide
    · cases hh
    · exact absurd hp (by decide)
  have hb : ∀ name p, Scope.declared? name flat = some p → p.bound.heads = [] := by
    intro name p hp
    have hm : p ∈ [.bounded "T" [.array .object]] := List.mem_of_find?_eq_some hp
    obtain rfl := List.mem_singleton.mp hm
    rfl
  have he : ∀ g, t.element = .generic g → g.resolved = false → g.erasure.heads = [] := by
    intro g hg _
    cases hg
    rfl
  obtain ⟨hsettles, -, hflat⟩ := resolution_settles
  exact ⟨hr, hsettles scopes rank hr t, by rfl, hb, he, hflat flat t hb he⟩

end Resolver

end ClassfileTypes
