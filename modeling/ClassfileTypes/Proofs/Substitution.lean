import ClassfileTypes.Proofs.ElementResolution
import ClassfileTypes.Proofs.FlatScopes
import ClassfileTypes.Proofs.StrictPolicy

namespace ClassfileTypes

namespace Resolver

inductive Substitutes (r : Resolver) : Ty → Ty → Prop
  | primitive (k : Primitive) : Substitutes r (.primitive k) (.primitive k)
  | array {c d : Ty} : Substitutes r c d → Substitutes r (.array c) (.array d)
  | named (name : String) : Substitutes r (.named name) (.named name)
  | resolved {g : GenericUse Ty} : g.resolved = true → Substitutes r (.generic g) (.generic g)
  | declared {g : GenericUse Ty} {p : TypeParameter} : g.resolved = false →
      Scope.declared? g.name r.scopes = some p → Substitutes r (.generic g) p.bound
  | erased {g : GenericUse Ty} : g.resolved = false → Scope.declared? g.name r.scopes = none →
      r.settings.undeclared = .erasure → Substitutes r (.generic g) g.erasure

theorem resolvesTo_array_iff {r : Resolver} {c u : Ty} :
    r.ResolvesTo (.array c) u ↔ ∃ d, r.ResolvesTo c d ∧ .array d = u := by
  unfold ResolvesTo
  rw [resolve, Logged.map_eq]
  cases (r.resolve c).result <;> simp [Except.map]

theorem resolvesTo_resolved_iff {r : Resolver} {g : GenericUse Ty} {u : Ty}
    (hg : g.resolved = true) : r.ResolvesTo (.generic g) u ↔ .generic g = u := by
  rw [ResolvesTo, resolve_of_resolved r hg]
  exact ⟨Except.ok.inj, congrArg Except.ok⟩

theorem resolvesTo_declared_iff {r : Resolver} {g : GenericUse Ty} {p : TypeParameter} {u : Ty}
    (hg : g.resolved = false) (h : Scope.declared? g.name r.scopes = some p) :
    r.ResolvesTo (.generic g) u ↔ p.bound = u := by
  rw [ResolvesTo, resolve_of_declared h hg]
  exact ⟨Except.ok.inj, congrArg Except.ok⟩

theorem resolvesTo_undeclared_iff {r : Resolver} {g : GenericUse Ty} {u : Ty}
    (hg : g.resolved = false) (h : Scope.declared? g.name r.scopes = none) :
    r.ResolvesTo (.generic g) u ↔ r.settings.undeclared = .erasure ∧ g.erasure = u := by
  rw [ResolvesTo, resolve_of_variable r hg, substitute, Scope.locate?_eq_none_iff.mpr h]
  cases r.settings.undeclared with
  | erasure => simp [Logged.tell]
  | strict => simp [Logged.fail]

theorem resolvesTo_iff_substitutes {r : Resolver} {t u : Ty} :
    r.ResolvesTo t u ↔ r.Substitutes t u := by
  constructor
  · intro h
    induction t generalizing u with
    | primitive k =>
        cases h
        exact .primitive k
    | array c ih =>
        obtain ⟨d, hd, rfl⟩ := resolvesTo_array_iff.mp h
        exact .array (ih hd)
    | named name =>
        cases h
        exact .named name
    | generic g _ _ =>
        cases hg : g.resolved with
        | true =>
            obtain rfl := (resolvesTo_resolved_iff hg).mp h
            exact .resolved hg
        | false =>
            cases hd : Scope.declared? g.name r.scopes with
            | some p =>
                obtain rfl := (resolvesTo_declared_iff hg hd).mp h
                exact .declared hg hd
            | none =>
                obtain ⟨hs, rfl⟩ := (resolvesTo_undeclared_iff hg hd).mp h
                exact .erased hg hd hs
  · intro h
    induction h with
    | primitive k => rfl
    | array _ ih => exact resolvesTo_array_iff.mpr ⟨_, ih, rfl⟩
    | named name => rfl
    | resolved hg => exact (resolvesTo_resolved_iff hg).mpr rfl
    | declared hg hd => exact (resolvesTo_declared_iff hg hd).mpr rfl
    | erased hg hd hs => exact (resolvesTo_undeclared_iff hg hd).mpr ⟨hs, rfl⟩

theorem exists_substitutes {r : Resolver} (h : r.settings.undeclared = .erasure) (t : Ty) :
    ∃ u, r.Substitutes t u := by
  induction t with
  | primitive k => exact ⟨_, .primitive k⟩
  | array c ih =>
      obtain ⟨d, hd⟩ := ih
      exact ⟨_, .array hd⟩
  | named name => exact ⟨_, .named name⟩
  | generic g _ _ =>
      cases hg : g.resolved with
      | true => exact ⟨_, .resolved hg⟩
      | false =>
          cases hd : Scope.declared? g.name r.scopes with
          | some p => exact ⟨_, .declared hg hd⟩
          | none => exact ⟨_, .erased hg hd h⟩

end Resolver

def GenericUse.rebound (scopes : List Scope) (g : GenericUse Ty) : GenericUse Ty :=
  match Scope.declared? g.name scopes with
  | some p => if g.resolved then g else { g with erasure := p.bound }
  | none => g

def Ty.rebound (scopes : List Scope) : Ty → Ty
  | .array c => .array (c.rebound scopes)
  | .generic g => .generic (g.rebound scopes)
  | t => t

def MethodType.rebound (scopes : List Scope) (m : MethodType) : MethodType :=
  ⟨m.parameters.map (Ty.rebound scopes), m.result.rebound scopes⟩

namespace GenericUse

variable {scopes : List Scope} {g : GenericUse Ty}

theorem rebound_of_resolved (hg : g.resolved = true) : g.rebound scopes = g := by
  unfold rebound
  cases Scope.declared? g.name scopes with
  | some p => exact if_pos hg
  | none => rfl

theorem rebound_of_declared {p : TypeParameter} (hg : g.resolved = false)
    (h : Scope.declared? g.name scopes = some p) :
    g.rebound scopes = { g with erasure := p.bound } := by
  simp [rebound, h, hg]

theorem rebound_of_undeclared (h : Scope.declared? g.name scopes = none) :
    g.rebound scopes = g := by
  rw [rebound, h]

end GenericUse

theorem Ty.rebound_of_undeclared {scopes : List Scope} {t : Ty}
    (h : ∀ name, t.lookedUp? = some name → Scope.declared? name scopes = none) :
    t.rebound scopes = t := by
  induction t with
  | primitive k => rfl
  | array c ih => exact congrArg Ty.array (ih h)
  | named name => rfl
  | generic g _ _ =>
      rw [rebound]
      cases hg : g.resolved with
      | true => rw [GenericUse.rebound_of_resolved hg]
      | false =>
          have hn : (generic g).lookedUp? = some g.name :=
            lookedUp?_eq_some_iff.mpr ⟨g, rfl, hg, rfl⟩
          rw [GenericUse.rebound_of_undeclared (h _ hn)]

theorem MethodType.rebound_of_undeclared {scopes : List Scope} {m : MethodType}
    (h : ∀ t ∈ m.parameters ++ [m.result], ∀ name, t.lookedUp? = some name →
      Scope.declared? name scopes = none) : m.rebound scopes = m := by
  have hp : m.parameters.map (Ty.rebound scopes) = m.parameters.map id :=
    List.map_congr_left fun t ht => Ty.rebound_of_undeclared (h t (by simp [ht]))
  have hr : m.result.rebound scopes = m.result := Ty.rebound_of_undeclared (h m.result (by simp))
  rw [rebound, hp, hr, List.map_id]

theorem MethodType.descriptor_congr {m n : MethodType}
    (hp : List.Forall₂ (fun t u => t.descriptor = u.descriptor) m.parameters n.parameters)
    (hr : m.result.descriptor = n.result.descriptor) : m.descriptor = n.descriptor := by
  have hf {ts us : List Ty} (h : List.Forall₂ (fun t u => t.descriptor = u.descriptor) ts us) :
      (ts.flatMap fun t => t.descriptor.toList) = us.flatMap fun t => t.descriptor.toList := by
    induction h with
    | nil => rfl
    | cons ht _ ih => rw [List.flatMap_cons, List.flatMap_cons, ht, ih]
  rw [← String.toList_inj, descriptor, descriptor, toList_methodDescriptor,
    toList_methodDescriptor, hf hp, hr]

namespace Resolver

theorem Substitutes.descriptor_eq {r : Resolver} {t u : Ty} (h : r.Substitutes t u) :
    u.descriptor = (t.rebound r.scopes).descriptor := by
  induction h with
  | primitive k => rfl
  | array _ ih => rw [Ty.rebound, Ty.descriptor_array, Ty.descriptor_array, ih]
  | named name => rfl
  | resolved hg => rw [Ty.rebound, GenericUse.rebound_of_resolved hg]
  | declared hg hd => rw [Ty.rebound, GenericUse.rebound_of_declared hg hd, Ty.descriptor_generic]
  | erased _ hd _ => rw [Ty.rebound, GenericUse.rebound_of_undeclared hd, Ty.descriptor_generic]

theorem descriptor_of_inferTypeSpec {r : Resolver} {m : MethodType} {d : String}
    (h : (r.inferTypeSpec m).result = .ok d) : d = (m.rebound r.scopes).descriptor := by
  obtain ⟨x, hx⟩ := Inferred.total r m
  rw [hx.eq_inferTypeSpec] at h
  cases hx with
  | refused => cases h
  | @encoded n hp hr =>
      obtain rfl := Except.ok.inj h
      have hd {t u : Ty} (hu : r.ResolvesTo t u) : u.descriptor = (t.rebound r.scopes).descriptor :=
        (resolvesTo_iff_substitutes.mp hu).descriptor_eq
      refine MethodType.descriptor_congr ?_ (hd hr)
      exact List.forall₂_map_right_iff.mpr (hp.flip.imp fun _ _ => hd)

theorem inferTypeSpec_of_resolves {r : Resolver} {m : MethodType}
    (h : ∀ t ∈ m.parameters ++ [m.result], ∃ u, r.ResolvesTo t u) :
    (r.inferTypeSpec m).result = .ok (m.rebound r.scopes).descriptor := by
  obtain ⟨d, hd⟩ := inferTypeSpec_ok h
  rw [hd, ← descriptor_of_inferTypeSpec hd]

theorem inferTypeSpec_erasing (scopes : List Scope) (m : MethodType) :
    ((erasing scopes).inferTypeSpec m).result = .ok (m.rebound scopes).descriptor := by
  refine inferTypeSpec_of_resolves (r := erasing scopes) fun t _ => ?_
  obtain ⟨u, hu⟩ := exists_substitutes (r := erasing scopes) rfl t
  exact ⟨u, resolvesTo_iff_substitutes.mpr hu⟩

theorem inference_encodes_rebound :
    (∀ (scopes : List Scope) (m : MethodType),
      ((erasing scopes).inferTypeSpec m).result = .ok (m.rebound scopes).descriptor) ∧
    (∀ (scopes : List Scope) (m : MethodType) (d : String),
      ((strict scopes).inferTypeSpec m).result = .ok d → d = (m.rebound scopes).descriptor) ∧
    (∀ (scopes : List Scope) (m : MethodType),
      (∀ t ∈ m.parameters ++ [m.result], ∀ name, t.lookedUp? = some name →
        Scope.declared? name scopes = none) →
      ((erasing scopes).inferTypeSpec m).result = .ok m.descriptor) ∧
    (∀ m : MethodType, ((erasing []).inferTypeSpec m).result = .ok m.descriptor) ∧
    (∀ (r : Resolver) (m : MethodType), (∀ t ∈ m.parameters ++ [m.result], t.lookedUp? = none) →
      (r.inferTypeSpec m).result = .ok m.descriptor) := by
  refine ⟨inferTypeSpec_erasing, fun scopes m d h => descriptor_of_inferTypeSpec h, ?_, ?_, ?_⟩
  · intro scopes m h
    rw [inferTypeSpec_erasing, MethodType.rebound_of_undeclared h]
  · intro m
    rw [inferTypeSpec_erasing, MethodType.rebound_of_undeclared fun _ _ _ _ => rfl]
  · intro r m h
    have hr : m.rebound r.scopes = m := by
      refine MethodType.rebound_of_undeclared fun t ht name hn => ?_
      rw [h t ht] at hn
      cases hn
    have ht : ∀ t ∈ m.parameters ++ [m.result], ∃ u, r.ResolvesTo t u :=
      fun t ht => ⟨t, congrArg Logged.result (resolve_of_no_lookup (h t ht) r)⟩
    rw [inferTypeSpec_of_resolves ht, hr]

theorem inference_encodes_rebound_shadowed :
    let t : Ty := .array (.generic (.var "T"))
    let free : Ty := .generic { GenericUse.var "X" with erasure := t }
    let applied : Ty := .generic (.parameterized "Box" [⟨.covariant, t⟩])
    let scopes : List Scope := [⟨[.bounded "T" [t, .named "A"]]⟩, ⟨[.bounded "T" [.named "B"]]⟩]
    ((strict scopes).inferTypeSpec ⟨[t], applied⟩).result = .ok "([[Ljava/lang/Object;)LBox;" ∧
    "([[Ljava/lang/Object;)LBox;" = (MethodType.rebound scopes ⟨[t], applied⟩).descriptor ∧
    (∀ u ∈ [applied] ++ [free], ∀ name, u.lookedUp? = some name →
      Scope.declared? name scopes = none) ∧
    ((erasing scopes).inferTypeSpec ⟨[applied], free⟩).result =
      .ok (MethodType.descriptor ⟨[applied], free⟩) ∧
    (∀ u ∈ [applied] ++ [.array applied], u.lookedUp? = none) ∧
    ((strict scopes).inferTypeSpec ⟨[applied], .array applied⟩).result =
      .ok (MethodType.descriptor ⟨[applied], .array applied⟩) := by
  intro t free applied scopes
  obtain ⟨-, hstrict, hundeclared, -, hplain⟩ := inference_encodes_rebound
  have hs : ((strict scopes).inferTypeSpec ⟨[t], applied⟩).result =
      .ok "([[Ljava/lang/Object;)LBox;" := by decide +kernel
  have ha : applied.lookedUp? = none := rfl
  have hx : free.lookedUp? = some "X" := rfl
  have hd : Scope.declared? "X" scopes = none := by decide
  have hu : ∀ u ∈ [applied] ++ [free], ∀ name, u.lookedUp? = some name →
      Scope.declared? name scopes = none := by
    simp [ha, hx, hd]
  have hn : ∀ u ∈ [applied] ++ [.array applied], u.lookedUp? = none := by
    have hv : (Ty.array applied).lookedUp? = none := rfl
    simp [ha, hv]
  exact ⟨hs, hstrict scopes ⟨[t], applied⟩ _ hs, hu, hundeclared scopes ⟨[applied], free⟩ hu, hn,
    hplain (strict scopes) ⟨[applied], .array applied⟩ hn⟩

end Resolver

end ClassfileTypes
