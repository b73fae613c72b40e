import ClassfileTypes.Proofs.Erasure
import ClassfileTypes.Proofs.FlatScopes

namespace ClassfileTypes

inductive Ty.Interchangeable (scopes : List Scope) : Ty → Ty → Prop
  | primitive (k : Primitive) : Interchangeable scopes (.primitive k) (.primitive k)
  | array {c d : Ty} : Interchangeable scopes c d → Interchangeable scopes (.array c) (.array d)
  | named (name : String) : Interchangeable scopes (.named name) (.named name)
  | resolved {g h : GenericUse Ty} : g.resolved = true → h.resolved = true →
      g.erasure.descriptor = h.erasure.descriptor → Interchangeable scopes (.generic g) (.generic h)
  | declared {g h : GenericUse Ty} : g.resolved = false → h.resolved = false → g.name = h.name →
      (Scope.declared? g.name scopes).isSome → Interchangeable scopes (.generic g) (.generic h)
  | erased {g h : GenericUse Ty} : g.resolved = false → h.resolved = false → g.name = h.name →
      g.erasure.descriptor = h.erasure.descriptor → Interchangeable scopes (.generic g) (.generic h)

def TypeParameter.Interchangeable (p q : TypeParameter) : Prop :=
  p.name = q.name ∧ p.bound.descriptor = q.bound.descriptor

def Scope.Interchangeable (s t : Scope) : Prop :=
  List.Forall₂ TypeParameter.Interchangeable s.parameters t.parameters

namespace Scope

variable {S T : List Scope} {s t : Scope}

theorem Interchangeable.bound?_eq (h : Interchangeable s t) (name : String) :
    (s.bound? name).map Ty.descriptor = (t.bound? name).map Ty.descriptor := by
  obtain ⟨ps⟩ := s
  obtain ⟨qs⟩ := t
  change List.Forall₂ TypeParameter.Interchangeable ps qs at h
  induction h with
  | nil => rfl
  | @cons p q ps qs hpq _ ih =>
      simp only [bound?, find?, List.find?_cons, hpq.1] at ih ⊢
      cases q.name == name with
      | true => exact congrArg some hpq.2
      | false => exact ih

theorem locate?_eq_of_interchangeable (h : List.Forall₂ Interchangeable S T) (name : String) :
    (locate? name S).map (Prod.map id Ty.descriptor) =
      (locate? name T).map (Prod.map id Ty.descriptor) := by
  induction h with
  | nil => rfl
  | @cons s t S T hst _ ih =>
      have hb := hst.bound?_eq name
      rw [locate?, locate?]
      cases hs : s.bound? name with
      | some u =>
          rw [hs] at hb
          obtain ⟨v, hv, he⟩ := Option.map_eq_some_iff.mp hb.symm
          simp [hv, he]
      | none =>
          rw [hs] at hb
          rw [Option.map_eq_none_iff.mp hb.symm]
          have hn := congrArg (Option.map (Prod.map (· + 1) id)) ih
          simpa [Function.comp_def, Prod.map] using hn

end Scope

namespace Resolver

def describe (r : Resolver) (t : Ty) : Logged Undeclared String := Ty.descriptor <$> r.resolve t

theorem writeResolved_eq (r : Resolver) (out : String) (t : Ty) :
    r.writeResolved out t = (out ++ ·) <$> r.describe t := by
  have hw : Ty.writeDescriptor out = fun u => out ++ u.descriptor :=
    funext fun u => u.writeDescriptor_eq out
  rw [writeResolved, describe, Functor.map_map, hw]

theorem describe_array (r : Resolver) (c : Ty) :
    r.describe (.array c) = ("[" ++ ·) <$> r.describe c := by
  simp only [describe, resolve, Functor.map_map, Ty.descriptor_array]

theorem describe_resolved (r : Resolver) {g : GenericUse Ty} (hg : g.resolved = true) :
    r.describe (.generic g) = pure g.erasure.descriptor := by
  rw [describe, resolve_of_resolved r hg]
  rfl

theorem describe_variable (r : Resolver) {g : GenericUse Ty} (hg : g.resolved = false) :
    r.describe (.generic g) =
      match (Scope.locate? g.name r.scopes).map (Prod.map id Ty.descriptor) with
      | some (depth, text) => .tell (.declared g.name depth) text
      | none =>
          match r.settings.undeclared with
          | .erasure => .tell (.erased g.name) g.erasure.descriptor
          | .strict => .fail ⟨g.name⟩ := by
  rw [describe, resolve_of_variable r hg, substitute]
  cases Scope.locate? g.name r.scopes with
  | some found => rfl
  | none => cases r.settings.undeclared <;> rfl

section Interchangeable

variable {S T : List Scope}

theorem describe_eq_of_interchangeable (hS : List.Forall₂ Scope.Interchangeable S T)
    (settings : Settings) {t u : Ty} (h : Ty.Interchangeable S t u) :
    (⟨S, settings⟩ : Resolver).describe t = (⟨T, settings⟩ : Resolver).describe u := by
  induction h with
  | primitive k => rfl
  | array _ ih => rw [describe_array, describe_array, ih]
  | named name => rfl
  | resolved hg hh he => rw [describe_resolved _ hg, describe_resolved _ hh, he]
  | @declared g h hg hh hn hd =>
      obtain ⟨p, hp⟩ := Option.isSome_iff_exists.mp hd
      obtain ⟨depth, hl⟩ := Scope.locate?_of_declared? hp
      rw [describe_variable _ hg, describe_variable _ hh, ← hn,
        ← Scope.locate?_eq_of_interchangeable hS, hl]
      rfl
  | @erased g h hg hh hn he =>
      rw [describe_variable _ hg, describe_variable _ hh, ← hn, ← he,
        ← Scope.locate?_eq_of_interchangeable hS]

theorem inferDescriptor_eq_of_interchangeable (hS : List.Forall₂ Scope.Interchangeable S T)
    (settings : Settings) {ps qs : List Parameter}
    (hp : List.Forall₂ (fun p q => Ty.Interchangeable S p.ty q.ty) ps qs) {t u : Ty}
    (h : Ty.Interchangeable S t u) :
    (⟨S, settings⟩ : Resolver).inferDescriptor ps t =
      (⟨T, settings⟩ : Resolver).inferDescriptor qs u := by
  have hw {v w : Ty} (hvw : Ty.Interchangeable S v w) (out : String) :
      (⟨S, settings⟩ : Resolver).writeResolved out v =
        (⟨T, settings⟩ : Resolver).writeResolved out w := by
    rw [writeResolved_eq, writeResolved_eq, describe_eq_of_interchangeable hS settings hvw]
  have hps (out : String) := Logged.foldlM_congr (hp.imp fun _ _ => hw) out
  rw [inferDescriptor, inferDescriptor, hps]
  exact bind_congr fun out => hw h (out.push ')')

end Interchangeable

end Resolver

def Ty.bare : Ty → Ty
  | .array c => .array c.bare
  | .generic ⟨name, resolved, _, _, e⟩ =>
      .generic ⟨if resolved then "" else name, resolved, false, [], e.erase⟩
  | t => t

def Parameter.bare (p : Parameter) : Parameter := ⟨"", p.ty.bare⟩

def TypeParameter.bare (p : TypeParameter) : TypeParameter := .bounded p.name [p.bound.erase]

def Scope.bare (s : Scope) : Scope := ⟨s.parameters.map TypeParameter.bare⟩

theorem Ty.interchangeable_bare (scopes : List Scope) (t : Ty) :
    Interchangeable scopes t t.bare := by
  induction t with
  | primitive k => exact .primitive k
  | array c ih => exact .array ih
  | named name => exact .named name
  | generic g _ _ =>
      obtain ⟨name, resolved, wildcard, bounds, e⟩ := g
      have he : e.descriptor = e.erase.descriptor := e.descriptor_erase.symm
      cases resolved with
      | true => exact .resolved rfl rfl he
      | false => exact .erased rfl rfl rfl he

theorem Scope.interchangeable_bare (s : Scope) : Interchangeable s s.bare := by
  refine List.forall₂_map_right_iff.mpr (List.forall₂_same.mpr fun p _ => ?_)
  exact ⟨rfl, p.bound.descriptor_erase.symm⟩

namespace Resolver

theorem inference_noninterference :
    (∀ S T : List Scope, List.Forall₂ Scope.Interchangeable S T →
      ∀ ps qs : List Parameter, List.Forall₂ (fun p q => Ty.Interchangeable S p.ty q.ty) ps qs →
      ∀ t u : Ty, Ty.Interchangeable S t u → ∀ settings : Settings,
        (⟨S, settings⟩ : Resolver).inferDescriptor ps t =
          (⟨T, settings⟩ : Resolver).inferDescriptor qs u) ∧
    (∀ (S : List Scope) (ps : List Parameter) (t : Ty) (settings : Settings),
      (⟨S, settings⟩ : Resolver).inferDescriptor ps t =
        (⟨S.map Scope.bare, settings⟩ : Resolver).inferDescriptor (ps.map Parameter.bare)
          t.bare) := by
  constructor
  · intro S T hS ps qs hp t u h settings
    exact inferDescriptor_eq_of_interchangeable hS settings hp h
  · intro S ps t settings
    have hS : List.Forall₂ Scope.Interchangeable S (S.map Scope.bare) :=
      List.forall₂_map_right_iff.mpr (List.forall₂_same.mpr fun s _ => s.interchangeable_bare)
    have hp : List.Forall₂ (fun p q => Ty.Interchangeable S p.ty q.ty) ps (ps.map Parameter.bare) :=
      List.forall₂_map_right_iff.mpr (List.forall₂_same.mpr fun p _ => p.ty.interchangeable_bare S)
    exact inferDescriptor_eq_of_interchangeable hS settings hp (t.interchangeable_bare S)

theorem inference_noninterference_hidden_fields :
    let number : Ty := .named "java.lang.Number"
    let S : List Scope := [⟨[.bounded "T" [number, .named "A"], .bounded "U" []]⟩]
    let bound : Ty := .generic { GenericUse.var "X" with erasure := number }
    let T : List Scope := [⟨[.interfaceBounded "T" [bound], .bounded "U" [.object]]⟩]
    let ps : List Parameter :=
      [⟨"a", .array (.generic (.var "T"))⟩,
        ⟨"b", .generic (.parameterized "Box" [⟨.covariant, number⟩])⟩]
    let qs : List Parameter :=
      [⟨"c", .array (.generic ⟨"T", false, true, [⟨.contravariant, bound⟩], number⟩)⟩,
        ⟨"", .generic ⟨"B", true, true, [], .named "Box"⟩⟩]
    let t : Ty := .generic (.var "V")
    let u : Ty := .generic ⟨"V", false, true, [⟨.invariant, number⟩], .generic (.var "U")⟩
    List.Forall₂ Scope.Interchangeable S T ∧
    List.Forall₂ (fun p q => Ty.Interchangeable S p.ty q.ty) ps qs ∧ Ty.Interchangeable S t u ∧
    (⟨S, .default⟩ : Resolver).inferDescriptor ps t =
      (⟨T, .default⟩ : Resolver).inferDescriptor qs u ∧
    ((⟨S, .default⟩ : Resolver).inferDescriptor ps t).events = [.declared "T" 0, .erased "V"] := by
  intro number S bound T ps qs t u
  have hS : List.Forall₂ Scope.Interchangeable S T :=
    .cons (List.Forall₂.cons ⟨rfl, rfl⟩ (.cons ⟨rfl, rfl⟩ .nil)) .nil
  have hp : List.Forall₂ (fun p q => Ty.Interchangeable S p.ty q.ty) ps qs :=
    .cons (.array (.declared rfl rfl rfl rfl)) (.cons (.resolved rfl rfl rfl) .nil)
  have h : Ty.Interchangeable S t u := .erased rfl rfl rfl rfl
  exact ⟨hS, hp, h, inference_noninterference.1 S T hS ps qs hp t u h .default, by rfl⟩

end Resolver

end ClassfileTypes
