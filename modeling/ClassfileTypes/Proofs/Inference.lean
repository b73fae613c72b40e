import Mathlib.Data.List.Forall2
import ClassfileTypes.Resolution.Basic

namespace ClassfileTypes

namespace Logged

variable {ε α β γ : Type}

theorem bind_of_ok {x : Logged ε α} {a : α} (h : x.result = .ok a) (f : α → Logged ε β) :
    x >>= f = ⟨(f a).result, x.events ++ (f a).events⟩ := by
  obtain ⟨result, events⟩ := x
  cases h
  rfl

theorem bind_of_error {x : Logged ε α} {e : ε} (h : x.result = .error e) (f : α → Logged ε β) :
    x >>= f = ⟨.error e, x.events⟩ := by
  obtain ⟨result, events⟩ := x
  cases h
  rfl

theorem id_map (x : Logged ε α) : id <$> x = x := by
  obtain ⟨_ | a, events⟩ := x
  · rfl
  · exact congrArg (Logged.mk (.ok a)) (List.append_nil events)

theorem bind_assoc (x : Logged ε α) (f : α → Logged ε β) (g : β → Logged ε γ) :
    x >>= f >>= g = x >>= fun a => f a >>= g := by
  cases hx : x.result with
  | error e => rw [bind_of_error hx, bind_of_error hx, bind_of_error rfl]
  | ok a =>
      rw [bind_of_ok hx, bind_of_ok hx]
      cases hf : (f a).result with
      | error e => rw [bind_of_error rfl, bind_of_error hf]
      | ok b => rw [bind_of_ok rfl, bind_of_ok hf, List.append_assoc]

instance : LawfulMonad (Logged ε) :=
  LawfulMonad.mk' (Logged ε) id_map (fun _ _ => rfl) bind_assoc

theorem map_eq (f : α → β) (x : Logged ε α) : f <$> x = ⟨x.result.map f, x.events⟩ := by
  cases hx : x.result with
  | error e => exact bind_of_error hx _
  | ok a => exact (bind_of_ok hx _).trans (congrArg (Logged.mk _) (List.append_nil _))

section mapM

variable {f : α → Logged ε β}

theorem mapM_of_forall₂ {as : List α} {bs : List β}
    (h : List.Forall₂ (fun a b => (f a).result = .ok b) as bs) :
    as.mapM f = ⟨.ok bs, as.flatMap fun a => (f a).events⟩ := by
  induction h with
  | nil => rfl
  | cons ha _ ih =>
      rw [List.mapM_cons, bind_of_ok ha, ih, bind_of_ok rfl]
      simp [pure]

theorem mapM_of_error {before : List α} {bs : List β} {a : α} {e : ε}
    (h : List.Forall₂ (fun a b => (f a).result = .ok b) before bs)
    (ha : (f a).result = .error e) (after : List α) :
    (before ++ a :: after).mapM f =
      ⟨.error e, (before.flatMap fun b => (f b).events) ++ (f a).events⟩ := by
  induction h with
  | nil => rw [List.nil_append, List.mapM_cons, bind_of_error ha, List.flatMap_nil, List.nil_append]
  | cons hb _ ih =>
      rw [List.cons_append, List.mapM_cons, bind_of_ok hb, ih, bind_of_error rfl]
      simp

theorem mapM_congr {g : α → Logged ε β} {as : List α} (h : ∀ a ∈ as, f a = g a) :
    as.mapM f = as.mapM g := by
  induction as with
  | nil => rfl
  | cons a as ih =>
      have has : ∀ b ∈ as, f b = g b := fun b hb => h b (List.mem_cons_of_mem _ hb)
      rw [List.mapM_cons, List.mapM_cons, h a (List.mem_cons_self ..), ih has]

theorem forall₂_or_first_error (f : α → Logged ε β) (as : List α) :
    (∃ bs, List.Forall₂ (fun a b => (f a).result = .ok b) as bs) ∨
      ∃ before a after bs e, as = before ++ a :: after ∧
        List.Forall₂ (fun a b => (f a).result = .ok b) before bs ∧ (f a).result = .error e := by
  induction as with
  | nil => exact .inl ⟨[], .nil⟩
  | cons a as ih =>
      cases ha : (f a).result with
      | error e => exact .inr ⟨[], a, as, [], e, rfl, .nil, ha⟩
      | ok b =>
          rcases ih with ⟨bs, hbs⟩ | ⟨before, c, after, bs, e, rfl, hbs, hc⟩
          · exact .inl ⟨b :: bs, .cons ha hbs⟩
          · exact .inr ⟨a :: before, c, after, b :: bs, e, rfl, .cons ha hbs, hc⟩

end mapM

theorem foldlM_congr {f : β → α → Logged ε β} {g : β → γ → Logged ε β} {as : List α} {cs : List γ}
    (h : List.Forall₂ (fun a c => ∀ b, f b a = g b c) as cs) (b : β) :
    as.foldlM f b = cs.foldlM g b := by
  induction h generalizing b with
  | nil => rfl
  | cons ha _ ih =>
      rw [List.foldlM_cons, List.foldlM_cons, ha b]
      exact bind_congr ih

end Logged

namespace Resolver

theorem foldlM_writeResolved (r : Resolver) (ts : List Ty) (out : String) :
    ts.foldlM r.writeResolved out =
      (fun us => us.foldl Ty.writeDescriptor out) <$> ts.mapM r.resolve := by
  induction ts generalizing out with
  | nil => simp
  | cons t ts ih =>
      simp only [List.foldlM_cons, List.mapM_cons, writeResolved, ih, bind_map_left, map_bind,
        bind_pure_comp, Functor.map_map, List.foldl_cons]

theorem infer_eq (r : Resolver) (ts : List Ty) (t : Ty) :
    r.infer ts t = do
      let us ← ts.mapM r.resolve
      let u ← r.resolve t
      return methodDescriptor us u := by
  simp only [infer, foldlM_writeResolved, writeResolved, bind_map_left, bind_pure_comp,
    methodDescriptor]

theorem inferTypeSpec_congr {r s : Resolver} {m : MethodType}
    (h : ∀ t ∈ m.parameters ++ [m.result], r.resolve t = s.resolve t) :
    r.inferTypeSpec m = s.inferTypeSpec m := by
  have hp : ∀ t ∈ m.parameters, r.resolve t = s.resolve t := fun t ht => h t (by simp [ht])
  have hr : r.resolve m.result = s.resolve m.result := h m.result (by simp)
  rw [inferTypeSpec, inferTypeSpec, infer_eq, infer_eq, Logged.mapM_congr hp, hr]

theorem inferDescriptor_eq (r : Resolver) (ps : List Parameter) (result : Ty) :
    r.inferDescriptor ps result = r.inferTypeSpec (.ofParameters ps result) := by
  simp only [inferDescriptor, inferTypeSpec, infer, MethodType.ofParameters,
    List.foldlM_map]

theorem events_of_substitute_error {r : Resolver} {g : GenericUse Ty} {e : Undeclared}
    (h : (r.substitute g).result = .error e) : (r.substitute g).events = [] := by
  unfold substitute at h ⊢
  split at h
  · cases h
  · split at h
    · cases h
    · rfl

theorem events_of_resolve_error {r : Resolver} {t : Ty} {e : Undeclared}
    (h : (r.resolve t).result = .error e) : (r.resolve t).events = [] := by
  induction t with
  | primitive k => cases h
  | array c ih =>
      rw [resolve, Logged.map_eq] at h ⊢
      cases hc : (r.resolve c).result with
      | error d => exact ih (hc.trans (by simpa [hc, Except.map] using h))
      | ok u => simp [hc, Except.map] at h
  | named name => cases h
  | generic g _ _ =>
      rw [resolve] at h ⊢
      split at h
      · cases h
      · next hg =>
          rw [if_neg hg]
          exact events_of_substitute_error h

def ResolvesTo (r : Resolver) (t u : Ty) : Prop := (r.resolve t).result = .ok u

def Refuses (r : Resolver) (t : Ty) (e : Undeclared) : Prop := (r.resolve t).result = .error e

def eventsOf (r : Resolver) (ts : List Ty) : List Event := ts.flatMap fun t => (r.resolve t).events

inductive Inferred (r : Resolver) (m : MethodType) : Logged Undeclared String → Prop where
  | encoded {n : MethodType} :
      List.Forall₂ r.ResolvesTo m.parameters n.parameters → r.ResolvesTo m.result n.result →
      Inferred r m ⟨.ok n.descriptor, r.eventsOf (m.parameters ++ [m.result])⟩
  | refused {before after us : List Ty} {t : Ty} {e : Undeclared} :
      m.parameters ++ [m.result] = before ++ t :: after →
      List.Forall₂ r.ResolvesTo before us → r.Refuses t e →
      Inferred r m ⟨.error e, r.eventsOf before⟩

theorem Inferred.total (r : Resolver) (m : MethodType) : ∃ x, r.Inferred m x := by
  rcases Logged.forall₂_or_first_error r.resolve m.parameters with
    ⟨us, hus⟩ | ⟨before, t, after, us, e, hp, hus, ht⟩
  · cases hr : (r.resolve m.result).result with
    | ok u => exact ⟨_, .encoded (n := ⟨us, u⟩) hus hr⟩
    | error e => exact ⟨_, .refused rfl hus hr⟩
  · have hps : m.parameters ++ [m.result] = before ++ t :: (after ++ [m.result]) := by simp [hp]
    exact ⟨_, .refused hps hus ht⟩

theorem Inferred.eq_inferTypeSpec {r : Resolver} {m : MethodType} {x : Logged Undeclared String}
    (h : r.Inferred m x) : r.inferTypeSpec m = x := by
  rw [inferTypeSpec, infer_eq]
  cases h with
  | @encoded n hp hr =>
      rw [Logged.mapM_of_forall₂ hp, Logged.bind_of_ok rfl, Logged.bind_of_ok hr]
      simp [eventsOf, MethodType.descriptor, pure]
  | @refused before after us t e hps hus ht =>
      have hn : (r.resolve t).events = [] := events_of_resolve_error ht
      rcases List.eq_nil_or_concat after with rfl | ⟨after, u, rfl⟩
      · obtain ⟨rfl, hr⟩ := List.append_inj' hps rfl
        obtain rfl : m.result = t := by simpa using hr
        rw [Logged.mapM_of_forall₂ hus, Logged.bind_of_ok rfl, Logged.bind_of_error ht, hn]
        simp [eventsOf]
      · have hps' : m.parameters ++ [m.result] = (before ++ t :: after) ++ [u] := by simpa using hps
        obtain ⟨hp, -⟩ := List.append_inj' hps' rfl
        rw [hp, Logged.mapM_of_error hus ht, Logged.bind_of_error rfl, hn]
        simp [eventsOf]

theorem inferTypeSpec_ok {r : Resolver} {m : MethodType}
    (h : ∀ t ∈ m.parameters ++ [m.result], ∃ u, r.ResolvesTo t u) :
    ∃ d, (r.inferTypeSpec m).result = .ok d := by
  obtain ⟨x, hx⟩ := Inferred.total r m
  rw [hx.eq_inferTypeSpec]
  cases hx with
  | @encoded n _ _ => exact ⟨n.descriptor, rfl⟩
  | @refused before after us t e hm _ ht =>
      obtain ⟨u, hu⟩ := h t (by simp [hm])
      cases ht.symm.trans hu

theorem inferred_iff (r : Resolver) (m : MethodType) (x : Logged Undeclared String) :
    r.Inferred m x ↔ r.inferTypeSpec m = x := by
  constructor
  · intro h
    exact h.eq_inferTypeSpec
  · intro h
    obtain ⟨y, hy⟩ := Inferred.total r m
    rwa [← h, hy.eq_inferTypeSpec]

theorem infer_resolves_then_encodes :
    (∀ (r : Resolver) (m : MethodType) (x : Logged Undeclared String),
      r.Inferred m x ↔ r.inferTypeSpec m = x) ∧
    (∀ (r : Resolver) (ps : List Parameter) (result : Ty),
      r.inferDescriptor ps result = r.inferTypeSpec (.ofParameters ps result)) ∧
    (∀ (r : Resolver) (d : MethodDecl),
      r.inferTypeSpec d.type = r.inferDescriptor d.parameters d.result) ∧
    (∀ (owner method : Declaration) (ps : List Parameter) (result : Ty),
      inferMethodDescriptor owner method ps result =
        (⟨[method.scope, owner.scope], .default⟩ : Resolver).inferTypeSpec
          (.ofParameters ps result)) := by
  refine ⟨inferred_iff, inferDescriptor_eq, ?_, ?_⟩
  · intro r d
    exact (inferDescriptor_eq r d.parameters d.result).symm
  · intro owner method ps result
    exact inferDescriptor_eq (.forMethod owner method) ps result

end Resolver

end ClassfileTypes
