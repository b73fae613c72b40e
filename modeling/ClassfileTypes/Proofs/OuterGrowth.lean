import ClassfileTypes.Proofs.ElementResolution
import ClassfileTypes.Proofs.ScopeLookup
import ClassfileTypes.Session

namespace ClassfileTypes

namespace Scope

def KeptBy (S T : List Scope) : Prop :=
  ∀ name found, locate? name S = some found → locate? name T = some found

namespace KeptBy

variable {S T U : List Scope}

theorem refl (S : List Scope) : KeptBy S S := fun _ _ h => h

theorem trans (h : KeptBy S T) (k : KeptBy T U) : KeptBy S U :=
  fun name found hf => k name found (h name found hf)

theorem nil (T : List Scope) : KeptBy [] T := by
  intro name found h
  cases h

theorem cons (s : Scope) (h : KeptBy S T) : KeptBy (s :: S) (s :: T) := by
  intro name found hf
  rw [locate?] at hf ⊢
  cases hs : s.bound? name with
  | some t =>
      rw [hs] at hf
      exact hf
  | none =>
      rw [hs] at hf
      obtain ⟨a, ha, he⟩ := Option.map_eq_some_iff.mp hf
      simp only [h name a ha]
      exact congrArg some he

theorem append (S T : List Scope) : KeptBy S (S ++ T) := by
  induction S with
  | nil => exact nil T
  | cons s S ih => exact ih.cons s

theorem add (s : Scope) (p : TypeParameter) : KeptBy [s] [s.add p] := by
  intro name found h
  cases hs : s.find? name with
  | none =>
      rw [locate?, bound?, hs] at h
      cases h
  | some q =>
      have hf : (s.add p).find? name = some q := by
        rw [find?, Scope.add, List.find?_append]
        exact congrArg (Option.or · _) hs
      rw [locate?, bound?, hf]
      rw [locate?, bound?, hs] at h
      exact h

theorem declare (p : TypeParameter) (S : List Scope) : KeptBy S (Scope.declare p S) := by
  fun_induction Scope.declare p S with
  | case1 => exact nil _
  | case2 s => exact add s p
  | case3 s outer _ ih => exact ih.cons s

end KeptBy

inductive GrowsTo (S : List Scope) : List Scope → Prop
  | same : GrowsTo S S
  | outermost (scope : Scope) : GrowsTo S (S ++ [scope])
  | parameter (p : TypeParameter) : GrowsTo S (declare p S)

theorem GrowsTo.keptBy {S T : List Scope} (h : GrowsTo S T) : KeptBy S T := by
  cases h with
  | same => exact .refl S
  | outermost scope => exact .append S [scope]
  | parameter p => exact .declare p S

end Scope

namespace Session

def Command.Grows : Command → Prop
  | .popScope => False
  | _ => True

def after (s : Session) (commands : List Command) : Session :=
  commands.foldl (fun s c => (s.run c).1) s

theorem grows_of_bind {α : Type} {s : Session} {c : Command} {x : Logged Failure α}
    {f : α → Session × Reply} (hc : s.attempt c = x >>= fun a => pure (f a))
    (hf : ∀ a, (f a).1.scopes = s.scopes) : Scope.GrowsTo s.scopes (s.run c).1.scopes := by
  rw [run, hc]
  cases hx : x.result with
  | error e =>
      rw [Logged.bind_of_error hx]
      exact .same
  | ok a =>
      rw [Logged.bind_of_ok hx]
      simp only [pure, hf a]
      exact .same

theorem grows_of_run {s : Session} {c : Command} (hc : c.Grows) :
    Scope.GrowsTo s.scopes (s.run c).1.scopes := by
  cases c with
  | pushScope scope => exact .outermost scope
  | popScope => exact hc.elim
  | declare p => exact .parameter p
  | configure settings => exact .same
  | configureFrom read? => cases read? <;> exact .same
  | resolve t => exact grows_of_bind rfl fun _ => rfl
  | resolveLast => exact grows_of_bind rfl fun _ => rfl
  | infer parameters result => exact grows_of_bind rfl fun _ => rfl
  | signatures => exact .same
  | state => exact .same

theorem keptBy_after (s : Session) {commands : List Command} (h : ∀ c ∈ commands, c.Grows) :
    Scope.KeptBy s.scopes (s.after commands).scopes := by
  induction commands generalizing s with
  | nil => exact .refl s.scopes
  | cons c commands ih =>
      have hc : Scope.KeptBy s.scopes (s.run c).1.scopes :=
        (grows_of_run (h c (List.mem_cons_self ..))).keptBy
      exact hc.trans (ih (s.run c).1 fun d hd => h d (List.mem_cons_of_mem _ hd))

end Session

namespace Resolver

theorem resolve_keptBy {r s : Resolver} (hk : Scope.KeptBy r.scopes s.scopes) {t : Ty}
    (ht : ∀ name, t.lookedUp? = some name → Scope.Declares r.scopes name) :
    ∃ u, r.ResolvesTo t u ∧ s.resolve t = r.resolve t := by
  cases hv : t.lookedUp? with
  | none =>
      have hr := resolve_of_no_lookup hv r
      exact ⟨t, congrArg Logged.result hr, (resolve_of_no_lookup hv s).trans hr.symm⟩
  | some name =>
      obtain ⟨depth, p, hp⟩ := Scope.declaredAt_of_declares (ht name hv)
      have hu := Scope.locate?_of_declaredAt hp
      have hr := resolve_of_located hv hu
      have hs := resolve_of_located (r := s) hv (hk name _ hu)
      exact ⟨p.bound.arrayOf t.dimensions, congrArg Logged.result hr, hs.trans hr.symm⟩

theorem inferTypeSpec_keptBy {r s : Resolver} (hk : Scope.KeptBy r.scopes s.scopes) {m : MethodType}
    (hm : ∀ t ∈ m.parameters ++ [m.result], ∀ name, t.lookedUp? = some name →
      Scope.Declares r.scopes name) :
    ∃ d, (r.inferTypeSpec m).result = .ok d ∧ s.inferTypeSpec m = r.inferTypeSpec m := by
  have ht (t : Ty) (hmem : t ∈ m.parameters ++ [m.result]) := resolve_keptBy hk (hm t hmem)
  have he : s.inferTypeSpec m = r.inferTypeSpec m := by
    refine inferTypeSpec_congr fun t hmem => ?_
    obtain ⟨-, -, h⟩ := ht t hmem
    exact h
  obtain ⟨d, hd⟩ : ∃ d, (r.inferTypeSpec m).result = .ok d := by
    refine inferTypeSpec_ok fun t hmem => ?_
    obtain ⟨u, hu, -⟩ := ht t hmem
    exact ⟨u, hu⟩
  exact ⟨d, hd, he⟩

end Resolver

namespace Session

def resolverUnder (s : Session) (settings : Settings) : Resolver := s.resolver.withSettings settings

theorem outer_growth_keeps_bindings :
    (∀ (s : Session) (t : Ty) (name : String), t.lookedUp? = some name →
      Scope.Declares s.scopes name → ∃ u depth, ∀ commands, (∀ c ∈ commands, Command.Grows c) →
        ∀ settings, ((s.after commands).resolverUnder settings).resolve t =
          ⟨.ok u, [.declared name depth]⟩) ∧
    (∀ (s : Session) (m : MethodType), (∀ t ∈ m.parameters ++ [m.result], ∀ name,
        t.lookedUp? = some name → Scope.Declares s.scopes name) →
      ∃ d events, ∀ commands, (∀ c ∈ commands, Command.Grows c) →
        ∀ settings, ((s.after commands).resolverUnder settings).inferTypeSpec m =
          ⟨.ok d, events⟩) := by
  constructor
  · intro s t name ht hd
    obtain ⟨depth, p, hp⟩ := Scope.declaredAt_of_declares hd
    refine ⟨p.bound.arrayOf t.dimensions, depth, fun commands hc settings => ?_⟩
    exact Resolver.resolve_of_located ht
      (keptBy_after s hc name _ (Scope.locate?_of_declaredAt hp))
  · intro s m hm
    obtain ⟨d, hd, -⟩ := Resolver.inferTypeSpec_keptBy (.refl s.resolver.scopes) hm
    refine ⟨d, (s.resolver.inferTypeSpec m).events, fun commands hc settings => ?_⟩
    obtain ⟨-, -, he⟩ := Resolver.inferTypeSpec_keptBy (r := s.resolver)
      (s := (s.after commands).resolverUnder settings) (keptBy_after s hc) hm
    rw [he, ← hd]

theorem outer_growth_keeps_bindings_redeclared :
    let s : Session := ⟨[⟨[.bounded "T" [.named "A"]]⟩], .default, .object⟩
    let t : Ty := .array (.generic (.var "T"))
    let commands : List Command :=
      [.declare (.bounded "T" []), .pushScope ⟨[.bounded "T" [.named "B"]]⟩, .resolve t,
        .configure .strict, .declare (.bounded "T" [.named "C"])]
    let later : Resolver := (s.after commands).resolverUnder .strict
    t.lookedUp? = some "T" ∧ Scope.Declares s.scopes "T" ∧ (∀ c ∈ commands, c.Grows) ∧
    later.scopes ≠ s.scopes ∧
    later.resolve t = ⟨.ok (.array (.named "A")), [.declared "T" 0]⟩ ∧
    later.inferTypeSpec ⟨[t], .object⟩ = s.resolver.inferTypeSpec ⟨[t], .object⟩ := by
  intro s t commands later
  have hv : t.lookedUp? = some "T" := rfl
  have hd : Scope.Declares s.scopes "T" := ⟨_, List.mem_cons_self .., _, List.mem_cons_self .., rfl⟩
  have hc : ∀ c ∈ commands, c.Grows := by simp [commands, Command.Grows]
  have hn : later.scopes ≠ s.scopes := by decide
  obtain ⟨u, depth, hr⟩ := outer_growth_keeps_bindings.1 s t "T" hv hd
  have h0 : s.resolver.resolve t = ⟨.ok (.array (.named "A")), [.declared "T" 0]⟩ := rfl
  have hm : ∀ v ∈ [t] ++ [Ty.object], ∀ name, v.lookedUp? = some name →
      Scope.Declares s.scopes name := by
    have ho : Ty.object.lookedUp? = none := rfl
    simp [hv, hd, ho]
  obtain ⟨d, events, hi⟩ := outer_growth_keeps_bindings.2 s ⟨[t], .object⟩ hm
  exact ⟨hv, hd, hc, hn, (hr commands hc .strict).trans ((hr [] (by simp) .default).symm.trans h0),
    (hi commands hc .strict).trans (hi [] (by simp) .default).symm⟩

end Session

end ClassfileTypes
