import ClassfileTypes.Proofs.Lockstep
import ClassfileTypes.Proofs.ScopeLookup

namespace ClassfileTypes

namespace Scope

def SameDeclarations (S T : List Scope) : Prop := ∀ name, declared? name S = declared? name T

theorem declared?_of_flatten {S : List Scope} {before after : List TypeParameter}
    {p : TypeParameter} (hS : flatten S = before ++ p :: after)
    (hb : ∀ q ∈ before, q.name ≠ p.name) : declared? p.name S = some p := by
  have hn : before.find? (fun q => q.name == p.name) = none := by
    rw [List.find?_eq_none]
    intro q hq
    simp [hb q hq]
  rw [declared?, hS, List.find?_append, hn]
  simp

theorem sameDeclarations_of_flatten {S T : List Scope} (h : flatten S = flatten T) :
    SameDeclarations S T := by
  intro name
  rw [declared?, declared?, h]

theorem sameDeclarations_merged (S : List Scope) : SameDeclarations S [⟨flatten S⟩] :=
  sameDeclarations_of_flatten (by simp [flatten])

theorem sameDeclarations_empty (S T : List Scope) : SameDeclarations (S ++ T) (S ++ empty :: T) :=
  sameDeclarations_of_flatten (by simp [flatten, empty])

theorem sameDeclarations_shadowed {S T : List Scope} {before after : List TypeParameter}
    {p q : TypeParameter} (hS : flatten S = before ++ p :: after)
    (hT : flatten T = before ++ after) (hq : q ∈ before) (hn : q.name = p.name) :
    SameDeclarations S T := by
  intro name
  rw [declared?, declared?, hS, hT, List.find?_append, List.find?_append, List.find?_cons]
  by_cases hp : p.name = name
  · have hb : (before.find? fun p => p.name == name).isSome := by
      rw [List.find?_isSome]
      exact ⟨q, hq, by simp [hn, hp]⟩
    obtain ⟨b, hb⟩ := Option.isSome_iff_exists.mp hb
    rw [hb]
    rfl
  · rw [beq_false_of_ne hp]

theorem sameDeclarations_swapped {S T : List Scope}
    (h : ∀ p ∈ flatten S, ∀ q ∈ flatten T, p.name ≠ q.name) (inner outer : List Scope) :
    SameDeclarations (inner ++ (S ++ T) ++ outer) (inner ++ (T ++ S) ++ outer) := by
  intro name
  have hst : ((flatten S).find? fun p => p.name == name).or
      ((flatten T).find? fun p => p.name == name) =
      ((flatten T).find? fun p => p.name == name).or
        ((flatten S).find? fun p => p.name == name) := by
    cases hs : (flatten S).find? fun p => p.name == name with
    | none => simp
    | some p =>
        cases ht : (flatten T).find? fun p => p.name == name with
        | none => rfl
        | some q =>
            have hp : p.name = name := by simpa using List.find?_some hs
            have hq : q.name = name := by simpa using List.find?_some ht
            exact absurd (hp.trans hq.symm)
              (h p (List.mem_of_find?_eq_some hs) q (List.mem_of_find?_eq_some ht))
  simp only [declared?, flatten_append, List.find?_append, hst]

end Scope

def Event.forgetDepth : Event → Event
  | .declared name _ => .declared name 0
  | .erased name => .erased name

def Logged.AlikeButDepth (α : Type) (x y : Logged Undeclared α) : Prop :=
  x.result = y.result ∧ x.events.map Event.forgetDepth = y.events.map Event.forgetDepth

theorem Logged.alikeButDepth_sequential : Logged.Sequential Logged.AlikeButDepth where
  pure a := ⟨rfl, rfl⟩
  bind {α β x y f g} h hf := by
    obtain ⟨hr, he⟩ := h
    cases hx : x.result with
    | error e =>
        rw [bind_of_error hx, bind_of_error (hr ▸ hx)]
        exact ⟨rfl, he⟩
    | ok a =>
        rw [bind_of_ok hx, bind_of_ok (hr ▸ hx)]
        exact ⟨(hf a).1, by simp [he, (hf a).2]⟩

namespace Resolver

variable {S T : List Scope}

theorem substitute_alike (h : Scope.SameDeclarations S T) (settings : Settings)
    (g : GenericUse Ty) :
    Logged.AlikeButDepth Ty ((⟨S, settings⟩ : Resolver).substitute g)
      ((⟨T, settings⟩ : Resolver).substitute g) := by
  have hl : (Scope.locate? g.name S).map Prod.snd = (Scope.locate? g.name T).map Prod.snd := by
    rw [Scope.locate?_map_snd, Scope.locate?_map_snd, h g.name]
  unfold substitute
  cases hS : Scope.locate? g.name S with
  | none =>
      rw [hS] at hl
      rw [Option.map_eq_none_iff.mp hl.symm]
      exact ⟨rfl, rfl⟩
  | some a =>
      rw [hS] at hl
      obtain ⟨b, hT, ht⟩ := Option.map_eq_some_iff.mp hl.symm
      rw [hT]
      exact ⟨congrArg Except.ok ht.symm, rfl⟩

theorem resolve_of_declared {r : Resolver} {g : GenericUse Ty} {p : TypeParameter}
    (h : Scope.declared? g.name r.scopes = some p) (hg : g.resolved = false) :
    (r.resolve (.generic g)).result = .ok p.bound := by
  obtain ⟨depth, hl⟩ := Scope.locate?_of_declared? h
  rw [resolve_of_variable r hg, substitute, hl]
  rfl

theorem lookup_ignores_scope_boundaries :
    (∀ S T : List Scope, Scope.SameDeclarations S T → ∀ settings : Settings,
      (∀ t, Logged.AlikeButDepth Ty ((⟨S, settings⟩ : Resolver).resolve t)
        ((⟨T, settings⟩ : Resolver).resolve t)) ∧
      ∀ m, Logged.AlikeButDepth String ((⟨S, settings⟩ : Resolver).inferTypeSpec m)
        ((⟨T, settings⟩ : Resolver).inferTypeSpec m)) ∧
    (∀ S : List Scope, Scope.SameDeclarations S [⟨Scope.flatten S⟩]) ∧
    (∀ S T : List Scope, Scope.SameDeclarations (S ++ T) (S ++ .empty :: T)) ∧
    (∀ (S T : List Scope) (before after : List TypeParameter) (p q : TypeParameter),
      Scope.flatten S = before ++ p :: after → Scope.flatten T = before ++ after → q ∈ before →
      q.name = p.name → Scope.SameDeclarations S T) ∧
    (∀ inner S T outer : List Scope,
      (∀ p ∈ Scope.flatten S, ∀ q ∈ Scope.flatten T, p.name ≠ q.name) →
      Scope.SameDeclarations (inner ++ (S ++ T) ++ outer) (inner ++ (T ++ S) ++ outer)) ∧
    (∀ (S : List Scope) (before after : List TypeParameter) (p : TypeParameter),
      Scope.flatten S = before ++ p :: after → (∀ q ∈ before, q.name ≠ p.name) → p.bounds = [] →
      ∀ (settings : Settings) (g : GenericUse Ty), g.name = p.name → g.resolved = false →
      ((⟨S, settings⟩ : Resolver).resolve (.generic g)).result = .ok .object) := by
  refine ⟨?_, Scope.sameDeclarations_merged, Scope.sameDeclarations_empty, ?_, ?_, ?_⟩
  · intro S T h settings
    have hg := substitute_alike h settings
    exact ⟨resolve_lockstep Logged.alikeButDepth_sequential hg,
      inferTypeSpec_lockstep Logged.alikeButDepth_sequential hg⟩
  · intro S T before after p q hS hT hq hn
    exact Scope.sameDeclarations_shadowed hS hT hq hn
  · intro inner S T outer h
    exact Scope.sameDeclarations_swapped h inner outer
  · intro S before after p hS hb hp settings g hn hr
    have hd : Scope.declared? g.name S = some p := by
      rw [hn]
      exact Scope.declared?_of_flatten hS hb
    have ho : p.bound = .object := by rw [TypeParameter.bound, hp, List.head?_nil, Option.getD_none]
    rw [resolve_of_declared hd hr, ho]

theorem lookup_ignores_scope_boundaries_shadowed :
    let t : TypeParameter := .bounded "T" []
    let u : TypeParameter := .bounded "U" [.named "A"]
    let hidden : TypeParameter := .interfaceBounded "T" [.named "B"]
    let split : Resolver := ⟨[⟨[t]⟩, ⟨[hidden, u]⟩], .strict⟩
    let merged : Resolver := ⟨[⟨[t, u]⟩], .strict⟩
    let m : MethodType := ⟨[.array (.generic (.var "T"))], .generic (.var "U")⟩
    Scope.SameDeclarations split.scopes merged.scopes ∧
    Logged.AlikeButDepth String (split.inferTypeSpec m) (merged.inferTypeSpec m) ∧
    (split.inferTypeSpec m).events = [.declared "T" 0, .declared "U" 1] ∧
    (merged.inferTypeSpec m).events = [.declared "T" 0, .declared "U" 0] ∧
    Scope.SameDeclarations [⟨[t]⟩, ⟨[u]⟩] [⟨[u]⟩, ⟨[t]⟩] ∧
    (split.resolve (.generic (.var "T"))).result = .ok .object := by
  intro t u hidden split merged m
  obtain ⟨hsame, -, -, hdelete, hswap, hfirst⟩ := lookup_ignores_scope_boundaries
  have hs : Scope.SameDeclarations split.scopes merged.scopes :=
    hdelete split.scopes merged.scopes [t] [u] hidden t rfl rfl (by simp) rfl
  have hw : Scope.SameDeclarations [⟨[t]⟩, ⟨[u]⟩] [⟨[u]⟩, ⟨[t]⟩] :=
    hswap [] [⟨[t]⟩] [⟨[u]⟩] [] (by decide)
  exact ⟨hs, (hsame _ _ hs .strict).2 m, by rfl, by rfl, hw,
    hfirst split.scopes [] [hidden, u] t rfl (by simp) rfl .strict (.var "T") rfl rfl⟩

end Resolver

end ClassfileTypes
