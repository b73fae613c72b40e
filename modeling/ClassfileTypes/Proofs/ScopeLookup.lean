import ClassfileTypes.Resolution.Basic

namespace ClassfileTypes

namespace Scope

def flatten (scopes : List Scope) : List TypeParameter := scopes.flatMap Scope.parameters

def declared? (name : String) (scopes : List Scope) : Option TypeParameter :=
  (flatten scopes).find? fun p => p.name == name

def Declares (scopes : List Scope) (name : String) : Prop :=
  ∃ s ∈ scopes, ∃ p ∈ s.parameters, p.name = name

def First (s : Scope) (name : String) (p : TypeParameter) : Prop :=
  p.name = name ∧ ∃ before after, s.parameters = before ++ p :: after ∧
    ∀ q ∈ before, q.name ≠ name

def DeclaredAt (scopes : List Scope) (name : String) (depth : Nat) (p : TypeParameter) : Prop :=
  ∃ inner s outer, scopes = inner ++ s :: outer ∧ inner.length = depth ∧
    ¬ Declares inner name ∧ s.First name p

theorem flatten_append (S T : List Scope) : flatten (S ++ T) = flatten S ++ flatten T :=
  List.flatMap_append

theorem not_declares_iff {scopes : List Scope} {name : String} :
    ¬ Declares scopes name ↔ declared? name scopes = none := by
  simp [Declares, declared?, flatten]

theorem not_declares_nil (name : String) : ¬ Declares [] name := by
  simp [Declares]

theorem not_declares_cons {s : Scope} {outer : List Scope} {name : String} :
    ¬ Declares (s :: outer) name ↔ s.bound? name = none ∧ ¬ Declares outer name := by
  simp [Declares, bound?_eq_none_iff]

theorem locate?_map_snd (name : String) (scopes : List Scope) :
    (locate? name scopes).map Prod.snd = (declared? name scopes).map TypeParameter.bound := by
  induction scopes with
  | nil => rfl
  | cons s outer ih =>
      have hd : declared? name (s :: outer) = (s.find? name).or (declared? name outer) := by
        rw [declared?, flatten, List.flatMap_cons, List.find?_append]
        rfl
      rw [locate?, bound?, hd]
      cases s.find? name with
      | some p => rfl
      | none =>
          rw [Option.none_or, ← ih]
          cases locate? name outer <;> rfl

theorem locate?_eq_none_iff {name : String} {scopes : List Scope} :
    locate? name scopes = none ↔ declared? name scopes = none := by
  have hl := locate?_map_snd name scopes
  rw [← Option.map_eq_none_iff (f := Prod.snd), hl, Option.map_eq_none_iff]

theorem locate?_of_declared? {name : String} {scopes : List Scope} {p : TypeParameter}
    (h : declared? name scopes = some p) :
    ∃ depth, locate? name scopes = some (depth, p.bound) := by
  have hl := locate?_map_snd name scopes
  rw [h] at hl
  obtain ⟨⟨depth, t⟩, hf, rfl⟩ := Option.map_eq_some_iff.mp hl
  exact ⟨depth, hf⟩

theorem locate?_append {inner : List Scope} {name : String} (h : ¬ Declares inner name)
    (outer : List Scope) :
    locate? name (inner ++ outer) =
      (locate? name outer).map fun (depth, t) => (depth + inner.length, t) := by
  induction inner with
  | nil => simp
  | cons s inner ih =>
      obtain ⟨hs, hn⟩ := not_declares_cons.mp h
      rw [List.cons_append, locate?, hs, ih hn]
      simp only [Option.map_map]
      rfl

theorem find?_eq_some_iff_first {s : Scope} {name : String} {p : TypeParameter} :
    s.find? name = some p ↔ s.First name p := by
  simp [find?, First, List.find?_eq_some_iff_append]

theorem DeclaredAt.outer {scopes : List Scope} {name : String} {depth : Nat} {p : TypeParameter}
    (h : DeclaredAt scopes name depth p) {s : Scope} (hs : s.bound? name = none) :
    DeclaredAt (s :: scopes) name (depth + 1) p := by
  obtain ⟨inner, u, outer, rfl, rfl, hn, hp⟩ := h
  exact ⟨s :: inner, u, outer, rfl, rfl, not_declares_cons.mpr ⟨hs, hn⟩, hp⟩

theorem locate?_of_declaredAt {scopes : List Scope} {name : String} {depth : Nat}
    {p : TypeParameter} (h : DeclaredAt scopes name depth p) :
    locate? name scopes = some (depth, p.bound) := by
  obtain ⟨inner, s, outer, rfl, rfl, hn, hs⟩ := h
  have hb : s.bound? name = some p.bound := by rw [bound?, find?_eq_some_iff_first.mpr hs]; rfl
  rw [locate?_append hn, locate?, hb]
  simp

theorem declaredAt_of_declares {scopes : List Scope} {name : String}
    (h : Declares scopes name) : ∃ depth p, DeclaredAt scopes name depth p := by
  induction scopes with
  | nil => exact absurd h (not_declares_nil name)
  | cons s outer ih =>
      cases hs : s.find? name with
      | some p =>
          exact ⟨0, p, [], s, outer, rfl, rfl, not_declares_nil name,
            find?_eq_some_iff_first.mp hs⟩
      | none =>
          have hb : s.bound? name = none := by rw [bound?, hs]; rfl
          have ho : Declares outer name :=
            Classical.not_not.mp fun hn => not_declares_cons.mpr ⟨hb, hn⟩ h
          obtain ⟨depth, p, hp⟩ := ih ho
          exact ⟨depth + 1, p, hp.outer hb⟩

end Scope

end ClassfileTypes
