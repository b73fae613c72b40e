import ClassfileTypes.Json.Model
import ClassfileTypes.Proofs.JsonRecord

namespace ClassfileTypes

theorem Primitive.ofKeyword?_eq_some_iff {word : String} {k : Primitive} :
    ofKeyword? word = some k ↔ k.keyword = word := by
  constructor
  · intro h
    exact keyword_of_ofKeyword? h
  · rintro rfl
    exact ofKeyword?_keyword k

theorem Variance.ofWord?_eq_some_iff {word : String} {v : Variance} :
    ofWord? word = some v ↔ v.word = word := by
  constructor
  · intro h
    unfold ofWord? at h
    split at h <;> cases h <;> rfl
  · rintro rfl
    cases v <;> rfl

theorem Json.choice?_bind_eq_some_iff {α : Type} {read : String → Option α} {word : α → String}
    (h : ∀ {w : String} {a : α}, read w = some a ↔ word a = w) {j : Json} {a : α} :
    j.choice?.bind read = some a ↔ j.Names (word a) := by
  rw [← Json.choice?_eq_some_iff]
  simp [Option.bind_eq_some_iff, h]

theorem Primitive.ofJson?_eq_some_iff {j : Json} {k : Primitive} :
    ofJson? j = some k ↔ j.Names k.keyword :=
  Json.choice?_bind_eq_some_iff ofKeyword?_eq_some_iff

theorem Variance.ofJson?_eq_some_iff {j : Json} {v : Variance} :
    ofJson? j = some v ↔ j.Names v.word :=
  Json.choice?_bind_eq_some_iff ofWord?_eq_some_iff

theorem UndeclaredPolicy.ofJson?_eq_some_iff {j : Json} {p : UndeclaredPolicy} :
    ofJson? j = some p ↔ j.Names p.word :=
  Json.choice?_bind_eq_some_iff ofWord?_eq_some_iff

namespace Ty

theorem ofJson?_cases {j : Json} {t : Ty} :
    ofJson? j = some t ↔
      (∃ i k, j = .object [("Primitive", i)] ∧ Primitive.ofJson? i = some k ∧ t = .primitive k) ∨
      (∃ i c, j = .object [("Array", i)] ∧ ofJson? i = some c ∧ t = .array c) ∨
      (∃ name, j = .object [("Class", .string name)] ∧ t = .named name) ∨
      (∃ i g, j = .object [("Generic", i)] ∧ useOfJson? i = some g ∧ t = .generic g) := by
  constructor
  · intro h
    unfold ofJson? at h
    split at h
    · split at h
      · obtain ⟨k, hk, rfl⟩ := Option.map_eq_some_iff.mp h
        exact .inl ⟨_, k, rfl, hk, rfl⟩
      · obtain ⟨c, hc, rfl⟩ := Option.map_eq_some_iff.mp h
        exact .inr (.inl ⟨_, c, rfl, hc, rfl⟩)
      · obtain ⟨name, hn, rfl⟩ := Option.map_eq_some_iff.mp h
        rw [Json.string?_eq_some_iff.mp hn]
        exact .inr (.inr (.inl ⟨name, rfl, rfl⟩))
      · obtain ⟨g, hg, rfl⟩ := Option.map_eq_some_iff.mp h
        exact .inr (.inr (.inr ⟨_, g, rfl, hg, rfl⟩))
      · cases h
    · cases h
  · rintro (⟨i, k, rfl, hk, rfl⟩ | ⟨i, c, rfl, hc, rfl⟩ | ⟨name, rfl, rfl⟩ | ⟨i, g, rfl, hg, rfl⟩)
    · simp [ofJson?, hk]
    · simp [ofJson?, hc]
    · rfl
    · simp [ofJson?, hg]

theorem ofJson?_eq_primitive_iff {j : Json} {k : Primitive} :
    ofJson? j = some (.primitive k) ↔
      ∃ i, j = .object [("Primitive", i)] ∧ Primitive.ofJson? i = some k := by
  rw [ofJson?_cases]
  simp

theorem ofJson?_eq_array_iff {j : Json} {c : Ty} :
    ofJson? j = some (.array c) ↔ ∃ i, j = .object [("Array", i)] ∧ ofJson? i = some c := by
  rw [ofJson?_cases]
  simp

theorem ofJson?_eq_named_iff {j : Json} {name : String} :
    ofJson? j = some (.named name) ↔ j = .object [("Class", .string name)] := by
  rw [ofJson?_cases]
  simp

theorem ofJson?_eq_generic_iff {j : Json} {g : GenericUse Ty} :
    ofJson? j = some (.generic g) ↔ ∃ i, j = .object [("Generic", i)] ∧ useOfJson? i = some g := by
  rw [ofJson?_cases]
  simp

theorem tyField?_eq (key : String) (fields : List (String × Json)) :
    tyField? key fields = (Json.field? key fields).bind ofJson? :=
  Json.eq_field?_bind rfl (fun _ _ _ => by rw [tyField?]) fields

theorem boundsField?_eq (key : String) (fields : List (String × Json)) :
    boundsField? key fields = (Json.field? key fields).bind boundsOfJson? :=
  Json.eq_field?_bind rfl (fun _ _ _ => by rw [boundsField?]) fields

theorem boundsOfItems?_eq (items : List Json) : boundsOfItems? items = items.mapM boundOfJson? := by
  induction items with
  | nil => rfl
  | cons j items ih => rw [boundsOfItems?, ih, List.mapM_cons]

theorem boundsOfJson?_eq (j : Json) : boundsOfJson? j = j.listOf? boundOfJson? := by
  cases j with
  | array items => exact boundsOfItems?_eq items
  | _ => rfl

theorem useOfJson?_eq_some_iff {j : Json} {g : GenericUse Ty} :
    useOfJson? j = some g ↔ ∃ bs e,
      (Json.Shape.ofFields ["name", "is_type", "is_wildcard", "bounds", "erasure"]).values? j =
        some [.string g.name, .bool g.resolved, .bool g.wildcard, bs, e] ∧
      bs.listOf? boundOfJson? = some g.bounds ∧ ofJson? e = some g.erasure := by
  cases j with
  | object fields =>
      simp only [useOfJson?, tyField?_eq, boundsField?_eq, boundsOfJson?_eq, Option.bind_eq_bind,
        Option.bind_eq_some_iff, Option.pure_def, Option.some.injEq, Json.string?_eq_some_iff,
        Json.bool?_eq_some_iff, Json.Shape.values?_ofFields_object, List.forall₂_cons]
      constructor
      · rintro ⟨_, hn, _, rfl, _, hr, _, rfl, _, hw, _, rfl, _, ⟨bs, hb, hbs⟩, _, ⟨e, he, hty⟩, rfl⟩
        exact ⟨bs, e, ⟨hn, hr, hw, hb, he, .nil⟩, hbs, hty⟩
      · rintro ⟨bs, e, ⟨hn, hr, hw, hb, he, -⟩, hbs, hty⟩
        exact ⟨_, hn, _, rfl, _, hr, _, rfl, _, hw, _, rfl, _, ⟨bs, hb, hbs⟩, _, ⟨e, he, hty⟩, rfl⟩
  | array items =>
      constructor
      · intro h
        unfold useOfJson? at h
        split at h
        · next hj => cases hj
        · next hj =>
            cases hj
            simp only [boundsOfJson?_eq, Option.bind_eq_bind, Option.bind_eq_some_iff,
              Option.pure_def, Option.some.injEq, Json.string?_eq_some_iff,
              Json.bool?_eq_some_iff] at h
            obtain ⟨_, rfl, _, rfl, _, rfl, _, hbs, _, hty, rfl⟩ := h
            exact ⟨_, _, Json.Shape.values?_ofFields_array.mpr ⟨rfl, rfl⟩, hbs, hty⟩
        · cases h
      · rintro ⟨bs, e, hf, hbs, hty⟩
        obtain ⟨-, rfl⟩ := Json.Shape.values?_ofFields_array.mp hf
        simp [useOfJson?, boundsOfJson?_eq, hbs, hty, Json.string?, Json.bool?]
  | null | bool c | number m e | string s => simp [useOfJson?, Json.Shape.values?]

theorem boundOfJson?_eq_some_iff {j : Json} {b : Bound Ty} :
    boundOfJson? j = some b ↔ ∃ v t,
      (Json.Shape.ofFields ["kind", "ty"]).values? j = some [v, t] ∧
      Variance.ofJson? v = some b.variance ∧ ofJson? t = some b.ty := by
  cases j with
  | object fields =>
      simp only [boundOfJson?, tyField?_eq, Option.bind_eq_bind, Option.bind_eq_some_iff,
        Option.pure_def, Option.some.injEq, Json.Shape.values?_ofFields_object, List.forall₂_cons]
      constructor
      · rintro ⟨v, hv, variance, hr, ty, ⟨t, ht, hty⟩, rfl⟩
        exact ⟨v, t, ⟨hv, ht, .nil⟩, hr, hty⟩
      · rintro ⟨v, t, ⟨hv, ht, -⟩, hr, hty⟩
        exact ⟨v, hv, _, hr, _, ⟨t, ht, hty⟩, rfl⟩
  | array items =>
      constructor
      · intro h
        unfold boundOfJson? at h
        split at h
        · next hj => cases hj
        · next hj =>
            cases hj
            simp only [Option.bind_eq_bind, Option.bind_eq_some_iff, Option.pure_def,
              Option.some.injEq] at h
            obtain ⟨_, hr, _, hty, rfl⟩ := h
            exact ⟨_, _, Json.Shape.values?_ofFields_array.mpr ⟨rfl, rfl⟩, hr, hty⟩
        · cases h
      · rintro ⟨v, t, hf, hr, hty⟩
        obtain ⟨-, rfl⟩ := Json.Shape.values?_ofFields_array.mp hf
        simp [boundOfJson?, hr, hty]
  | null | bool c | number m e | string s => simp [boundOfJson?, Json.Shape.values?]

end Ty

section Records

open Option (bind_eq_some_iff)
open Json (string?_eq_some_iff bool?_eq_some_iff)

variable {j : Json}

theorem Parameter.ofJson?_eq_some_iff {p : Parameter} :
    ofJson? j = some p ↔ ∃ t,
      (Json.Shape.ofFields ["name", "ty"]).values? j = some [.string p.name, t] ∧
      Ty.ofJson? t = some p.ty := by
  obtain ⟨name, ty⟩ := p
  unfold ofJson?
  split
  · next hv => simp [hv, bind_eq_some_iff, string?_eq_some_iff]
  · next hn =>
      refine iff_of_false nofun ?_
      rintro ⟨_, hv, -⟩
      exact hn _ _ hv

theorem MethodType.ofJson?_eq_some_iff {m : MethodType} :
    ofJson? j = some m ↔ ∃ ps t,
      (Json.Shape.ofFields ["parameter_types", "return_type"]).values? j = some [ps, t] ∧
      ps.listOf? Ty.ofJson? = some m.parameters ∧ Ty.ofJson? t = some m.result := by
  obtain ⟨parameters, result⟩ := m
  unfold ofJson?
  split
  · next hv => simp [hv, bind_eq_some_iff]
  · next hn =>
      refine iff_of_false nofun ?_
      rintro ⟨_, _, hv, -⟩
      exact hn _ _ hv

theorem TypeParameter.ofJson?_eq_some_iff {p : TypeParameter} :
    ofJson? j = some p ↔ ∃ bs,
      shape.values? j = some [.string p.name, bs, .bool p.interfacesOnly] ∧
      bs.listOf? Ty.ofJson? = some p.bounds := by
  obtain ⟨name, bounds, interfacesOnly⟩ := p
  unfold ofJson?
  split
  · next hv =>
      cases interfacesOnly <;>
        simp [hv, bind_eq_some_iff, string?_eq_some_iff, bool?_eq_some_iff, and_assoc, and_comm,
          and_left_comm]
  · next hn =>
      refine iff_of_false nofun ?_
      rintro ⟨_, hv, -⟩
      exact hn _ _ _ hv

theorem Scope.ofJson?_eq_some_iff {s : Scope} :
    ofJson? j = some s ↔ ∃ ps,
      (Json.Shape.ofFields ["type_parameters"]).values? j = some [ps] ∧
      ps.listOf? TypeParameter.ofJson? = some s.parameters := by
  obtain ⟨parameters⟩ := s
  unfold ofJson?
  split
  · next hv => simp [hv]
  · next hn =>
      refine iff_of_false nofun ?_
      rintro ⟨_, hv, -⟩
      exact hn _ hv

theorem ClassDecl.ofJson?_eq_some_iff {d : ClassDecl} :
    ofJson? j = some d ↔ ∃ s,
      (Json.Shape.ofFields ["name", "generic_signature"]).values? j = some [.string d.name, s] ∧
      Scope.ofJson? s = some d.scope := by
  obtain ⟨name, scope⟩ := d
  unfold ofJson?
  split
  · next hv => simp [hv, bind_eq_some_iff, string?_eq_some_iff]
  · next hn =>
      refine iff_of_false nofun ?_
      rintro ⟨_, hv, -⟩
      exact hn _ _ hv

theorem MethodDecl.ofJson?_eq_some_iff {d : MethodDecl} :
    ofJson? j = some d ↔ ∃ s ps t,
      shape.values? j = some [.string d.name, s, ps, t] ∧ Scope.ofJson? s = some d.scope ∧
      ps.listOf? Parameter.ofJson? = some d.parameters ∧ Ty.ofJson? t = some d.result := by
  obtain ⟨name, scope, parameters, result⟩ := d
  unfold ofJson?
  split
  · next hv => simp [hv, bind_eq_some_iff, string?_eq_some_iff]
  · next hn =>
      refine iff_of_false nofun ?_
      rintro ⟨_, _, _, hv, -⟩
      exact hn _ _ _ _ hv

theorem Settings.ofJson?_eq_some_iff {s : Settings} :
    ofJson? j = some s ↔ ∃ p,
      shape.values? j = some [p] ∧ UndeclaredPolicy.ofJson? p = some s.undeclared := by
  obtain ⟨undeclared⟩ := s
  unfold ofJson?
  split
  · next hv => simp [hv]
  · next hn =>
      refine iff_of_false nofun ?_
      rintro ⟨_, hv, -⟩
      exact hn _ hv

end Records

end ClassfileTypes
