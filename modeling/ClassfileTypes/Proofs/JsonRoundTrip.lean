import ClassfileTypes.Proofs.JsonReading

namespace ClassfileTypes

namespace Json

theorem Shape.values?_written {s : Shape} {fields : List (String × Json)}
    (h : fields.map Prod.fst = s.required ++ s.optional.map Prod.fst)
    (hn : (s.required ++ s.optional.map Prod.fst).Nodup) :
    s.values? (.object fields) = some (fields.map Prod.snd) := by
  obtain ⟨given, rest, rfl, hg, hr⟩ := List.map_eq_append_iff.mp h
  have hm (fs : List (String × Json)) (hs : ∀ f ∈ fs, f ∈ given ++ rest) :
      List.Forall₂ (fun key j => (key, j) ∈ given ++ rest) (fs.map Prod.fst)
        (fs.map Prod.snd) := by
    rw [List.forall₂_map_left_iff, List.forall₂_map_right_iff, List.forall₂_same]
    exact hs
  rw [values?_object_iff (h ▸ hn), List.map_append]
  refine .object (fun _ key hk => h ▸ hk) ?_ ?_
  · rw [← hg]
    exact hm given fun f hf => List.mem_append_left rest hf
  · have ho := hm rest fun f hf => List.mem_append_right given hf
    rw [hr, List.forall₂_map_left_iff] at ho
    exact ho.imp fun f j hf => .inl hf

theorem listOf?_map {α : Type} {read : Json → Option α} {write : α → Json} {as : List α}
    (h : ∀ a ∈ as, read (write a) = some a) :
    (Json.array (as.map write)).listOf? read = some as := by
  rw [listOf?_eq_some_iff]
  exact .array (List.forall₂_map_left_iff.mpr (List.forall₂_same.mpr h))

end Json

theorem Primitive.ofJson?_toJson (k : Primitive) : ofJson? k.toJson = some k :=
  ofJson?_eq_some_iff.mpr .plain

theorem Variance.ofJson?_toJson (v : Variance) : ofJson? v.toJson = some v :=
  ofJson?_eq_some_iff.mpr .plain

theorem UndeclaredPolicy.ofJson?_toJson (p : UndeclaredPolicy) : ofJson? p.toJson = some p :=
  ofJson?_eq_some_iff.mpr .plain

namespace Ty

theorem boundsToJson_eq (bs : List (Bound Ty)) : boundsToJson bs = bs.map boundToJson := by
  induction bs with
  | nil => rfl
  | cons b bs ih => rw [boundsToJson, ih, List.map_cons]

theorem boundToJson_eq (b : Bound Ty) :
    boundToJson b = .object [("kind", b.variance.toJson), ("ty", b.ty.toJson)] := by
  cases b
  rfl

theorem useToJson_eq (g : GenericUse Ty) :
    useToJson g = .object [("name", .string g.name), ("is_type", .bool g.resolved),
      ("is_wildcard", .bool g.wildcard), ("bounds", .array (g.bounds.map boundToJson)),
      ("erasure", g.erasure.toJson)] := by
  rw [← boundsToJson_eq]
  cases g
  rfl

theorem boundOfJson?_toJson_of {b : Bound Ty} (h : ofJson? b.ty.toJson = some b.ty) :
    boundOfJson? (boundToJson b) = some b := by
  rw [boundOfJson?_eq_some_iff, boundToJson_eq]
  exact ⟨_, _, Json.Shape.values?_written rfl (by decide), Variance.ofJson?_toJson _, h⟩

theorem useOfJson?_toJson_of {g : GenericUse Ty}
    (hb : ∀ b ∈ g.bounds, ofJson? b.ty.toJson = some b.ty)
    (he : ofJson? g.erasure.toJson = some g.erasure) :
    useOfJson? (useToJson g) = some g := by
  have hl : (Json.array (g.bounds.map boundToJson)).listOf? boundOfJson? = some g.bounds :=
    Json.listOf?_map fun b hm => boundOfJson?_toJson_of (hb b hm)
  rw [useOfJson?_eq_some_iff, useToJson_eq]
  exact ⟨_, _, Json.Shape.values?_written rfl (by decide), hl, he⟩

theorem ofJson?_toJson (t : Ty) : ofJson? t.toJson = some t := by
  induction t with
  | primitive k => exact ofJson?_eq_primitive_iff.mpr ⟨_, rfl, k.ofJson?_toJson⟩
  | array c ih => exact ofJson?_eq_array_iff.mpr ⟨_, rfl, ih⟩
  | named name => exact ofJson?_eq_named_iff.mpr rfl
  | generic g ihb ihe => exact ofJson?_eq_generic_iff.mpr ⟨_, rfl, useOfJson?_toJson_of ihb ihe⟩

theorem useOfJson?_toJson (g : GenericUse Ty) : useOfJson? (useToJson g) = some g :=
  useOfJson?_toJson_of (fun b _ => b.ty.ofJson?_toJson) g.erasure.ofJson?_toJson

theorem boundOfJson?_toJson (b : Bound Ty) : boundOfJson? (boundToJson b) = some b :=
  boundOfJson?_toJson_of b.ty.ofJson?_toJson

end Ty

theorem Parameter.ofJson?_toJson (p : Parameter) : ofJson? p.toJson = some p := by
  rw [ofJson?_eq_some_iff]
  exact ⟨_, Json.Shape.values?_written rfl (by decide), p.ty.ofJson?_toJson⟩

theorem MethodType.ofJson?_toJson (m : MethodType) : ofJson? m.toJson = some m := by
  rw [ofJson?_eq_some_iff]
  exact ⟨_, _, Json.Shape.values?_written rfl (by decide),
    Json.listOf?_map fun t _ => t.ofJson?_toJson, m.result.ofJson?_toJson⟩

theorem TypeParameter.ofJson?_toJson (p : TypeParameter) : ofJson? p.toJson = some p := by
  rw [ofJson?_eq_some_iff]
  exact ⟨_, Json.Shape.values?_written rfl (by decide),
    Json.listOf?_map fun t _ => t.ofJson?_toJson⟩

theorem Scope.ofJson?_toJson (s : Scope) : ofJson? s.toJson = some s := by
  rw [ofJson?_eq_some_iff]
  exact ⟨_, Json.Shape.values?_written rfl (by decide),
    Json.listOf?_map fun p _ => p.ofJson?_toJson⟩

theorem ClassDecl.ofJson?_toJson (d : ClassDecl) : ofJson? d.toJson = some d := by
  rw [ofJson?_eq_some_iff]
  exact ⟨_, Json.Shape.values?_written rfl (by decide), d.scope.ofJson?_toJson⟩

theorem MethodDecl.ofJson?_toJson (d : MethodDecl) : ofJson? d.toJson = some d := by
  rw [ofJson?_eq_some_iff]
  exact ⟨_, _, _, Json.Shape.values?_written rfl (by decide), d.scope.ofJson?_toJson,
    Json.listOf?_map fun p _ => p.ofJson?_toJson, d.result.ofJson?_toJson⟩

theorem Settings.ofJson?_toJson (s : Settings) : ofJson? s.toJson = some s := by
  rw [ofJson?_eq_some_iff]
  exact ⟨_, Json.Shape.values?_written rfl (by decide), s.undeclared.ofJson?_toJson⟩

namespace Model

theorem read?_write (m : Model) (v : m.Value) : m.read? (m.write v) = some v := by
  cases m with
  | primitive => exact Primitive.ofJson?_toJson v
  | variance => exact Variance.ofJson?_toJson v
  | policy => exact UndeclaredPolicy.ofJson?_toJson v
  | ty => exact Ty.ofJson?_toJson v
  | genericUse => exact Ty.useOfJson?_toJson v
  | bound => exact Ty.boundOfJson?_toJson v
  | parameter => exact Parameter.ofJson?_toJson v
  | methodType => exact MethodType.ofJson?_toJson v
  | typeParameter => exact TypeParameter.ofJson?_toJson v
  | scope => exact Scope.ofJson?_toJson v
  | classDecl => exact ClassDecl.ofJson?_toJson v
  | methodDecl => exact MethodDecl.ofJson?_toJson v
  | settings => exact Settings.ofJson?_toJson v

def rewrite? (m : Model) (j : Json) : Option Json := (m.read? j).map m.write

theorem write_injective (m : Model) : Function.Injective m.write := by
  intro v w h
  have hv := m.read?_write v
  rw [h, m.read?_write w] at hv
  exact (Option.some.inj hv).symm

theorem written_form_loses_nothing (m : Model) :
    (∀ v : m.Value, m.read? (m.write v) = some v) ∧ Function.Injective m.write ∧
    (∀ (j : Json) (v : m.Value), m.read? j = some v →
      ∃ w, m.rewrite? j = some w ∧ m.read? w = some v ∧ m.rewrite? w = some w) := by
  refine ⟨m.read?_write, m.write_injective, ?_⟩
  intro j v hj
  have hw : m.read? (m.write v) = some v := m.read?_write v
  exact ⟨m.write v, by simp [rewrite?, hj], hw, by simp [rewrite?, hw]⟩

theorem written_form_loses_nothing_positional :
    let j : Json := .array [.string "",
      .array [.object [("Generic", .array [.string "a;\n", .bool false, .bool true,
        .array [.array [.object [("super", .null)], .object [("Primitive", .string "int")]]],
        .object [("Class", .string "A")]])]]]
    let v : TypeParameter := ⟨"", [.generic
      ⟨"a;\n", false, true, [⟨.contravariant, .primitive .int⟩], .named "A"⟩], false⟩
    typeParameter.read? j = some v ∧
    ∃ w, typeParameter.rewrite? j = some w ∧ typeParameter.read? w = some v ∧
      typeParameter.rewrite? w = some w := by
  intro j v
  have hj : typeParameter.read? j = some v := by rfl
  exact ⟨hj, (written_form_loses_nothing .typeParameter).2.2 j v hj⟩

end Model

end ClassfileTypes
