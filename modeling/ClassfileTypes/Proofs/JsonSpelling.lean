import ClassfileTypes.Proofs.JsonReading

namespace ClassfileTypes

open Json.Shape (ofFields)

def Primitive.Spelled (j : Json) (k : Primitive) : Prop := j.Names k.keyword

def Variance.Spelled (j : Json) (v : Variance) : Prop := j.Names v.word

def UndeclaredPolicy.Spelled (j : Json) (p : UndeclaredPolicy) : Prop := j.Names p.word

mutual

inductive Ty.Spelled : Json → Ty → Prop
  | primitive {j : Json} {k : Primitive} :
      Primitive.Spelled j k → Ty.Spelled (.object [("Primitive", j)]) (.primitive k)
  | array {j : Json} {c : Ty} : Ty.Spelled j c → Ty.Spelled (.object [("Array", j)]) (.array c)
  | named (name : String) : Ty.Spelled (.object [("Class", .string name)]) (.named name)
  | generic {j : Json} {g : GenericUse Ty} :
      GenericUse.Spelled j g → Ty.Spelled (.object [("Generic", j)]) (.generic g)

inductive GenericUse.Spelled : Json → GenericUse Ty → Prop
  | record {j bs e : Json} {g : GenericUse Ty} :
      (ofFields ["name", "is_type", "is_wildcard", "bounds", "erasure"]).Given j
        [.string g.name, .bool g.resolved, .bool g.wildcard, bs, e] →
      bs.ListOf Bound.Spelled g.bounds → Ty.Spelled e g.erasure → GenericUse.Spelled j g

inductive Bound.Spelled : Json → Bound Ty → Prop
  | record {j v t : Json} {b : Bound Ty} :
      (ofFields ["kind", "ty"]).Given j [v, t] →
      Variance.Spelled v b.variance → Ty.Spelled t b.ty → Bound.Spelled j b

end

def Parameter.Spelled (j : Json) (p : Parameter) : Prop :=
  ∃ t, (ofFields ["name", "ty"]).Given j [.string p.name, t] ∧ Ty.Spelled t p.ty

def MethodType.Spelled (j : Json) (m : MethodType) : Prop :=
  ∃ ps t, (ofFields ["parameter_types", "return_type"]).Given j [ps, t] ∧
    ps.ListOf Ty.Spelled m.parameters ∧ Ty.Spelled t m.result

def TypeParameter.Spelled (j : Json) (p : TypeParameter) : Prop :=
  ∃ bs, Json.Shape.Given ⟨["name", "bounds"], [("interface_bounds_only", .bool false)], false⟩ j
      [.string p.name, bs, .bool p.interfacesOnly] ∧
    bs.ListOf Ty.Spelled p.bounds

def Scope.Spelled (j : Json) (s : Scope) : Prop :=
  ∃ ps, (ofFields ["type_parameters"]).Given j [ps] ∧ ps.ListOf TypeParameter.Spelled s.parameters

def ClassDecl.Spelled (j : Json) (d : ClassDecl) : Prop :=
  ∃ s, (ofFields ["name", "generic_signature"]).Given j [.string d.name, s] ∧
    Scope.Spelled s d.scope

def MethodDecl.Spelled (j : Json) (d : MethodDecl) : Prop :=
  ∃ s ps t, (ofFields ["name", "generic_signature", "parameters", "return_type"]).Given j
      [.string d.name, s, ps, t] ∧
    Scope.Spelled s d.scope ∧ ps.ListOf Parameter.Spelled d.parameters ∧ Ty.Spelled t d.result

def Settings.Spelled (j : Json) (s : Settings) : Prop :=
  ∃ p, Json.Shape.Given ⟨[], [("unresolved_generics", .string "erasure")], true⟩ j [p] ∧
    UndeclaredPolicy.Spelled p s.undeclared

def Model.Spelled : (m : Model) → Json → m.Value → Prop
  | .primitive => Primitive.Spelled
  | .variance => Variance.Spelled
  | .policy => UndeclaredPolicy.Spelled
  | .ty => Ty.Spelled
  | .genericUse => GenericUse.Spelled
  | .bound => Bound.Spelled
  | .parameter => Parameter.Spelled
  | .methodType => MethodType.Spelled
  | .typeParameter => TypeParameter.Spelled
  | .scope => Scope.Spelled
  | .classDecl => ClassDecl.Spelled
  | .methodDecl => MethodDecl.Spelled
  | .settings => Settings.Spelled

theorem GenericUse.spelled_iff {j : Json} {g : GenericUse Ty} :
    Spelled j g ↔ ∃ bs e,
      (ofFields ["name", "is_type", "is_wildcard", "bounds", "erasure"]).Given j
        [.string g.name, .bool g.resolved, .bool g.wildcard, bs, e] ∧
      bs.ListOf Bound.Spelled g.bounds ∧ Ty.Spelled e g.erasure := by
  constructor
  · intro h
    cases h with
    | record hf hb he => exact ⟨_, _, hf, hb, he⟩
  · rintro ⟨bs, e, hf, hb, he⟩
    exact .record hf hb he

theorem Bound.spelled_iff {j : Json} {b : Bound Ty} :
    Spelled j b ↔ ∃ v t, (ofFields ["kind", "ty"]).Given j [v, t] ∧
      Variance.Spelled v b.variance ∧ Ty.Spelled t b.ty := by
  constructor
  · intro h
    cases h with
    | record hf hv ht => exact ⟨_, _, hf, hv, ht⟩
  · rintro ⟨v, t, hf, hv, ht⟩
    exact .record hf hv ht

namespace Ty

theorem spelled_primitive_iff {j : Json} {k : Primitive} :
    Spelled j (.primitive k) ↔ ∃ i, j = .object [("Primitive", i)] ∧ Primitive.Spelled i k := by
  constructor
  · intro h
    cases h with
    | primitive hk => exact ⟨_, rfl, hk⟩
  · rintro ⟨i, rfl, hk⟩
    exact .primitive hk

theorem spelled_array_iff {j : Json} {c : Ty} :
    Spelled j (.array c) ↔ ∃ i, j = .object [("Array", i)] ∧ Spelled i c := by
  constructor
  · intro h
    cases h with
    | array hc => exact ⟨_, rfl, hc⟩
  · rintro ⟨i, rfl, hc⟩
    exact .array hc

theorem spelled_named_iff {j : Json} {name : String} :
    Spelled j (.named name) ↔ j = .object [("Class", .string name)] := by
  constructor
  · intro h
    cases h
    rfl
  · rintro rfl
    exact .named name

theorem spelled_generic_iff {j : Json} {g : GenericUse Ty} :
    Spelled j (.generic g) ↔ ∃ i, j = .object [("Generic", i)] ∧ GenericUse.Spelled i g := by
  constructor
  · intro h
    cases h with
    | generic hg => exact ⟨_, rfl, hg⟩
  · rintro ⟨i, rfl, hg⟩
    exact .generic hg

theorem boundOfJson?_iff_of {b : Bound Ty} {j : Json} (h : j.DistinctKeys)
    (ht : ∀ {i : Json}, i.DistinctKeys → (ofJson? i = some b.ty ↔ Spelled i b.ty)) :
    boundOfJson? j = some b ↔ Bound.Spelled j b := by
  rw [boundOfJson?_eq_some_iff, Bound.spelled_iff]
  refine exists_congr fun v => exists_congr fun t => ?_
  rw [Json.Shape.values?_eq_some_iff h, Variance.ofJson?_eq_some_iff]
  refine and_congr_right fun hf => and_congr_right fun _ => ?_
  exact ht (hf.distinctKeys h (by simp [ofFields]) t (by simp))

theorem useOfJson?_iff_of {g : GenericUse Ty} {j : Json} (h : j.DistinctKeys)
    (hb : ∀ b ∈ g.bounds, ∀ {i : Json}, i.DistinctKeys →
      (ofJson? i = some b.ty ↔ Spelled i b.ty))
    (he : ∀ {i : Json}, i.DistinctKeys → (ofJson? i = some g.erasure ↔ Spelled i g.erasure)) :
    useOfJson? j = some g ↔ GenericUse.Spelled j g := by
  rw [useOfJson?_eq_some_iff, GenericUse.spelled_iff]
  refine exists_congr fun bs => exists_congr fun e => ?_
  rw [Json.Shape.values?_eq_some_iff h, Json.listOf?_eq_some_iff]
  refine and_congr_right fun hf => ?_
  have hd := hf.distinctKeys h (by simp [ofFields])
  refine and_congr ((hd bs (by simp)).listOf_congr ?_) (he (hd e (by simp)))
  exact fun hi b hm => boundOfJson?_iff_of hi (hb b hm)

theorem ofJson?_iff_spelled {t : Ty} {j : Json} (h : j.DistinctKeys) :
    ofJson? j = some t ↔ Spelled j t := by
  induction t generalizing j with
  | primitive k =>
      rw [ofJson?_eq_primitive_iff, spelled_primitive_iff]
      exact exists_congr fun i => and_congr_right fun _ => Primitive.ofJson?_eq_some_iff
  | array c ih =>
      rw [ofJson?_eq_array_iff, spelled_array_iff]
      refine exists_congr fun i => and_congr_right ?_
      rintro rfl
      exact ih (Json.distinctKeys_single.mp h)
  | named name => rw [ofJson?_eq_named_iff, spelled_named_iff]
  | generic g ihb ihe =>
      rw [ofJson?_eq_generic_iff, spelled_generic_iff]
      refine exists_congr fun i => and_congr_right ?_
      rintro rfl
      exact useOfJson?_iff_of (Json.distinctKeys_single.mp h) ihb ihe

theorem useOfJson?_iff_spelled {g : GenericUse Ty} {j : Json} (h : j.DistinctKeys) :
    useOfJson? j = some g ↔ GenericUse.Spelled j g :=
  useOfJson?_iff_of h (fun _ _ => ofJson?_iff_spelled) ofJson?_iff_spelled

theorem boundOfJson?_iff_spelled {b : Bound Ty} {j : Json} (h : j.DistinctKeys) :
    boundOfJson? j = some b ↔ Bound.Spelled j b :=
  boundOfJson?_iff_of h ofJson?_iff_spelled

end Ty

section Records

variable {j : Json}

theorem Parameter.ofJson?_iff_spelled (h : j.DistinctKeys) {p : Parameter} :
    ofJson? j = some p ↔ Spelled j p := by
  rw [ofJson?_eq_some_iff, Spelled]
  refine exists_congr fun t => ?_
  rw [Json.Shape.values?_eq_some_iff h]
  refine and_congr_right fun hf => ?_
  have hd := hf.distinctKeys h (by simp [ofFields])
  exact Ty.ofJson?_iff_spelled (hd t (by simp))

theorem MethodType.ofJson?_iff_spelled (h : j.DistinctKeys) {m : MethodType} :
    ofJson? j = some m ↔ Spelled j m := by
  rw [ofJson?_eq_some_iff, Spelled]
  refine exists_congr fun ps => exists_congr fun t => ?_
  rw [Json.Shape.values?_eq_some_iff h, Json.listOf?_eq_some_iff]
  refine and_congr_right fun hf => ?_
  have hd := hf.distinctKeys h (by simp [ofFields])
  refine and_congr ((hd ps (by simp)).listOf_congr ?_) (Ty.ofJson?_iff_spelled (hd t (by simp)))
  exact fun hi _ _ => Ty.ofJson?_iff_spelled hi

theorem TypeParameter.ofJson?_iff_spelled (h : j.DistinctKeys) {p : TypeParameter} :
    ofJson? j = some p ↔ Spelled j p := by
  rw [ofJson?_eq_some_iff, Spelled]
  refine exists_congr fun bs => ?_
  rw [Json.Shape.values?_eq_some_iff h, Json.listOf?_eq_some_iff]
  refine and_congr_right fun hf => ?_
  have hd := hf.distinctKeys h (by simp [shape])
  refine (hd bs (by simp)).listOf_congr ?_
  exact fun hi _ _ => Ty.ofJson?_iff_spelled hi

theorem Scope.ofJson?_iff_spelled (h : j.DistinctKeys) {s : Scope} :
    ofJson? j = some s ↔ Spelled j s := by
  rw [ofJson?_eq_some_iff, Spelled]
  refine exists_congr fun ps => ?_
  rw [Json.Shape.values?_eq_some_iff h, Json.listOf?_eq_some_iff]
  refine and_congr_right fun hf => ?_
  have hd := hf.distinctKeys h (by simp [ofFields])
  refine (hd ps (by simp)).listOf_congr ?_
  exact fun hi _ _ => TypeParameter.ofJson?_iff_spelled hi

theorem ClassDecl.ofJson?_iff_spelled (h : j.DistinctKeys) {d : ClassDecl} :
    ofJson? j = some d ↔ Spelled j d := by
  rw [ofJson?_eq_some_iff, Spelled]
  refine exists_congr fun s => ?_
  rw [Json.Shape.values?_eq_some_iff h]
  refine and_congr_right fun hf => ?_
  have hd := hf.distinctKeys h (by simp [ofFields])
  exact Scope.ofJson?_iff_spelled (hd s (by simp))

theorem MethodDecl.ofJson?_iff_spelled (h : j.DistinctKeys) {d : MethodDecl} :
    ofJson? j = some d ↔ Spelled j d := by
  rw [ofJson?_eq_some_iff, Spelled]
  refine exists_congr fun s => exists_congr fun ps => exists_congr fun t => ?_
  rw [Json.Shape.values?_eq_some_iff h, Json.listOf?_eq_some_iff]
  refine and_congr_right fun hf => ?_
  have hd := hf.distinctKeys h (by simp [shape, ofFields])
  have hs := Scope.ofJson?_iff_spelled (hd s (by simp)) (s := d.scope)
  have ht := Ty.ofJson?_iff_spelled (hd t (by simp)) (t := d.result)
  refine and_congr hs (and_congr ((hd ps (by simp)).listOf_congr ?_) ht)
  exact fun hi _ _ => Parameter.ofJson?_iff_spelled hi

theorem Settings.ofJson?_iff_spelled (h : j.DistinctKeys) {s : Settings} :
    ofJson? j = some s ↔ Spelled j s := by
  rw [ofJson?_eq_some_iff, Spelled]
  refine exists_congr fun p => ?_
  rw [Json.Shape.values?_eq_some_iff h, UndeclaredPolicy.ofJson?_eq_some_iff]
  rfl

end Records

namespace Model

theorem read_iff_spelled (m : Model) (j : Json) (v : m.Value) (h : j.DistinctKeys) :
    m.read? j = some v ↔ m.Spelled j v := by
  cases m with
  | primitive => exact Primitive.ofJson?_eq_some_iff
  | variance => exact Variance.ofJson?_eq_some_iff
  | policy => exact UndeclaredPolicy.ofJson?_eq_some_iff
  | ty => exact Ty.ofJson?_iff_spelled h
  | genericUse => exact Ty.useOfJson?_iff_spelled h
  | bound => exact Ty.boundOfJson?_iff_spelled h
  | parameter => exact Parameter.ofJson?_iff_spelled h
  | methodType => exact MethodType.ofJson?_iff_spelled h
  | typeParameter => exact TypeParameter.ofJson?_iff_spelled h
  | scope => exact Scope.ofJson?_iff_spelled h
  | classDecl => exact ClassDecl.ofJson?_iff_spelled h
  | methodDecl => exact MethodDecl.ofJson?_iff_spelled h
  | settings => exact Settings.ofJson?_iff_spelled h

theorem read_iff_spelled_positional :
    let j : Json := .object [("since", .array [.null]),
      ("return_type", .object [("Primitive", .object [("void", .null)])]),
      ("parameters", .array [.array [.string "x", .object [("Class", .string "A")]]]),
      ("generic_signature", .array [.array [.array [.string "T", .array []]]]),
      ("name", .string "m")]
    let v : MethodDecl := ⟨"m", ⟨[⟨"T", [], false⟩]⟩, [⟨"x", .named "A"⟩], .primitive .void⟩
    j.DistinctKeys ∧ methodDecl.read? j = some v ∧ methodDecl.Spelled j v := by
  intro j v
  have hd : j.DistinctKeys := by simp [j]
  have hr : methodDecl.read? j = some v := by rfl
  exact ⟨hd, hr, (read_iff_spelled .methodDecl j v hd).mp hr⟩

end Model

end ClassfileTypes
