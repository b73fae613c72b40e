import Mathlib.Data.List.Forall2
import Mathlib.Data.Option.Basic
import ClassfileTypes.Json.Basic

namespace ClassfileTypes

section Forall₂

variable {α β : Type} {R S : α → β → Prop} {as : List α} {bs : List β}

theorem exists_of_forall₂ (h : List.Forall₂ R as bs) {b : β} (hb : b ∈ bs) : ∃ a ∈ as, R a b := by
  induction h with
  | nil => cases hb
  | @cons a c as bs hac _ ih =>
      rcases List.mem_cons.mp hb with rfl | hb
      · exact ⟨a, List.mem_cons_self, hac⟩
      · obtain ⟨d, hd, hr⟩ := ih hb
        exact ⟨d, List.mem_cons_of_mem _ hd, hr⟩

theorem forall₂_congr_mem (h : ∀ a ∈ as, ∀ b ∈ bs, (R a b ↔ S a b)) :
    List.Forall₂ R as bs ↔ List.Forall₂ S as bs := by
  induction as generalizing bs with
  | nil => cases bs <;> simp
  | cons a as ih =>
      cases bs with
      | nil => simp
      | cons b bs =>
          have hr := ih fun c hc d hd =>
            h c (List.mem_cons_of_mem _ hc) d (List.mem_cons_of_mem _ hd)
          rw [List.forall₂_cons, List.forall₂_cons, hr,
            h a List.mem_cons_self b List.mem_cons_self]

end Forall₂

namespace Json

inductive DistinctKeys : Json → Prop
  | null : DistinctKeys .null
  | bool (b : Bool) : DistinctKeys (.bool b)
  | number (mantissa : Int) (exponent : Nat) : DistinctKeys (.number mantissa exponent)
  | string (s : String) : DistinctKeys (.string s)
  | array {items : List Json} : (∀ j ∈ items, DistinctKeys j) → DistinctKeys (.array items)
  | object {fields : List (String × Json)} : (fields.map Prod.fst).Nodup →
      (∀ f ∈ fields, DistinctKeys f.2) → DistinctKeys (.object fields)

attribute [simp] DistinctKeys.null DistinctKeys.bool DistinctKeys.number DistinctKeys.string

@[simp] theorem distinctKeys_array {items : List Json} :
    (Json.array items).DistinctKeys ↔ ∀ j ∈ items, j.DistinctKeys := by
  constructor
  · intro h
    cases h with
    | array h => exact h
  · exact .array

@[simp] theorem distinctKeys_object {fields : List (String × Json)} :
    (Json.object fields).DistinctKeys ↔
      (fields.map Prod.fst).Nodup ∧ ∀ f ∈ fields, f.2.DistinctKeys := by
  constructor
  · intro h
    cases h with
    | object hn hf => exact ⟨hn, hf⟩
  · rintro ⟨hn, hf⟩
    exact .object hn hf

theorem distinctKeys_single {key : String} {j : Json} :
    (Json.object [(key, j)]).DistinctKeys ↔ j.DistinctKeys := by
  simp

inductive Names (word : String) : Json → Prop
  | plain : Names word (.string word)
  | keyed : Names word (.object [(word, .null)])

theorem choice?_eq_some_iff {j : Json} {word : String} :
    j.choice? = some word ↔ j.Names word := by
  constructor
  · intro h
    unfold choice? at h
    split at h
    · cases h; exact .plain
    · cases h; exact .keyed
    · cases h
  · intro h
    cases h <;> rfl

theorem string?_eq_some_iff {j : Json} {s : String} : j.string? = some s ↔ j = .string s := by
  cases j <;> simp [string?]

theorem bool?_eq_some_iff {j : Json} {b : Bool} : j.bool? = some b ↔ j = .bool b := by
  cases j <;> simp [bool?]

theorem mapM_eq_some_iff {α β : Type} {f : α → Option β} {as : List α} {bs : List β} :
    as.mapM f = some bs ↔ List.Forall₂ (fun a b => f a = some b) as bs := by
  induction as generalizing bs with
  | nil => simp [eq_comm]
  | cons a as ih =>
      simp only [List.mapM_cons, Option.bind_eq_bind, Option.bind_eq_some_iff, Option.pure_def,
        Option.some.injEq, List.forall₂_cons_left_iff, ih]
      constructor
      · rintro ⟨b, hb, bs, hbs, rfl⟩
        exact ⟨b, bs, hb, hbs, rfl⟩
      · rintro ⟨b, bs, hb, hbs, rfl⟩
        exact ⟨b, hb, bs, hbs, rfl⟩

inductive ListOf {α : Type} (R : Json → α → Prop) : Json → List α → Prop
  | array {items : List Json} {as : List α} :
      List.Forall₂ R items as → ListOf R (.array items) as

theorem listOf?_eq_some_iff {α : Type} {read : Json → Option α} {j : Json} {as : List α} :
    j.listOf? read = some as ↔ j.ListOf (fun i a => read i = some a) as := by
  constructor
  · intro h
    obtain ⟨items, hi, hm⟩ := Option.bind_eq_some_iff.mp h
    cases j <;> cases hi
    exact .array (mapM_eq_some_iff.mp hm)
  · intro h
    cases h with
    | array h => exact mapM_eq_some_iff.mpr h

theorem DistinctKeys.listOf_congr {α : Type} {R S : Json → α → Prop} {j : Json} {as : List α}
    (hj : j.DistinctKeys) (h : ∀ {i : Json}, i.DistinctKeys → ∀ a ∈ as, (R i a ↔ S i a)) :
    j.ListOf R as ↔ j.ListOf S as := by
  have hrs {items : List Json} (e : j = .array items) :
      List.Forall₂ R items as ↔ List.Forall₂ S items as := by
    subst e
    exact forall₂_congr_mem fun i hi a ha => h (distinctKeys_array.mp hj i hi) a ha
  constructor
  · intro hl
    cases hl with
    | array hl => exact .array ((hrs rfl).mp hl)
  · intro hl
    cases hl with
    | array hl => exact .array ((hrs rfl).mpr hl)

theorem valuesAt_cons (key k : String) (j : Json) (fields : List (String × Json)) :
    valuesAt key ((k, j) :: fields) =
      if k = key then j :: valuesAt key fields else valuesAt key fields := by
  simp only [valuesAt, List.filter_cons, beq_iff_eq]
  split <;> rfl

theorem valuesAt_eq_nil_iff {key : String} {fields : List (String × Json)} :
    valuesAt key fields = [] ↔ key ∉ fields.map Prod.fst := by
  simp only [valuesAt, List.map_eq_nil_iff, List.filter_eq_nil_iff, beq_iff_eq, List.mem_map,
    not_exists, not_and]

theorem valuesAt_eq_singleton_iff {key : String} {fields : List (String × Json)} {j : Json}
    (h : (fields.map Prod.fst).Nodup) : valuesAt key fields = [j] ↔ (key, j) ∈ fields := by
  induction fields with
  | nil => simp [valuesAt]
  | cons f fields ih =>
      obtain ⟨k, i⟩ := f
      obtain ⟨hk, hr⟩ := List.nodup_cons.mp h
      rw [valuesAt_cons]
      split
      · next e =>
          subst e
          have hn : (k, j) ∉ fields := fun m => hk (List.mem_map.mpr ⟨(k, j), m, rfl⟩)
          simp [valuesAt_eq_nil_iff.mpr hk, hn, eq_comm]
      · next e => simp [ih hr, Ne.symm e]

theorem field?_eq_some_iff {key : String} {fields : List (String × Json)} {j : Json}
    (h : (fields.map Prod.fst).Nodup) : field? key fields = some j ↔ (key, j) ∈ fields := by
  rw [← valuesAt_eq_singleton_iff h, field?]
  split <;> simp_all

theorem field?_cons (key k : String) (j : Json) (fields : List (String × Json)) :
    field? key ((k, j) :: fields) =
      if k == key then if (valuesAt key fields).isEmpty then some j else none
      else field? key fields := by
  rw [field?, valuesAt_cons]
  by_cases hk : k = key
  · simp only [hk, beq_self_eq_true, ↓reduceIte]
    cases valuesAt key fields <;> rfl
  · simp only [hk, beq_iff_eq, ↓reduceIte]
    rfl

theorem eq_field?_bind {α : Type} {key : String} {read : Json → Option α}
    {get : List (String × Json) → Option α} (hnil : get [] = none)
    (hcons : ∀ k j fields, get ((k, j) :: fields) =
      if k == key then if (valuesAt key fields).isEmpty then read j else none else get fields)
    (fields : List (String × Json)) : get fields = (field? key fields).bind read := by
  induction fields with
  | nil => exact hnil
  | cons f fields ih =>
      rw [hcons, field?_cons, ih]
      split
      · split <;> rfl
      · rfl

theorem fieldOr?_eq_some_iff {absent : Json} {key : String} {fields : List (String × Json)}
    {j : Json} (h : (fields.map Prod.fst).Nodup) :
    fieldOr? absent key fields = some j ↔
      (key, j) ∈ fields ∨ key ∉ fields.map Prod.fst ∧ j = absent := by
  rw [← valuesAt_eq_singleton_iff h, ← valuesAt_eq_nil_iff, fieldOr?]
  split
  · next e => simp [e, eq_comm]
  · next i e => simp [e]
  · next hn hs =>
      have hj : valuesAt key fields ≠ [j] := hs j
      have hnil : valuesAt key fields ≠ [] := hn
      simp [hj, hnil]

namespace Shape

inductive Given (s : Shape) : Json → List Json → Prop
  | object {fields : List (String × Json)} {values optional : List Json} :
      (s.closed = true → ∀ key ∈ fields.map Prod.fst,
        key ∈ s.required ++ s.optional.map Prod.fst) →
      List.Forall₂ (fun key j => (key, j) ∈ fields) s.required values →
      List.Forall₂ (fun f j => (f.1, j) ∈ fields ∨ f.1 ∉ fields.map Prod.fst ∧ j = f.2)
        s.optional optional →
      Given s (.object fields) (values ++ optional)
  | array {items : List Json} {present absent : List (String × Json)} :
      s.optional = present ++ absent → items.length = s.required.length + present.length →
      Given s (.array items) (items ++ absent.map Prod.snd)

theorem admits_iff {s : Shape} {fields : List (String × Json)} :
    (!s.closed || fields.all fun f => s.knows f.1) = true ↔
      (s.closed = true → ∀ key ∈ fields.map Prod.fst,
        key ∈ s.required ++ s.optional.map Prod.fst) := by
  cases s.closed <;> simp [knows]

theorem values?_object_iff {s : Shape} {fields : List (String × Json)} {values : List Json}
    (h : (fields.map Prod.fst).Nodup) :
    s.values? (.object fields) = some values ↔ s.Given (.object fields) values := by
  have hr (key : String) (j : Json) : field? key fields = some j ↔ (key, j) ∈ fields :=
    field?_eq_some_iff h
  have ho (f : String × Json) (j : Json) : fieldOr? f.2 f.1 fields = some j ↔
      (f.1, j) ∈ fields ∨ f.1 ∉ fields.map Prod.fst ∧ j = f.2 := fieldOr?_eq_some_iff h
  simp only [values?, Option.bind_eq_bind, Option.bind_eq_some_iff, Option.pure_def,
    Option.some.injEq, Option.guard_eq_some', admits_iff, mapM_eq_some_iff, hr, ho]
  constructor
  · rintro ⟨-, hc, given, hg, rest, hopt, rfl⟩
    exact .object hc hg hopt
  · intro hv
    cases hv with
    | object hc hg hopt => exact ⟨(), hc, _, hg, _, hopt, rfl⟩

theorem values?_array_iff {s : Shape} {items values : List Json} :
    s.values? (.array items) = some values ↔ s.Given (.array items) values := by
  simp only [values?, Option.bind_eq_bind, Option.bind_eq_some_iff, Option.pure_def,
    Option.some.injEq, Option.guard_eq_some']
  constructor
  · rintro ⟨-, hl, -, hu, rfl⟩
    refine .array (List.take_append_drop _ s.optional).symm ?_
    rw [List.length_take]
    omega
  · intro hv
    cases hv with
    | @array _ present absent ho hl =>
        have hp : items.length - s.required.length = present.length := by omega
        refine ⟨(), by omega, (), ?_, ?_⟩
        · rw [hl, ho, List.length_append]
          omega
        · rw [hp, ho, List.drop_left]

theorem values?_eq_some_iff {s : Shape} {j : Json} {values : List Json} (h : j.DistinctKeys) :
    s.values? j = some values ↔ s.Given j values := by
  cases j with
  | object fields => exact values?_object_iff (distinctKeys_object.mp h).1
  | array items => exact values?_array_iff
  | null | bool b | number m e | string w =>
      constructor <;> intro hv <;> cases hv

theorem values?_ofFields_object {names : List String} {fields : List (String × Json)}
    {values : List Json} :
    (ofFields names).values? (.object fields) = some values ↔
      List.Forall₂ (fun name j => field? name fields = some j) names values := by
  simp [values?, ofFields, mapM_eq_some_iff]

theorem values?_ofFields_array {names : List String} {items values : List Json} :
    (ofFields names).values? (.array items) = some values ↔
      items.length = names.length ∧ items = values := by
  rw [values?_array_iff]
  constructor
  · intro hv
    cases hv with
    | array ho hl =>
        obtain ⟨rfl, rfl⟩ := List.append_eq_nil_iff.mp ho.symm
        exact ⟨hl, (List.append_nil _).symm⟩
  · rintro ⟨hl, rfl⟩
    have ho : (ofFields names).optional = [] ++ [] := rfl
    simpa using Given.array ho hl

theorem Given.distinctKeys {s : Shape} {j : Json} {values : List Json} (hv : s.Given j values)
    (hj : j.DistinctKeys) (hs : ∀ f ∈ s.optional, f.2.DistinctKeys) :
    ∀ v ∈ values, v.DistinctKeys := by
  intro v hm
  cases hv with
  | @object fields given rest _ hg ho =>
      rcases List.mem_append.mp hm with hm | hm
      · obtain ⟨key, -, hk⟩ := exists_of_forall₂ hg hm
        exact (distinctKeys_object.mp hj).2 _ hk
      · obtain ⟨f, hf, hk | ⟨-, rfl⟩⟩ := exists_of_forall₂ ho hm
        · exact (distinctKeys_object.mp hj).2 _ hk
        · exact hs f hf
  | @array items present absent ho hl =>
      rcases List.mem_append.mp hm with hm | hm
      · exact distinctKeys_array.mp hj v hm
      · obtain ⟨f, hf, rfl⟩ := List.mem_map.mp hm
        exact hs f (ho ▸ List.mem_append_right _ hf)

end Shape

end Json

end ClassfileTypes
