import ClassfileTypes.Toml.Document

namespace ClassfileTypes.Toml

inductive Value.Distinct : Value → Prop
  | text {s : String} : Distinct (.text s)
  | emptyArray : Distinct .emptyArray
  | table {origin : Origin} {es : List (String × Value)} (keys : (es.map Prod.fst).Nodup)
      (members : ∀ e ∈ es, Distinct e.2) : Distinct (.table origin es)

namespace Entries

structure Distinct (es : Entries) : Prop where
  keys : (es.map Prod.fst).Nodup
  members : ∀ e ∈ es, e.2.Distinct

theorem distinct_nil : Distinct [] := ⟨List.nodup_nil, by simp⟩

theorem Distinct.table {es : Entries} (h : es.Distinct) (origin : Origin) :
    (Value.table origin es).Distinct := .table h.keys h.members

theorem Distinct.lookup {es : Entries} (h : es.Distinct) {key : String} {v : Value}
    (hl : List.lookup key es = some v) : v.Distinct := by
  obtain ⟨before, after, rfl, -⟩ := List.lookup_eq_some_iff.mp hl
  exact h.members (key, v) (by simp)

theorem Distinct.lookup_table {es : Entries} (h : es.Distinct) {key : String} {origin : Origin}
    {inner : Entries} (hl : List.lookup key es = some (.table origin inner)) :
    inner.Distinct := by
  cases h.lookup hl with
  | table keys members => exact ⟨keys, members⟩

theorem Distinct.append {es : Entries} (h : es.Distinct) {key : String} {v : Value}
    (hl : List.lookup key es = none) (hv : v.Distinct) : Distinct (es ++ [(key, v)]) := by
  refine ⟨?_, ?_⟩
  · rw [List.map_append, List.map_singleton, List.nodup_append]
    refine ⟨h.keys, by simp, ?_⟩
    intro k hk l hm heq
    rw [heq, List.mem_singleton.mp hm] at hk
    exact lookup_eq_none_iff.mp hl hk
  · intro e he
    rcases List.mem_append.mp he with he | he
    · exact h.members e he
    · cases List.mem_singleton.mp he
      exact hv

theorem map_fst_replace (es : Entries) (key : String) (v : Value) :
    (es.replace key v).map Prod.fst = es.map Prod.fst := by
  rw [replace, List.map_map]
  apply List.map_congr_left
  intro e he
  rw [Function.comp_apply]
  split
  · next hk => exact (eq_of_beq hk).symm
  · rfl

theorem Distinct.replace {es : Entries} (h : es.Distinct) (key : String) {v : Value}
    (hv : v.Distinct) : Distinct (es.replace key v) := by
  refine ⟨map_fst_replace es key v ▸ h.keys, ?_⟩
  intro e he
  obtain ⟨d, hd, rfl⟩ := List.mem_map.mp he
  split
  · exact hv
  · exact h.members d hd

theorem Distinct.define {path : List String} {es fs : Entries} (h : es.Distinct)
    (hf : Entries.define path es = some fs) : fs.Distinct := by
  fun_induction Entries.define path es generalizing fs with
  | case1 => cases hf
  | case2 key es hl =>
      cases hf
      exact h.append hl (distinct_nil.table .headed)
  | case3 key es inner hl =>
      cases hf
      exact Distinct.replace h key ((h.lookup_table hl).table .headed)
  | case4 => cases hf
  | case5 key path es hp hl ih =>
      obtain ⟨inner, hi, rfl⟩ := Option.map_eq_some_iff.mp hf
      exact h.append hl ((ih distinct_nil hi).table .implied)
  | case6 => cases hf
  | case7 key path es hp origin inner ho hl ih =>
      obtain ⟨changed, hc, rfl⟩ := Option.map_eq_some_iff.mp hf
      exact Distinct.replace h key ((ih (h.lookup_table hl) hc).table origin)
  | case8 => cases hf

theorem Distinct.assign {v : Value} (hv : v.Distinct) {path : List String} {es fs : Entries}
    (h : es.Distinct) (hf : Entries.assign v path es = some fs) : fs.Distinct := by
  fun_induction Entries.assign v path es generalizing fs with
  | case1 => cases hf
  | case2 key es hl =>
      cases hf
      exact h.append hl hv
  | case3 => cases hf
  | case4 key path es hp hl ih =>
      obtain ⟨inner, hi, rfl⟩ := Option.map_eq_some_iff.mp hf
      exact h.append hl ((ih distinct_nil hi).table .dotted)
  | case5 key path es hp inner hl ih =>
      obtain ⟨changed, hc, rfl⟩ := Option.map_eq_some_iff.mp hf
      exact Distinct.replace h key ((ih (h.lookup_table hl) hc).table .dotted)
  | case6 => cases hf

theorem Distinct.within {change : Entries → Option Entries}
    (hc : ∀ {es fs : Entries}, es.Distinct → change es = some fs → fs.Distinct)
    {path : List String} {es fs : Entries} (h : es.Distinct)
    (hf : Entries.within change path es = some fs) : fs.Distinct := by
  fun_induction Entries.within change path es generalizing fs with
  | case1 es => exact hc h hf
  | case2 key path es origin inner hl ih =>
      obtain ⟨changed, hi, rfl⟩ := Option.map_eq_some_iff.mp hf
      exact Distinct.replace h key ((ih (h.lookup_table hl) hi).table origin)
  | case3 => cases hf

end Entries

theorem Draft.distinct_of_open? {d e : Draft} (h : d.entries.Distinct) {path : List String}
    (ho : d.open? path = some e) : e.entries.Distinct := by
  obtain ⟨entries, he, rfl⟩ := Option.map_eq_some_iff.mp ho
  exact h.define he

theorem Draft.distinct_of_add? {d e : Draft} (h : d.entries.Distinct) {path : List String}
    {v : Value} (hv : v.Distinct) (ha : d.add? path v = some e) : e.entries.Distinct := by
  obtain ⟨entries, he, rfl⟩ := Option.map_eq_some_iff.mp ha
  exact h.within (fun hd => Entries.Distinct.assign hv hd) he

theorem distinct_of_read (steps : Nat) :
    (∀ {cs rest : List Char} {v : Value}, value? steps cs = some (v, rest) → v.Distinct) ∧
    (∀ {cs rest : List Char} {es fs : Entries}, es.Distinct →
      members? steps es cs = some (fs, rest) → fs.Distinct) := by
  induction steps with
  | zero => exact ⟨by simp [value?], by simp [members?]⟩
  | succ steps ih =>
      obtain ⟨hv, hm⟩ := ih
      constructor
      · intro cs rest v h
        unfold value? at h
        split at h
        · cases h
        · obtain ⟨rest', -, he⟩ := Option.bind_eq_some_iff.mp h
          cases he
          exact .emptyArray
        · next hs =>
            cases hs
            split at h
            · cases h
              exact Entries.distinct_nil.table .braced
            · obtain ⟨⟨es, rest'⟩, he, hr⟩ := Option.bind_eq_some_iff.mp h
              cases hr
              exact (hm Entries.distinct_nil he).table .braced
        · obtain ⟨⟨s, rest'⟩, -, he⟩ := Option.bind_eq_some_iff.mp h
          cases he
          exact .text
      · intro cs rest es fs hd h
        unfold members? at h
        obtain ⟨⟨path, tail⟩, -, h⟩ := Option.bind_eq_some_iff.mp h
        dsimp only at h
        split at h
        · obtain ⟨⟨v, tail⟩, he, h⟩ := Option.bind_eq_some_iff.mp h
          obtain ⟨assigned, ha, h⟩ := Option.bind_eq_some_iff.mp h
          have hf : assigned.Distinct := Entries.Distinct.assign (hv he) hd ha
          split at h
          · exact hm hf h
          · cases h
            exact hf
          · cases h
        · cases h

theorem lines?_distinct {steps : Nat} {d : Draft} (hd : d.entries.Distinct) {cs : List Char}
    {es : Entries} (h : lines? steps d cs = some es) : es.Distinct := by
  induction steps generalizing d cs with
  | zero => cases h
  | succ steps ih =>
      unfold lines? at h
      split at h
      · cases h
        exact hd
      · obtain ⟨⟨path, tail⟩, -, h⟩ := Option.bind_eq_some_iff.mp h
        dsimp only at h
        split at h
        · obtain ⟨e, he, h⟩ := Option.bind_eq_some_iff.mp h
          obtain ⟨tail, -, h⟩ := Option.bind_eq_some_iff.mp h
          exact ih (Draft.distinct_of_open? hd he) h
        · cases h
      · split at h
        · obtain ⟨tail, -, h⟩ := Option.bind_eq_some_iff.mp h
          exact ih hd h
        · obtain ⟨⟨path, tail⟩, -, h⟩ := Option.bind_eq_some_iff.mp h
          dsimp only at h
          split at h
          · obtain ⟨⟨v, tail⟩, hv, h⟩ := Option.bind_eq_some_iff.mp h
            obtain ⟨e, he, h⟩ := Option.bind_eq_some_iff.mp h
            obtain ⟨tail, -, h⟩ := Option.bind_eq_some_iff.mp h
            exact ih (Draft.distinct_of_add? hd ((distinct_of_read steps).1 hv) he) h
          · cases h

theorem Entries.distinct_of_ofText? {text : String} {es : Entries}
    (h : Entries.ofText? text = some es) : es.Distinct :=
  lines?_distinct Entries.distinct_nil h

end ClassfileTypes.Toml
