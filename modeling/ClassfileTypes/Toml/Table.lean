namespace ClassfileTypes.Toml

inductive Origin where
  | headed
  | implied
  | dotted
  | braced
  deriving DecidableEq

inductive Value where
  | text (s : String)
  | emptyArray
  | table (origin : Origin) (entries : List (String × Value))

abbrev Entries := List (String × Value)

namespace Entries

theorem lookup_eq_none_iff {es : Entries} {key : String} :
    List.lookup key es = none ↔ key ∉ es.map Prod.fst := by
  rw [List.lookup_eq_none_iff]
  constructor
  · intro h hm
    obtain ⟨e, he, rfl⟩ := List.mem_map.mp hm
    simpa using h e he
  · intro h e he
    have hn : key ≠ e.1 := fun heq => h (heq ▸ List.mem_map_of_mem he)
    simpa using hn

def replace (key : String) (v : Value) (es : Entries) : Entries :=
  es.map fun e => if e.1 == key then (key, v) else e

def define : List String → Entries → Option Entries
  | [], _ => none
  | [key], es =>
      match es.lookup key with
      | none => some (es ++ [(key, .table .headed [])])
      | some (.table .implied inner) => some (es.replace key (.table .headed inner))
      | some _ => none
  | key :: path, es =>
      match es.lookup key with
      | none => (define path []).map fun inner => es ++ [(key, .table .implied inner)]
      | some (.table .braced _) => none
      | some (.table origin inner) =>
          (define path inner).map fun inner => es.replace key (.table origin inner)
      | some _ => none

def assign (v : Value) : List String → Entries → Option Entries
  | [], _ => none
  | [key], es =>
      match es.lookup key with
      | none => some (es ++ [(key, v)])
      | some _ => none
  | key :: path, es =>
      match es.lookup key with
      | none => (assign v path []).map fun inner => es ++ [(key, .table .dotted inner)]
      | some (.table .dotted inner) =>
          (assign v path inner).map fun inner => es.replace key (.table .dotted inner)
      | some _ => none

def within (change : Entries → Option Entries) : List String → Entries → Option Entries
  | [], es => change es
  | key :: path, es =>
      match es.lookup key with
      | some (.table origin inner) =>
          (within change path inner).map fun inner => es.replace key (.table origin inner)
      | _ => none

end Entries

end ClassfileTypes.Toml
