import ClassfileTypes.Toml.Settings

namespace ClassfileTypes

namespace Toml

def isPlain (c : Char) : Bool := isPrintable c && c != '"' && c != '\\'

def IsBareKey (key : String) : Prop := key.toList ≠ [] ∧ ∀ c ∈ key.toList, isBare c = true

def line (e : String × String) : String := e.1 ++ " = \"" ++ e.2 ++ "\"\n"

inductive Value.Names (word : String) : Value → Prop
  | text : Names word (.text word)
  | table {origin inner : Origin} : Names word (.table origin [(word, .table inner [])])
  | array {origin : Origin} : Names word (.table origin [(word, .emptyArray)])

structure Flat (es : List (String × String)) : Prop where
  keys : ∀ e ∈ es, IsBareKey e.1
  texts : ∀ e ∈ es, ∀ c ∈ e.2.toList, isPlain c = true
  distinct : (es.map Prod.fst).Nodup

theorem toList_line (e : String × String) :
    (line e).toList = e.1.toList ++ ' ' :: '=' :: ' ' :: '"' :: (e.2.toList ++ ['"', '\n']) := by
  simp [line]

theorem quoted_append {word : List Char} (h : ∀ c ∈ word, isPlain c = true)
    (read rest : List Char) :
    quoted false .plain read (word ++ '"' :: rest) =
      some (String.ofList (read.reverse ++ word), rest) := by
  induction word generalizing read with
  | nil => simp [quoted, Mode.trims]
  | cons c word ih =>
      obtain ⟨hc, hw⟩ := List.forall_mem_cons.mp h
      obtain ⟨⟨hp, hq⟩, hb⟩ : (isPrintable c = true ∧ c ≠ '"') ∧ c ≠ '\\' := by
        simpa [isPlain] using hc
      have hr := ih hw (c :: read)
      simpa [quoted, Mode.trims, hp, hq, hb] using hr

theorem string?_cons {cs : List Char} (h : ∀ rest, cs ≠ '"' :: '"' :: rest) :
    string? ('"' :: cs) = quoted false .plain [] cs := by
  unfold string?
  split
  · next rest he => exact absurd (List.cons.inj he).2 (h rest)
  · next he => simp at he
  · next he => rw [(List.cons.inj he).2]
  · next he => simp at he
  · next ho _ => exact absurd rfl (ho cs)

theorem string?_append {word : List Char} (h : ∀ c ∈ word, isPlain c = true) {rest : List Char}
    (hr : rest.head? ≠ some '"') :
    string? ('"' :: (word ++ '"' :: rest)) = some (String.ofList word, rest) := by
  have hc : ∀ tail, word ++ '"' :: rest ≠ '"' :: '"' :: tail := by
    intro tail he
    cases word with
    | nil =>
        obtain ⟨-, rfl⟩ := List.cons.inj he
        exact hr rfl
    | cons c word =>
        have hc := h c List.mem_cons_self
        rw [(List.cons.inj he).1] at hc
        exact absurd hc (by decide)
  rw [string?_cons hc]
  exact quoted_append h [] rest

theorem ne_of_isBare {c d : Char} (hc : isBare c = true) (hd : isBare d = false) : c ≠ d := by
  rintro rfl
  exact Bool.false_ne_true (hd.symm.trans hc)

theorem IsBareKey.cons {key : String} (hk : IsBareKey key) :
    ∃ c cs, key.toList = c :: cs ∧ isBare c = true := by
  obtain ⟨hn, hb⟩ := hk
  obtain ⟨c, cs, he⟩ := List.exists_cons_of_ne_nil hn
  exact ⟨c, cs, he, hb c (he ▸ List.mem_cons_self)⟩

theorem skipBlank_of_isBare {c : Char} (hc : isBare c = true) (cs : List Char) :
    skipBlank (c :: cs) = c :: cs := by
  have hs := ne_of_isBare hc (d := ' ') rfl
  have ht := ne_of_isBare hc (d := '\t') rfl
  simp [skipBlank, isBlank, hs, ht]

theorem key?_append {key : String} (hk : IsBareKey key) {d : Char} (hd : isBare d = false)
    (rest : List Char) : key? (key.toList ++ d :: rest) = some (key, d :: rest) := by
  have ht : (key.toList ++ d :: rest).takeWhile isBare = key.toList := by
    rw [List.takeWhile_append_of_pos hk.2]
    simp [hd]
  have hw : (key.toList ++ d :: rest).dropWhile isBare = d :: rest := by
    rw [List.dropWhile_append_of_pos hk.2]
    simp [hd]
  obtain ⟨c, cs, he, hc⟩ := hk.cons
  rw [he, List.cons_append] at ht hw ⊢
  unfold key?
  split
  · next hq => exact absurd (List.cons.inj hq).1 (ne_of_isBare hc rfl)
  · next hq => exact absurd (List.cons.inj hq).1 (ne_of_isBare hc rfl)
  · have ho : String.ofList (c :: cs) = key := by rw [← he, String.ofList_toList]
    rw [ht, hw, ← ho]

theorem path?_append {key : String} (hk : IsBareKey key) (steps : Nat) (rest : List Char) :
    path? (steps + 1) (key.toList ++ ' ' :: '=' :: rest) = some ([key], '=' :: rest) := by
  have hs : skipBlank (key.toList ++ ' ' :: '=' :: rest) = key.toList ++ ' ' :: '=' :: rest := by
    obtain ⟨c, cs, he, hc⟩ := hk.cons
    rw [he]
    exact skipBlank_of_isBare hc _
  rw [path?, hs, key?_append hk rfl]
  rfl

theorem value?_append {word : List Char} (h : ∀ c ∈ word, isPlain c = true) (steps : Nat)
    (rest : List Char) :
    value? (steps + 1) ('"' :: (word ++ '"' :: '\n' :: rest)) =
      some (.text (String.ofList word), '\n' :: rest) := by
  have hs : string? ('"' :: (word ++ '"' :: '\n' :: rest)) =
      some (String.ofList word, '\n' :: rest) := string?_append h (by simp)
  rw [value?, hs]
  · rfl
  all_goals simp

theorem add?_of_not_mem {read : Entries} {key : String} (hk : key ∉ read.map Prod.fst)
    (v : Value) : Draft.add? ⟨read, []⟩ [key] v = some ⟨read ++ [(key, v)], []⟩ := by
  have hl : read.lookup key = none := Entries.lookup_eq_none_iff.mpr hk
  rw [Draft.add?, Entries.within, Entries.assign, hl]
  rfl

theorem newline?_of_isBare {c : Char} (hc : isBare c = true) (cs : List Char) :
    newline? (c :: cs) = none := by
  unfold newline?
  split
  · next hn => exact absurd (List.cons.inj hn).1 (ne_of_isBare hc rfl)
  · next hr => exact absurd (List.cons.inj hr).1 (ne_of_isBare hc rfl)
  · rfl

theorem lines?_cons {c : Char} (hc : isBare c = true) (steps : Nat) (d : Draft)
    (cs : List Char) :
    lines? (steps + 1) d (c :: cs) = (do
      let (path, cs) ← path? steps (c :: cs)
      let '=' :: cs := cs | none
      let (v, cs) ← value? steps (skipBlank cs)
      lines? steps (← d.add? path v) (← lineEnd? cs)) := by
  have hh : (c == '#') = false := by simpa using ne_of_isBare hc (d := '#') rfl
  rw [lines?, skipBlank_of_isBare hc]
  split
  · next he => cases he
  · next he => exact absurd (List.cons.inj he).1 (ne_of_isBare hc rfl)
  · next he =>
      obtain ⟨rfl, rfl⟩ := List.cons.inj he
      rw [hh, newline?_of_isBare hc]
      rfl

theorem lines?_line {e : String × String} (hk : IsBareKey e.1)
    (ht : ∀ c ∈ e.2.toList, isPlain c = true) {read : Entries}
    (hn : e.1 ∉ read.map Prod.fst) (steps : Nat) (rest : List Char) :
    lines? (steps + 2) ⟨read, []⟩ ((line e).toList ++ rest) =
      lines? (steps + 1) ⟨read ++ [(e.1, .text e.2)], []⟩ rest := by
  have hs : (line e).toList ++ rest =
      e.1.toList ++ ' ' :: '=' :: ' ' :: '"' :: (e.2.toList ++ '"' :: '\n' :: rest) := by
    simp [toList_line]
  have hp := path?_append hk steps (' ' :: '"' :: (e.2.toList ++ '"' :: '\n' :: rest))
  have hq : skipBlank (' ' :: '"' :: (e.2.toList ++ '"' :: '\n' :: rest)) =
      '"' :: (e.2.toList ++ '"' :: '\n' :: rest) := rfl
  have hv := value?_append ht steps rest
  have hl : lineEnd? ('\n' :: rest) = some rest := rfl
  obtain ⟨c, cs, he, hc⟩ := hk.cons
  rw [String.ofList_toList] at hv
  rw [hs]
  rw [he, List.cons_append] at hp ⊢
  simp only [lines?_cons hc, hp, hq, hv, hl, add?_of_not_mem hn, Option.bind_eq_bind,
    Option.bind_some]

theorem lines?_flat {es : List (String × String)} (h : Flat es) {read : Entries}
    (hn : ∀ e ∈ es, e.1 ∉ read.map Prod.fst) {steps : Nat} (hs : es.length < steps) :
    lines? steps ⟨read, []⟩ (String.join (es.map line)).toList =
      some (read ++ es.map fun e => (e.1, .text e.2)) := by
  induction es generalizing read steps with
  | nil =>
      obtain ⟨n, rfl⟩ := Nat.exists_eq_add_of_lt hs
      simp [lines?, skipBlank]
  | cons e es ih =>
      obtain ⟨hk, hks⟩ := List.forall_mem_cons.mp h.keys
      obtain ⟨ht, hts⟩ := List.forall_mem_cons.mp h.texts
      obtain ⟨he, hd⟩ := List.nodup_cons.mp h.distinct
      obtain ⟨hr, hrs⟩ := List.forall_mem_cons.mp hn
      obtain ⟨n, rfl⟩ : ∃ n, steps = n + 2 := ⟨steps - 2, by rw [List.length_cons] at hs; omega⟩
      have hm : ∀ f ∈ es, f.1 ∉ (read ++ [(e.1, Value.text e.2)]).map Prod.fst := by
        intro f hf
        have hfe : f.1 ≠ e.1 := fun heq => he (heq ▸ List.mem_map_of_mem hf)
        simpa [hfe] using hrs f hf
      rw [List.map_cons, String.join_cons, String.toList_append, lines?_line hk ht hr,
        ih ⟨hks, hts, hd⟩ hm (by simpa using hs)]
      simp

theorem length_le_join_line (es : List (String × String)) :
    es.length ≤ (String.join (es.map line)).toList.length := by
  induction es with
  | nil => simp
  | cons e es ih =>
      have he : 0 < (line e).toList.length := by
        rw [toList_line, List.length_append, List.length_cons]
        omega
      rw [List.map_cons, String.join_cons, String.toList_append, List.length_append,
        List.length_cons]
      omega

theorem Entries.ofText?_flat {es : List (String × String)} (h : Flat es) :
    Entries.ofText? (String.join (es.map line)) = some (es.map fun e => (e.1, .text e.2)) := by
  have hn : ∀ e ∈ es, e.1 ∉ ([] : Entries).map Prod.fst := fun _ _ => List.not_mem_nil
  have hs := Nat.lt_succ_of_le (length_le_join_line es)
  have hr := lines?_flat h hn hs
  unfold Entries.ofText?
  split
  · next cs hb =>
      cases es with
      | nil => cases hb
      | cons e es =>
          obtain ⟨c, tail, he, hc⟩ := (h.keys e List.mem_cons_self).cons
          rw [List.map_cons, String.join_cons, String.toList_append, toList_line, he] at hb
          exact absurd (List.cons.inj hb).1 (ne_of_isBare hc rfl)
  · exact hr

end Toml

theorem Settings.ofToml?_toToml (s : Settings) : ofToml? s.toToml = some s := by
  have hk : Toml.IsBareKey "unresolved_generics" := ⟨by simp, List.all_eq_true.mp (by decide)⟩
  have hp : ∀ c ∈ s.undeclared.word.toList, Toml.isPlain c = true := by
    apply List.all_eq_true.mp
    cases s.undeclared <;> decide
  have hf : Toml.Flat [("unresolved_generics", s.undeclared.word)] :=
    ⟨by simpa using hk, by simpa using hp, by simp⟩
  have hl : "unresolved_generics" ++ " = \"" = "unresolved_generics = \"" := by decide
  have ht : s.toToml =
      String.join ([("unresolved_generics", s.undeclared.word)].map Toml.line) := by
    rw [List.map_singleton, String.join_cons, String.join_nil, String.append_empty, Toml.line, hl]
    rfl
  rw [ht, ofToml?, Toml.Entries.ofText?_flat hf]
  exact congrArg (Option.map Settings.mk) (UndeclaredPolicy.ofWord?_word s.undeclared)

theorem UndeclaredPolicy.ofToml?_eq_some_iff {v : Toml.Value} {p : UndeclaredPolicy} :
    ofToml? v = some p ↔ v.Names p.word := by
  constructor
  · intro h
    unfold ofToml? at h
    split at h
    · cases ofWord?_eq_some_iff.mp h
      exact .text
    · cases ofWord?_eq_some_iff.mp h
      exact .table
    · cases ofWord?_eq_some_iff.mp h
      exact .array
    · cases h
  · rintro (_ | _ | _)
    · exact ofWord?_word p
    · exact ofWord?_word p
    · exact ofWord?_word p

theorem Settings.ofToml?_eq_some_iff {text : String} {s : Settings} :
    ofToml? text = some s ↔
      (Toml.Entries.ofText? text = some [] ∧ s = default) ∨
      ∃ v, Toml.Entries.ofText? text = some [("unresolved_generics", v)] ∧
        v.Names s.undeclared.word := by
  constructor
  · intro h
    unfold ofToml? at h
    split at h
    · next he => exact .inl ⟨he, (Option.some.inj h).symm⟩
    · next v he =>
        obtain ⟨p, hp, rfl⟩ := Option.map_eq_some_iff.mp h
        exact .inr ⟨v, he, UndeclaredPolicy.ofToml?_eq_some_iff.mp hp⟩
    · cases h
  · rintro (⟨he, rfl⟩ | ⟨v, he, hv⟩)
    · rw [ofToml?, he]
    · rw [ofToml?, he]
      exact Option.map_eq_some_iff.mpr
        ⟨s.undeclared, UndeclaredPolicy.ofToml?_eq_some_iff.mpr hv, rfl⟩

end ClassfileTypes
