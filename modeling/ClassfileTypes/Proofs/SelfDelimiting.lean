namespace ClassfileTypes

section Delimits

variable {α β : Type} (write : α → List Char) (view : α → β) (p : α → Prop)

def Delimits (a : α) : Prop :=
  ∀ b, p b → ∀ x y, write a ++ x = write b ++ y → view a = view b ∧ x = y

def DelimitsBefore (ok : List Char → Prop) (a : α) : Prop :=
  ∀ b, p b → ∀ x y, ok x → ok y → write a ++ x = write b ++ y → view a = view b ∧ x = y

def Stops (x : List Char) : Prop :=
  ∀ a, p a → ∀ y, write a ++ y ≠ x

variable {write view p}

theorem flatMap_delimitsBefore (ok : List Char → Prop)
    (hok : ∀ a, p a → ∀ x, ok (write a ++ x)) {as bs : List α} {x y : List Char}
    (ha : ∀ a ∈ as, p a) (hb : ∀ b ∈ bs, p b)
    (hd : ∀ a ∈ as, DelimitsBefore write view p ok a) (hox : ok x) (hoy : ok y)
    (hx : Stops write p x) (hy : Stops write p y)
    (h : as.flatMap write ++ x = bs.flatMap write ++ y) :
    as.map view = bs.map view ∧ x = y := by
  have follows {cs : List α} (hc : ∀ c ∈ cs, p c) {z : List Char} (hz : ok z) :
      ok (cs.flatMap write ++ z) := by
    cases cs with
    | nil => exact hz
    | cons c cs =>
        rw [List.flatMap_cons, List.append_assoc]
        exact hok c (hc c (List.mem_cons_self ..)) _
  induction as generalizing bs with
  | nil =>
      cases bs with
      | nil => exact ⟨rfl, h⟩
      | cons b bs =>
          have hs : write b ++ (bs.flatMap write ++ y) = x := by simpa using h.symm
          exact absurd hs (hx b (hb b (List.mem_cons_self ..)) _)
  | cons a as ih =>
      have has : ∀ c ∈ as, p c := fun c hc => ha c (List.mem_cons_of_mem _ hc)
      cases bs with
      | nil =>
          have hs : write a ++ (as.flatMap write ++ x) = y := by simpa using h
          exact absurd hs (hy a (ha a (List.mem_cons_self ..)) _)
      | cons b bs =>
          have hbs : ∀ c ∈ bs, p c := fun c hc => hb c (List.mem_cons_of_mem _ hc)
          have hs : write a ++ (as.flatMap write ++ x) = write b ++ (bs.flatMap write ++ y) := by
            simpa using h
          obtain ⟨hv, hr⟩ := hd a (List.mem_cons_self ..) b (hb b (List.mem_cons_self ..)) _ _
            (follows has hox) (follows hbs hoy) hs
          obtain ⟨hvs, hxy⟩ := ih has hbs (fun c hc => hd c (List.mem_cons_of_mem _ hc)) hr
          exact ⟨by rw [List.map_cons, List.map_cons, hv, hvs], hxy⟩

theorem flatMap_delimits {as bs : List α} {x y : List Char} (ha : ∀ a ∈ as, p a)
    (hb : ∀ b ∈ bs, p b) (hd : ∀ a ∈ as, Delimits write view p a)
    (hx : Stops write p x) (hy : Stops write p y)
    (h : as.flatMap write ++ x = bs.flatMap write ++ y) :
    as.map view = bs.map view ∧ x = y :=
  flatMap_delimitsBefore (fun _ => True) (fun _ _ _ => trivial) ha hb
    (fun a m b hpb x y _ _ => hd a m b hpb x y) trivial trivial hx hy h

end Delimits

theorem append_cons_unique {a b x y : List Char} {c d : Char} (hc : c ∉ b) (hd : d ∉ a)
    (h : a ++ c :: x = b ++ d :: y) : a = b ∧ c = d ∧ x = y := by
  induction a generalizing b with
  | nil =>
      cases b with
      | nil => simpa using h
      | cons e b =>
          obtain ⟨rfl, -⟩ := List.cons.inj h
          exact absurd (List.mem_cons_self ..) hc
  | cons e a ih =>
      cases b with
      | nil =>
          obtain ⟨rfl, -⟩ := List.cons.inj h
          exact absurd (List.mem_cons_self ..) hd
      | cons f b =>
          obtain ⟨rfl, hr⟩ := List.cons.inj h
          have hcb : c ∉ b := List.not_mem_of_not_mem_cons hc
          have hda : d ∉ a := List.not_mem_of_not_mem_cons hd
          obtain ⟨rfl, he⟩ := ih hcb hda hr
          exact ⟨rfl, he⟩

end ClassfileTypes
