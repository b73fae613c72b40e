import ClassfileTypes.Proofs.Erasure
import ClassfileTypes.Proofs.SelfDelimiting

namespace ClassfileTypes

def dotted (c : Char) : Char := if c = '/' then '.' else c

def Primitive.ofTag? (c : Char) : Option Primitive :=
  Primitive.all.find? fun k => k.tag == c

def readName : List Char → Option (List Char × List Char)
  | [] => none
  | c :: cs =>
      if c = ';' then some ([], cs)
      else (readName cs).map fun (name, rest) => (dotted c :: name, rest)

def readDescriptor : List Char → Option (Ty × List Char)
  | [] => none
  | '[' :: cs => (readDescriptor cs).map fun (t, rest) => (.array t, rest)
  | 'L' :: cs => (readName cs).map fun (name, rest) => (.named (String.ofList name), rest)
  | c :: cs => (Primitive.ofTag? c).map fun k => (.primitive k, cs)

theorem dotted_slashed {c : Char} (h : c ≠ '/') : dotted (slashed c) = c := by
  unfold slashed
  split
  · next hc => subst hc; rfl
  · simp [dotted, h]

theorem readName_slashed {name : List Char} (hm : ';' ∉ name) (hs : '/' ∉ name)
    (rest : List Char) :
    readName (name.map slashed ++ ';' :: rest) = some (name, rest) := by
  induction name with
  | nil => simp [readName]
  | cons c name ih =>
      obtain ⟨hmc, hm⟩ := not_or.mp (mt List.mem_cons.mpr hm)
      obtain ⟨hsc, hs⟩ := not_or.mp (mt List.mem_cons.mpr hs)
      have hc : slashed c ≠ ';' := mt (slashed_eq_iff (by decide) (by decide)).mp (Ne.symm hmc)
      rw [List.map_cons, List.cons_append, readName, if_neg hc, ih hm hs]
      simp [dotted_slashed (Ne.symm hsc)]

namespace Ty

def Legible (t : Ty) : Prop :=
  t.ClassNames fun name => ';' ∉ name.toList ∧ '/' ∉ name.toList

theorem readDescriptor_descriptor {t : Ty} (h : t.Legible) (rest : List Char) :
    readDescriptor (t.descriptor.toList ++ rest) = some (t.erase, rest) := by
  induction t with
  | primitive k => cases k <;> rfl
  | array c ih =>
      have hc := ih (classNames_array.mp h)
      rw [toList_descriptor_array, List.cons_append, readDescriptor, hc]
      rfl
  | named name =>
      obtain ⟨hm, hs⟩ := classNames_named.mp h
      rw [toList_descriptor_named, List.cons_append, readDescriptor, List.append_assoc,
        List.singleton_append, readName_slashed hm hs]
      simp
  | generic g _ ih => exact ih (classNames_generic.mp h)

theorem delimits_descriptor {t : Ty} (h : t.Legible) :
    Delimits (fun t : Ty => t.descriptor.toList) erase Legible t := by
  intro u hu x y hxy
  have ht := readDescriptor_descriptor h x
  rw [hxy, readDescriptor_descriptor hu y] at ht
  obtain ⟨he, hr⟩ := Prod.mk.inj (Option.some.inj ht)
  exact ⟨he.symm, hr.symm⟩

theorem stops_descriptor {cs : List Char} (h : readDescriptor cs = none) :
    Stops (fun t : Ty => t.descriptor.toList) Legible cs := by
  intro t ht rest hr
  rw [← hr, readDescriptor_descriptor ht rest] at h
  cases h

end Ty

def MethodType.Legible (m : MethodType) : Prop :=
  (∀ t ∈ m.parameters, t.Legible) ∧ m.result.Legible

theorem descriptors_read_back {ts us : List Ty} (ht : ∀ t ∈ ts, t.Legible)
    (hu : ∀ u ∈ us, u.Legible) (h : descriptors ts = descriptors us) :
    ts.map Ty.erase = us.map Ty.erase := by
  have hs : Stops (fun t : Ty => t.descriptor.toList) Ty.Legible [] := Ty.stops_descriptor rfl
  rw [← String.toList_inj, toList_descriptors, toList_descriptors] at h
  exact (flatMap_delimits (x := []) (y := []) ht hu
    (fun t m => Ty.delimits_descriptor (ht t m)) hs hs (by simpa using h)).1

theorem methodDescriptor_read_back {m n : MethodType} (hm : m.Legible) (hn : n.Legible)
    (h : m.descriptor = n.descriptor) :
    m.parameters.map Ty.erase = n.parameters.map Ty.erase ∧ m.result.erase = n.result.erase := by
  have hs (rest : List Char) :
      Stops (fun t : Ty => t.descriptor.toList) Ty.Legible (')' :: rest) :=
    Ty.stops_descriptor rfl
  rw [← String.toList_inj, MethodType.descriptor, MethodType.descriptor,
    toList_methodDescriptor, toList_methodDescriptor] at h
  obtain ⟨hp, hr⟩ := flatMap_delimits hm.1 hn.1 (fun t ht => Ty.delimits_descriptor (hm.1 t ht))
    (hs _) (hs _) (List.cons.inj h).2
  have hd : m.result.descriptor.toList ++ [] = n.result.descriptor.toList ++ [] := by
    simpa using hr
  exact ⟨hp, (Ty.delimits_descriptor hm.2 _ hn.2 _ _ hd).1⟩

theorem descriptors_uniquely_decodable :
    (∀ t : Ty, t.Legible → ∀ rest : String,
      readDescriptor (t.descriptor ++ rest).toList = some (t.erase, rest.toList)) ∧
    (∀ ts us : List Ty, (∀ t ∈ ts, t.Legible) → (∀ u ∈ us, u.Legible) →
      descriptors ts = descriptors us → ts.map Ty.erase = us.map Ty.erase) ∧
    (∀ m n : MethodType, m.Legible → n.Legible → m.descriptor = n.descriptor →
      m.parameters.map Ty.erase = n.parameters.map Ty.erase ∧
        m.result.erase = n.result.erase) := by
  refine ⟨?_, ?_, ?_⟩
  · intro t ht rest
    rw [String.toList_append]
    exact Ty.readDescriptor_descriptor ht rest.toList
  · intro ts us ht hu h
    exact descriptors_read_back ht hu h
  · intro m n hm hn h
    exact methodDescriptor_read_back hm hn h

theorem descriptors_uniquely_decodable_variable :
    let t : Ty := .array (.generic { GenericUse.var "T" with erasure := .array (.named "a.(b)[") })
    let u : Ty := .array (.array (.named "a.(b)["))
    t.Legible ∧ u.Legible ∧
    readDescriptor (t.descriptor ++ ")V").toList = some (u, [')', 'V']) ∧
    descriptors [t, .primitive .int] = descriptors [u, .primitive .int] ∧
    [t, .primitive .int].map Ty.erase = [u, .primitive .int].map Ty.erase ∧
    MethodType.descriptor ⟨[t], u⟩ = MethodType.descriptor ⟨[u], t⟩ ∧
    ([t].map Ty.erase = [u].map Ty.erase ∧ u.erase = t.erase) := by
  intro t u
  have hp : (Ty.primitive .int).Legible := fun name h => by cases h
  have hu : u.Legible := fun name h => by cases h; decide
  have ht : t.Legible := hu
  have hl : descriptors [t, .primitive .int] = descriptors [u, .primitive .int] := rfl
  have hm : MethodType.descriptor ⟨[t], u⟩ = MethodType.descriptor ⟨[u], t⟩ := rfl
  exact ⟨ht, hu, descriptors_uniquely_decodable.1 t ht ")V", hl,
    descriptors_uniquely_decodable.2.1 _ _ (by simp [ht, hp]) (by simp [hu, hp]) hl, hm,
    descriptors_uniquely_decodable.2.2 _ _ (by simp [MethodType.Legible, ht, hu])
      (by simp [MethodType.Legible, ht, hu]) hm⟩

end ClassfileTypes
