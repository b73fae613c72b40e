import ClassfileTypes.Ty.Basic

namespace ClassfileTypes.Ty

@[induction_eliminator]
theorem induct {motive : Ty → Prop}
    (primitive : ∀ kind, motive (.primitive kind))
    (array : ∀ component, motive component → motive (.array component))
    (named : ∀ name, motive (.named name))
    (generic : ∀ g : GenericUse Ty, (∀ b ∈ g.bounds, motive b.ty) → motive g.erasure →
      motive (.generic g))
    (t : Ty) : motive t :=
  Ty.rec (motive_1 := motive)
    (motive_2 := fun g => (∀ b ∈ g.bounds, motive b.ty) ∧ motive g.erasure)
    (motive_3 := fun bs => ∀ b ∈ bs, motive b.ty)
    (motive_4 := fun b => motive b.ty)
    primitive array named (fun g h => generic g h.1 h.2)
    (fun _ _ _ _ _ hb he => ⟨hb, he⟩)
    (fun _ h => absurd h List.not_mem_nil)
    (fun _ _ hb hbs _ h => (List.mem_cons.1 h).elim (fun e => e ▸ hb) (hbs _))
    (fun _ _ h => h) t

mutual

def same : Ty → Ty → Bool
  | .primitive k, .primitive l => k == l
  | .array c, .array d => same c d
  | .named m, .named n => m == n
  | .generic ⟨m, r, w, bs, e⟩, .generic ⟨n, s, x, cs, f⟩ =>
      m == n && r == s && w == x && sameBounds bs cs && same e f
  | _, _ => false

def sameBounds : List (Bound Ty) → List (Bound Ty) → Bool
  | [], [] => true
  | ⟨v, t⟩ :: bs, ⟨w, u⟩ :: cs => v == w && same t u && sameBounds bs cs
  | _, _ => false

end

theorem sameBounds_iff {bs cs : List (Bound Ty)}
    (ih : ∀ b ∈ bs, ∀ u, same b.ty u = true ↔ b.ty = u) :
    sameBounds bs cs = true ↔ bs = cs := by
  induction bs generalizing cs with
  | nil => cases cs <;> simp [sameBounds]
  | cons b bs step =>
      cases cs with
      | nil => simp [sameBounds]
      | cons c cs =>
          simp only [sameBounds, Bool.and_eq_true, beq_iff_eq,
            ih b (List.mem_cons_self ..), step fun d hd => ih d (List.mem_cons_of_mem _ hd),
            List.cons.injEq]
          cases b; cases c; simp

theorem same_iff {t u : Ty} : same t u = true ↔ t = u := by
  induction t generalizing u with
  | primitive k => cases u <;> simp [same]
  | array c ih => cases u <;> simp [same, ih]
  | named n => cases u <;> simp [same]
  | generic g ihb ihe =>
      cases u with
      | generic h =>
          obtain ⟨m, r, w, bs, e⟩ := g
          obtain ⟨n, s, x, cs, f⟩ := h
          simp only [same, Bool.and_eq_true, beq_iff_eq, ihe,
            sameBounds_iff fun b hb u => ihb b hb (u := u)]
          simp [and_assoc]
      | _ => simp [same]

instance : DecidableEq Ty := fun _ _ => decidable_of_iff _ same_iff

end ClassfileTypes.Ty
