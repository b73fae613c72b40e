import ClassfileTypes.Proofs.Inference

namespace ClassfileTypes

namespace Logged

variable {ε α β : Type}

structure Sequential (R : (α : Type) → Logged ε α → Logged ε α → Prop) : Prop where
  pure : ∀ {α : Type} (a : α), R α (Pure.pure a) (Pure.pure a)
  bind : ∀ {α β : Type} {x y : Logged ε α} {f g : α → Logged ε β},
    R α x y → (∀ a, R β (f a) (g a)) → R β (x >>= f) (y >>= g)

namespace Sequential

variable {R : (α : Type) → Logged ε α → Logged ε α → Prop}

theorem map (hR : Sequential R) {x y : Logged ε α} (h : R α x y) (f : α → β) :
    R β (f <$> x) (f <$> y) := by
  rw [map_eq_pure_bind, map_eq_pure_bind]
  exact hR.bind h fun a => hR.pure (f a)

theorem foldlM (hR : Sequential R) {f g : β → α → Logged ε β} (h : ∀ b a, R β (f b a) (g b a))
    (as : List α) (b : β) : R β (as.foldlM f b) (as.foldlM g b) := by
  induction as generalizing b with
  | nil => exact hR.pure b
  | cons a as ih =>
      rw [List.foldlM_cons, List.foldlM_cons]
      exact hR.bind (h b a) ih

end Sequential

end Logged

namespace Resolver

variable {R : (α : Type) → Logged Undeclared α → Logged Undeclared α → Prop} {r s : Resolver}

theorem resolve_lockstep (hR : Logged.Sequential R)
    (h : ∀ g, R Ty (r.substitute g) (s.substitute g)) (t : Ty) :
    R Ty (r.resolve t) (s.resolve t) := by
  induction t with
  | primitive k => exact hR.pure _
  | array c ih => exact hR.map ih Ty.array
  | named name => exact hR.pure _
  | generic g _ _ =>
      rw [resolve, resolve]
      split
      · exact hR.pure _
      · exact h g

theorem inferTypeSpec_lockstep (hR : Logged.Sequential R)
    (h : ∀ g, R Ty (r.substitute g) (s.substitute g)) (m : MethodType) :
    R String (r.inferTypeSpec m) (s.inferTypeSpec m) := by
  have hw (out : String) (t : Ty) : R String (r.writeResolved out t) (s.writeResolved out t) :=
    hR.map (resolve_lockstep hR h t) (Ty.writeDescriptor out)
  exact hR.bind (hR.foldlM hw m.parameters "(") fun out => hw (out.push ')') m.result

end Resolver

end ClassfileTypes
