import ClassfileTypes.Proofs.Lockstep

namespace ClassfileTypes

inductive Guarded (α : Type) : Logged Undeclared α → Logged Undeclared α → Prop
  | agrees (a : α) {events : List Event} : (∀ e ∈ events, e.severity = .trace) →
      Guarded α ⟨.ok a, events⟩ ⟨.ok a, events⟩
  | refuses (name : String) (a : α) {before : List Event} (after : List Event) :
      (∀ e ∈ before, e.severity = .trace) →
      Guarded α ⟨.error ⟨name⟩, before⟩ ⟨.ok a, before ++ .erased name :: after⟩

namespace Guarded

variable {α β : Type} {x y : Logged Undeclared α}

theorem finishes (h : Guarded α x y) : ∃ a, y.result = .ok a := by
  cases h with
  | agrees a _ => exact ⟨a, rfl⟩
  | refuses _ a _ _ => exact ⟨a, rfl⟩

theorem bind (h : Guarded α x y) {f g : α → Logged Undeclared β}
    (hf : ∀ a, Guarded β (f a) (g a)) : Guarded β (x >>= f) (y >>= g) := by
  cases h with
  | @agrees a events he =>
      have hfa := hf a
      rw [Logged.bind_of_ok rfl, Logged.bind_of_ok rfl]
      have hs {more : List Event} (hm : ∀ e ∈ more, e.severity = .trace) :
          ∀ e ∈ events ++ more, e.severity = .trace :=
        fun e hmem => (List.mem_append.mp hmem).elim (he e) (hm e)
      generalize f a = x, g a = y at hfa
      cases hfa with
      | agrees b hm => exact .agrees b (hs hm)
      | refuses name b after hm =>
          rw [← List.append_assoc]
          exact .refuses name b after (hs hm)
  | @refuses name a before after he =>
      -- The strict run is over here; the erasing run goes on, and it finishes whatever comes.
      obtain ⟨b, hb⟩ := (hf a).finishes
      rw [Logged.bind_of_error rfl, Logged.bind_of_ok rfl, hb, List.append_assoc, List.cons_append]
      exact .refuses name b _ he

theorem sequential : Logged.Sequential Guarded :=
  ⟨fun a => .agrees a nofun, fun h hf => h.bind hf⟩

theorem eq_of_ok (h : Guarded α x y) {a : α} (ha : x.result = .ok a) :
    y = x ∧ ∀ e ∈ x.events, e.severity ≠ .debug := by
  cases h with
  | agrees b he => exact ⟨rfl, fun e hm => by simp [he e hm]⟩
  | refuses => cases ha

theorem events_of_error (h : Guarded α x y) {name : String}
    (hn : x.result = .error ⟨name⟩) : x.events ++ [.erased name] <+: y.events := by
  cases h with
  | agrees => cases hn
  | refuses _ _ after _ =>
      cases hn
      exact ⟨after, by simp⟩

theorem find?_debug_eq_none {events : List Event} (h : ∀ e ∈ events, e.severity = .trace) :
    events.find? (fun e => e.severity == .debug) = none := by
  rw [List.find?_eq_none]
  intro e he
  simp [h e he]

theorem refused_iff (h : Guarded α x y) {name : String} :
    x.result = .error ⟨name⟩ ↔
      y.events.find? (fun e => e.severity == .debug) = some (.erased name) := by
  cases h with
  | agrees a he => simp [find?_debug_eq_none he]
  | refuses n a after he =>
      rw [List.find?_append, find?_debug_eq_none he]
      simp [Event.severity]

theorem fails_iff (h : Guarded α x y) :
    (∃ e, x.result = .error e) ↔ ∃ e ∈ y.events, e.severity = .debug := by
  cases h with
  | agrees a he =>
      constructor
      · rintro ⟨e, he⟩
        cases he
      · rintro ⟨e, hm, hd⟩
        rw [he e hm] at hd
        cases hd
  | refuses n a after _ => exact ⟨fun _ => ⟨.erased n, by simp, rfl⟩, fun _ => ⟨_, rfl⟩⟩

end Guarded

namespace Resolver

def strict (scopes : List Scope) : Resolver := ⟨scopes, .strict⟩

def erasing (scopes : List Scope) : Resolver := ⟨scopes, ⟨.erasure⟩⟩

theorem guarded_substitute (scopes : List Scope) (g : GenericUse Ty) :
    Guarded Ty ((strict scopes).substitute g) ((erasing scopes).substitute g) := by
  unfold substitute strict erasing
  cases Scope.locate? g.name scopes with
  | some found => exact .agrees found.2 (by simp [Event.severity])
  | none => exact .refuses g.name g.erasure [] nofun

theorem strict_is_guarded_erasing (scopes : List Scope) (m : MethodType) :
    (∃ d, ((erasing scopes).inferTypeSpec m).result = .ok d) ∧
    (∀ d, ((strict scopes).inferTypeSpec m).result = .ok d →
      (erasing scopes).inferTypeSpec m = (strict scopes).inferTypeSpec m ∧
      ∀ e ∈ ((strict scopes).inferTypeSpec m).events, e.severity ≠ .debug) ∧
    (∀ name, ((strict scopes).inferTypeSpec m).result = .error ⟨name⟩ →
      ((strict scopes).inferTypeSpec m).events ++ [.erased name] <+:
        ((erasing scopes).inferTypeSpec m).events) ∧
    ((∃ e, ((strict scopes).inferTypeSpec m).result = .error e) ↔
      ∃ e ∈ ((erasing scopes).inferTypeSpec m).events, e.severity = .debug) ∧
    (∀ name, ((strict scopes).inferTypeSpec m).result = .error ⟨name⟩ ↔
      ((erasing scopes).inferTypeSpec m).events.find? (fun e => e.severity == .debug) =
        some (.erased name)) := by
  have h : Guarded String ((strict scopes).inferTypeSpec m) ((erasing scopes).inferTypeSpec m) :=
    inferTypeSpec_lockstep Guarded.sequential (guarded_substitute scopes) m
  exact ⟨h.finishes, fun _ => h.eq_of_ok, fun _ => h.events_of_error, h.fails_iff,
    fun _ => h.refused_iff⟩

theorem strict_is_guarded_erasing_mixed :
    let scopes : List Scope := [⟨[⟨"T", [.named "java.lang.Number"], false⟩]⟩]
    let m : MethodType := ⟨[.array (.generic (.var "T")), .generic (.var "U")], .generic (.var "V")⟩
    ((strict scopes).inferTypeSpec m).result = .error ⟨"U"⟩ ∧
    ((strict scopes).inferTypeSpec m).events ++ [.erased "U"] <+:
      ((erasing scopes).inferTypeSpec m).events ∧
    ((erasing scopes).inferTypeSpec m).events.find? (fun e => e.severity == .debug) =
      some (.erased "U") ∧
    ((strict scopes).inferTypeSpec ⟨m.parameters.take 1, .object⟩).result =
      .ok "([Ljava/lang/Number;)Ljava/lang/Object;" ∧
    (erasing scopes).inferTypeSpec ⟨m.parameters.take 1, .object⟩ =
      (strict scopes).inferTypeSpec ⟨m.parameters.take 1, .object⟩ := by
  intro scopes m
  obtain ⟨-, -, hprefix, -, hname⟩ := strict_is_guarded_erasing scopes m
  obtain ⟨-, hok, -, -⟩ := strict_is_guarded_erasing scopes ⟨m.parameters.take 1, .object⟩
  have hu : ((strict scopes).inferTypeSpec m).result = .error ⟨"U"⟩ := by rfl
  have hd : ((strict scopes).inferTypeSpec ⟨m.parameters.take 1, .object⟩).result =
      .ok "([Ljava/lang/Number;)Ljava/lang/Object;" := by decide +kernel
  exact ⟨hu, hprefix "U" hu, (hname "U").mp hu, hd, (hok _ hd).1⟩

end Resolver

end ClassfileTypes
