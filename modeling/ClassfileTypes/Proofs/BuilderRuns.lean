import ClassfileTypes.Builder

namespace ClassfileTypes.Builder

def Instruction.Single : Instruction → Prop
  | .repeated _ _ => False
  | _ => True

mutual

def unroll : Instruction → List Instruction
  | .repeated times body => (List.replicate times (unrollAll body)).flatten
  | i => [i]

def unrollAll : List Instruction → List Instruction
  | [] => []
  | i :: is => unroll i ++ unrollAll is

end

structure StopsAt (before : List Instruction) (i : Instruction) (stack : Stack) (o : Outcome) :
    Prop where
  passes : (runAll before stack).fault? = none
  fault : (run i (runAll before stack).stack).fault? = o.fault?
  kept : o.stack = (runAll before stack).stack
  logged : o.events = (runAll before stack).events ++ (run i (runAll before stack).stack).events

namespace Outcome

theorem done_andThen (stack : Stack) (next : Stack → Outcome) :
    (done stack).andThen next = next stack := by
  simp [done, andThen]

theorem andThen_done (o : Outcome) : o.andThen done = o := by
  cases o with
  | mk stack fault? events => cases fault? <;> simp [andThen, done]

theorem andThen_of_fault {o : Outcome} {f : Fault} (h : o.fault? = some f)
    (next : Stack → Outcome) : o.andThen next = o := by
  simp [andThen, h]

theorem andThen_of_none {o : Outcome} (h : o.fault? = none) (next : Stack → Outcome) :
    o.andThen next = ⟨(next o.stack).stack, (next o.stack).fault?,
      o.events ++ (next o.stack).events⟩ := by
  simp [andThen, h]

theorem andThen_assoc (o : Outcome) (next after : Stack → Outcome) :
    (o.andThen next).andThen after = o.andThen fun stack => (next stack).andThen after := by
  cases hf : o.fault? with
  | some f => rw [andThen_of_fault hf, andThen_of_fault hf, andThen_of_fault hf]
  | none =>
      rw [andThen_of_none hf, andThen_of_none hf]
      cases hn : (next o.stack).fault? with
      | some f => rw [andThen_of_fault hn, andThen_of_fault rfl, hn]
      | none =>
          rw [andThen_of_none hn, andThen_of_none rfl]
          exact congrArg (Outcome.mk _ _) (List.append_assoc _ _ _)

end Outcome

theorem runAll_nil : runAll [] = Outcome.done := by
  funext stack
  rw [runAll]

theorem runAll_append (is js : List Instruction) (stack : Stack) :
    runAll (is ++ js) stack = (runAll is stack).andThen (runAll js) := by
  induction is generalizing stack with
  | nil => exact (Outcome.done_andThen stack (runAll js)).symm
  | cons i is ih =>
      have hn : runAll (is ++ js) = fun s => (runAll is s).andThen (runAll js) := funext ih
      rw [List.cons_append, runAll, runAll, hn, Outcome.andThen_assoc]

theorem iterate_runAll (body : List Instruction) (times : Nat) (o : Outcome) :
    Outcome.iterate (runAll body) times o =
      o.andThen (runAll (List.replicate times body).flatten) := by
  induction times generalizing o with
  | zero =>
      rw [Outcome.iterate, List.replicate_zero, List.flatten_nil, runAll_nil, Outcome.andThen_done]
  | succ times ih =>
      rw [Outcome.iterate, ih, Outcome.andThen_assoc, List.replicate_succ, List.flatten_cons]
      simp only [← runAll_append]
      split
      · next hf =>
          obtain ⟨f, hf⟩ := Option.isSome_iff_exists.mp hf
          rw [Outcome.andThen_of_fault hf]
      · rfl

theorem run_repeated (times : Nat) (body : List Instruction) (stack : Stack) :
    run (.repeated times body) stack = runAll (List.replicate times body).flatten stack := by
  rw [run, iterate_runAll, Outcome.done_andThen]

theorem runAll_singleton (i : Instruction) (stack : Stack) : runAll [i] stack = run i stack := by
  rw [runAll, runAll_nil, Outcome.andThen_done]

theorem runAll_flatten_replicate {is js : List Instruction}
    (h : ∀ stack, runAll is stack = runAll js stack) (times : Nat) (stack : Stack) :
    runAll (List.replicate times is).flatten stack =
      runAll (List.replicate times js).flatten stack := by
  induction times generalizing stack with
  | zero => rfl
  | succ times ih =>
      rw [List.replicate_succ, List.replicate_succ, List.flatten_cons, List.flatten_cons,
        runAll_append, runAll_append, h, funext ih]

mutual

theorem runAll_unroll (i : Instruction) (stack : Stack) :
    runAll (unroll i) stack = run i stack := by
  cases i with
  | repeated times body =>
      rw [unroll, run_repeated]
      exact runAll_flatten_replicate (runAll_unrollAll body) times stack
  | _ => exact runAll_singleton _ stack

theorem runAll_unrollAll (is : List Instruction) (stack : Stack) :
    runAll (unrollAll is) stack = runAll is stack := by
  cases is with
  | nil => rfl
  | cons i is =>
      rw [unrollAll, runAll_append, runAll_unroll i, runAll, funext (runAll_unrollAll is)]

end

mutual

theorem single_of_mem_unroll (i : Instruction) {j : Instruction} (h : j ∈ unroll i) :
    j.Single := by
  cases i with
  | repeated times body =>
      rw [unroll] at h
      obtain ⟨is, hi, hj⟩ := List.mem_flatten.mp h
      rw [List.eq_of_mem_replicate hi] at hj
      exact single_of_mem_unrollAll body hj
  | _ =>
      cases List.mem_singleton.mp h
      trivial

theorem single_of_mem_unrollAll (is : List Instruction) {j : Instruction}
    (h : j ∈ unrollAll is) : j.Single := by
  cases is with
  | nil => cases h
  | cons i is =>
      rw [unrollAll] at h
      rcases List.mem_append.mp h with h | h
      · exact single_of_mem_unroll i h
      · exact single_of_mem_unrollAll is h

end

theorem resolveTop_stack_of_fault {r : Resolver} {stack : Stack} {f : Fault}
    (h : (resolveTop r stack).fault? = some f) : (resolveTop r stack).stack = stack := by
  cases stack with
  | nil => rfl
  | cons t stack =>
      revert h
      simp only [resolveTop]
      split
      · intro h
        cases h
      · intro
        rfl

theorem run_stack_of_fault {i : Instruction} (hi : i.Single) {stack : Stack} {f : Fault}
    (h : (run i stack).fault? = some f) : (run i stack).stack = stack := by
  revert h
  unfold run
  split
  · exact hi.elim
  · exact resolveTop_stack_of_fault
  · intro; rfl
  · split
    · intro h
      cases h
    · intro; rfl

theorem StopsAt.cons {first : Instruction} {stack : Stack} (hf : (run first stack).fault? = none)
    {before : List Instruction} {i : Instruction} {o : Outcome}
    (h : StopsAt before i (run first stack).stack o) :
    StopsAt (first :: before) i stack
      ⟨o.stack, o.fault?, (run first stack).events ++ o.events⟩ := by
  have hr : runAll (first :: before) stack =
      ⟨(runAll before (run first stack).stack).stack,
        (runAll before (run first stack).stack).fault?,
        (run first stack).events ++ (runAll before (run first stack).stack).events⟩ := by
    rw [runAll, Outcome.andThen_of_none hf]
  refine ⟨?_, ?_, ?_, ?_⟩
  · rw [hr]
    exact h.passes
  · rw [hr]
    exact h.fault
  · rw [hr]
    exact h.kept
  · rw [hr, h.logged, List.append_assoc]

theorem exists_stopsAt {is : List Instruction} (hs : ∀ i ∈ is, i.Single) {stack : Stack}
    {f : Fault} (h : (runAll is stack).fault? = some f) :
    ∃ before i after, is = before ++ i :: after ∧ StopsAt before i stack (runAll is stack) := by
  induction is generalizing stack with
  | nil => cases h
  | cons i is ih =>
      obtain ⟨hi, his⟩ := List.forall_mem_cons.mp hs
      rw [runAll] at h ⊢
      cases hf : (run i stack).fault? with
      | some g =>
          rw [Outcome.andThen_of_fault hf]
          exact ⟨[], i, is, rfl, rfl, rfl, run_stack_of_fault hi hf, rfl⟩
      | none =>
          rw [Outcome.andThen_of_none hf] at h ⊢
          obtain ⟨before, j, after, rfl, hj⟩ := ih his h
          exact ⟨i :: before, j, after, rfl, hj.cons hf⟩

theorem failed_run_stops {is : List Instruction} {stack : Stack} {f : Fault}
    (h : (runAll is stack).fault? = some f) :
    ∃ before i after, unrollAll is = before ++ i :: after ∧ i.Single ∧
      StopsAt before i stack (runAll is stack) := by
  have hs : ∀ i ∈ unrollAll is, i.Single := fun i => single_of_mem_unrollAll is
  rw [← runAll_unrollAll] at h
  obtain ⟨before, i, after, he, hi⟩ := exists_stopsAt hs h
  rw [runAll_unrollAll] at hi
  exact ⟨before, i, after, he, hs i (he ▸ by simp), hi⟩

end ClassfileTypes.Builder
