import ClassfileTypes.Resolution.Basic

namespace ClassfileTypes.Builder

abbrev Stack := List Ty

inductive Fault where
  | undeclared (e : Undeclared)
  | unreadable
  | misuse

inductive Instruction where
  | push (t : Ty)
  | wildcardOf (variance : Variance)
  | parameterized (className : String) (variances : List Variance)
  | withBounds (variances : List Variance)
  | withErasure
  | setResolved (b : Bool)
  | setWildcard (b : Bool)
  | rename (name : String)
  | erase
  | arrayOf (levels : Nat)
  | element
  | duplicate
  | resolve (r : Resolver)
  | repeated (times : Nat) (body : List Instruction)
  | look
  | broken (fault : Fault)

def bounds? (variances : List Variance) (stack : Stack) : Option (List (Bound Ty) × Stack) :=
  if variances.length ≤ stack.length then
    let tys := (stack.take variances.length).reverse
    some ((variances.zip tys).map fun (v, t) => ⟨v, t⟩, stack.drop variances.length)
  else none

def onGeneric (change : GenericUse Ty → Ty) : Stack → Option Stack
  | .generic g :: stack => some (change g :: stack)
  | _ => none

def direct? (stack : Stack) : Instruction → Option Stack
  | .push t => some (t :: stack)
  | .wildcardOf v =>
      match stack with
      | t :: stack => some (.generic (.wildcardOf ⟨v, t⟩) :: stack)
      | [] => none
  | .parameterized name vs => do
      let (bounds, stack) ← bounds? vs stack
      return .generic (.parameterized name bounds) :: stack
  | .withBounds vs => do
      let (bounds, stack) ← bounds? vs stack
      onGeneric (fun g => .generic { g with bounds }) stack
  | .withErasure =>
      match stack with
      | t :: stack => onGeneric (fun g => .generic { g with erasure := t }) stack
      | [] => none
  | .setResolved b => onGeneric (fun g => .generic { g with resolved := b }) stack
  | .setWildcard b => onGeneric (fun g => .generic { g with wildcard := b }) stack
  | .rename name => onGeneric (fun g => .generic { g with name }) stack
  | .erase => onGeneric (fun g => g.erasure) stack
  | .arrayOf n =>
      match stack with
      | t :: stack => some (t.arrayOf n :: stack)
      | [] => none
  | .element =>
      match stack with
      | t :: stack => some (t.element :: stack)
      | [] => none
  | .duplicate =>
      match stack with
      | t :: stack => some (t :: t :: stack)
      | [] => none
  | .look => some stack
  | .resolve _ | .repeated _ _ | .broken _ => none

structure Outcome where
  stack : Stack
  fault? : Option Fault
  events : List Event

namespace Outcome

def done (stack : Stack) : Outcome := ⟨stack, none, []⟩

def failed (fault : Fault) (stack : Stack) : Outcome := ⟨stack, some fault, []⟩

def andThen (o : Outcome) (next : Stack → Outcome) : Outcome :=
  match o.fault? with
  | some _ => o
  | none =>
      let p := next o.stack
      { p with events := o.events ++ p.events }

def iterate (body : Stack → Outcome) : Nat → Outcome → Outcome
  | 0, o => o
  | n + 1, o => if o.fault?.isSome then o else iterate body n (o.andThen body)

end Outcome

def resolveTop (r : Resolver) : Stack → Outcome
  | [] => .failed .misuse []
  | t :: stack =>
      let found := r.resolve t
      match found.result with
      | .ok u => ⟨u :: stack, none, found.events⟩
      | .error e => ⟨t :: stack, some (.undeclared e), found.events⟩

mutual

def run : Instruction → Stack → Outcome
  | .repeated times body, stack => Outcome.iterate (runAll body) times (.done stack)
  | .resolve r, stack => resolveTop r stack
  | .broken fault, stack => .failed fault stack
  | i, stack =>
      match direct? stack i with
      | some next => .done next
      | none => .failed .misuse stack

def runAll : List Instruction → Stack → Outcome
  | [], stack => .done stack
  | i :: is, stack => (run i stack).andThen (runAll is)

end

end ClassfileTypes.Builder
