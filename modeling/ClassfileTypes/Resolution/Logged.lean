namespace ClassfileTypes

inductive Event where
  | declared (name : String) (depth : Nat)
  | erased (name : String)
  deriving DecidableEq, Repr

inductive Severity where
  | trace
  | debug
  deriving DecidableEq, Repr

namespace Event

def target (_ : Event) : String := "nova.descriptor"

def name : Event → String
  | .declared n _ => n
  | .erased n => n

def depth? : Event → Option Nat
  | .declared _ d => some d
  | .erased _ => none

def severity : Event → Severity
  | .declared _ _ => .trace
  | .erased _ => .debug

def message : Event → String
  | .declared _ _ => "type variable resolved from generic scope"
  | .erased _ => "type variable not declared in any scope; using its erasure"

end Event

structure Undeclared where
  name : String
  deriving DecidableEq, Repr

def Undeclared.message (e : Undeclared) : String :=
  "no generic bound found for type variable `" ++ e.name ++ "`"

structure Logged (ε α : Type) where
  result : Except ε α
  events : List Event

namespace Logged

variable {ε δ α β : Type}

def bind (x : Logged ε α) (f : α → Logged ε β) : Logged ε β :=
  match x.result with
  | .ok a =>
      let y := f a
      ⟨y.result, x.events ++ y.events⟩
  | .error e => ⟨.error e, x.events⟩

instance : Monad (Logged ε) where
  pure a := ⟨.ok a, []⟩
  bind := bind

def tell (event : Event) (a : α) : Logged ε α := ⟨.ok a, [event]⟩

def fail (e : ε) : Logged ε α := ⟨.error e, []⟩

def mapError (f : ε → δ) (x : Logged ε α) : Logged δ α :=
  ⟨x.result.mapError f, x.events⟩

end Logged

end ClassfileTypes
