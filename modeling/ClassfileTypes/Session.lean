import ClassfileTypes.Resolution.Basic
import ClassfileTypes.Signature.Basic

namespace ClassfileTypes

def Scope.declare (p : TypeParameter) : List Scope → List Scope
  | [] => [⟨[p]⟩]
  | [s] => [s.add p]
  | s :: outer => s :: declare p outer

structure Session where
  scopes : List Scope
  settings : Settings
  last : Ty

namespace Session

def start : Session := ⟨[], .default, .object⟩

inductive Command where
  | pushScope (scope : Scope)
  | popScope
  | declare (p : TypeParameter)
  | configure (settings : Settings)
  | configureFrom (read? : Option Settings)
  | resolve (t : Ty)
  | resolveLast
  | infer (parameters : List Parameter) (result : Ty)
  | signatures
  | state

inductive Reply where
  | changed (scopes : Nat) (settings : Settings)
  | ty (t : Ty)
  | text (s : String)
  | texts (ss : List String)
  | state (scopes : List Scope) (settings : Settings)

inductive Failure where
  | undeclared (e : Undeclared)
  | invalidSettings

def resolver (s : Session) : Resolver := ⟨s.scopes, s.settings⟩

def changed (s : Session) : Logged Failure (Session × Reply) :=
  pure (s, .changed s.scopes.length s.settings)

def resolveIn (s : Session) (t : Ty) : Logged Failure (Session × Reply) := do
  let u ← (s.resolver.resolve t).mapError .undeclared
  return ({ s with last := u }, .ty u)

def attempt (s : Session) : Command → Logged Failure (Session × Reply)
  | .pushScope scope => changed { s with scopes := s.scopes ++ [scope] }
  | .popScope => changed { s with scopes := s.scopes.dropLast }
  | .declare p => changed { s with scopes := Scope.declare p s.scopes }
  | .configure settings => changed { s with settings }
  | .configureFrom (some settings) => changed { s with settings }
  | .configureFrom none => .fail .invalidSettings
  | .resolve t => s.resolveIn t
  | .resolveLast => s.resolveIn s.last
  | .infer parameters result => do
      let text ← (s.resolver.inferDescriptor parameters result).mapError .undeclared
      return (s, .text text)
  | .signatures => pure (s, .texts (s.scopes.map Scope.signature))
  | .state => pure (s, .state s.scopes s.settings)

def run (s : Session) (command : Command) : Session × Logged Failure Reply :=
  let outcome := s.attempt command
  match outcome.result with
  | .ok (next, reply) => (next, ⟨.ok reply, outcome.events⟩)
  | .error e => (s, ⟨.error e, outcome.events⟩)

end Session

end ClassfileTypes
