namespace ClassfileTypes

inductive UndeclaredPolicy where
  | erasure
  | strict
  deriving DecidableEq, Repr

namespace UndeclaredPolicy

def word : UndeclaredPolicy → String
  | .erasure => "erasure"
  | .strict => "strict"

def ofWord? : String → Option UndeclaredPolicy
  | "erasure" => some .erasure
  | "strict" => some .strict
  | _ => none

theorem ofWord?_word (p : UndeclaredPolicy) : ofWord? p.word = some p := by
  cases p <;> rfl

theorem ofWord?_eq_some_iff {word : String} {p : UndeclaredPolicy} :
    ofWord? word = some p ↔ p.word = word := by
  constructor
  · intro h
    unfold ofWord? at h
    split at h <;> cases h <;> rfl
  · rintro rfl
    exact ofWord?_word p

end UndeclaredPolicy

structure Settings where
  undeclared : UndeclaredPolicy
  deriving DecidableEq, Repr

namespace Settings

def default : Settings := ⟨.erasure⟩

def strict : Settings := ⟨.strict⟩

end Settings

end ClassfileTypes
