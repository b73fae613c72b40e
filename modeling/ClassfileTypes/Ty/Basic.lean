import ClassfileTypes.Name
import ClassfileTypes.Primitive

namespace ClassfileTypes

inductive Variance where
  | invariant
  | covariant
  | contravariant
  deriving DecidableEq, Repr

def Variance.sign : Variance → String
  | .invariant => ""
  | .covariant => "+"
  | .contravariant => "-"

structure Bound (α : Type) where
  variance : Variance
  ty : α
  deriving DecidableEq

structure GenericUse (α : Type) where
  name : String
  resolved : Bool
  wildcard : Bool
  bounds : List (Bound α)
  erasure : α
  deriving DecidableEq

inductive Ty where
  | primitive (kind : Primitive)
  | array (component : Ty)
  | named (name : String)
  | generic (g : GenericUse Ty)

namespace Ty

def object : Ty := .named objectName

def arrayOf (t : Ty) : Nat → Ty
  | 0 => t
  | n + 1 => (array t).arrayOf n

def dimensions : Ty → Nat
  | .array c => c.dimensions + 1
  | _ => 0

def element : Ty → Ty
  | .array c => c.element
  | t => t

def isPrimitive : Ty → Bool
  | .primitive _ => true
  | _ => false

def isArray : Ty → Bool
  | .array _ => true
  | _ => false

def generic? : Ty → Option (GenericUse Ty)
  | .generic g => some g
  | _ => none

theorem arrayOf_succ (t : Ty) (n : Nat) : t.arrayOf (n + 1) = .array (t.arrayOf n) := by
  induction n generalizing t with
  | zero => rfl
  | succ n ih => exact ih (.array t)

theorem arrayOf_element (t : Ty) : t.element.arrayOf t.dimensions = t :=
  match t with
  | .array c => (arrayOf_succ _ _).trans (congrArg Ty.array (arrayOf_element c))
  | .primitive _ | .named _ | .generic _ => rfl

theorem element_arrayOf (t : Ty) (n : Nat) : (t.arrayOf n).element = t.element := by
  induction n generalizing t with
  | zero => rfl
  | succ n ih => exact ih (.array t)

theorem element_ne_array (t c : Ty) : t.element ≠ .array c :=
  match t with
  | .array d => element_ne_array d c
  | .primitive _ | .named _ | .generic _ => nofun

theorem dimensions_arrayOf (t : Ty) (n : Nat) : (t.arrayOf n).dimensions = t.dimensions + n := by
  induction n with
  | zero => rfl
  | succ n ih => rw [arrayOf_succ, dimensions, ih, Nat.add_assoc]

theorem arrayOf_arrayOf (t : Ty) (m n : Nat) : (t.arrayOf m).arrayOf n = t.arrayOf (m + n) := by
  induction n with
  | zero => rfl
  | succ n ih => rw [arrayOf_succ, ih, Nat.add_succ, arrayOf_succ]

end Ty

namespace GenericUse

def var (name : String) : GenericUse Ty :=
  ⟨name, false, false, [], .object⟩

def unbounded : GenericUse Ty :=
  ⟨"*", false, true, [], .object⟩

def wildcardOf (bound : Bound Ty) : GenericUse Ty :=
  ⟨"*", false, true, [bound], if bound.variance = .contravariant then .object else bound.ty⟩

def parameterized (className : String) (arguments : List (Bound Ty)) : GenericUse Ty :=
  ⟨"L" ++ internalName className, true, false, arguments, .named className⟩

end GenericUse

end ClassfileTypes
