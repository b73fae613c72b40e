namespace ClassfileTypes

inductive Primitive where
  | boolean
  | byte
  | char
  | short
  | int
  | long
  | float
  | double
  | void
  deriving DecidableEq, Repr

namespace Primitive

def tag : Primitive → Char
  | .boolean => 'Z'
  | .byte => 'B'
  | .char => 'C'
  | .short => 'S'
  | .int => 'I'
  | .long => 'J'
  | .float => 'F'
  | .double => 'D'
  | .void => 'V'

def keyword : Primitive → String
  | .boolean => "boolean"
  | .byte => "byte"
  | .char => "char"
  | .short => "short"
  | .int => "int"
  | .long => "long"
  | .float => "float"
  | .double => "double"
  | .void => "void"

def all : List Primitive :=
  [.boolean, .byte, .char, .short, .int, .long, .float, .double, .void]

def ofKeyword? (word : String) : Option Primitive :=
  all.find? fun p => p.keyword == word

theorem ofKeyword?_keyword (p : Primitive) : ofKeyword? p.keyword = some p := by
  cases p <;> decide

theorem keyword_of_ofKeyword? {word : String} {p : Primitive} (h : ofKeyword? word = some p) :
    p.keyword = word := by
  simpa using List.find?_some h

theorem tag_inj {p q : Primitive} : p.tag = q.tag ↔ p = q := by
  cases p <;> cases q <;> decide

theorem tag_notMem (k : Primitive) : k.tag ∉ ['L', 'T', '[', '*', '+', '-', '>', ';'] := by
  cases k <;> decide

end Primitive

end ClassfileTypes
