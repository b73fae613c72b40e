import ClassfileTypes.Settings
import ClassfileTypes.Toml.Document

namespace ClassfileTypes

def UndeclaredPolicy.ofToml? : Toml.Value → Option UndeclaredPolicy
  | .text s => ofWord? s
  | .table _ [(s, .table _ [])] => ofWord? s
  | .table _ [(s, .emptyArray)] => ofWord? s
  | _ => none

namespace Settings

def ofToml? (text : String) : Option Settings :=
  match Toml.Entries.ofText? text with
  | some [] => some default
  | some [("unresolved_generics", v)] => (UndeclaredPolicy.ofToml? v).map Settings.mk
  | _ => none

def toToml (s : Settings) : String :=
  "unresolved_generics = \"" ++ s.undeclared.word ++ "\"\n"

end Settings

end ClassfileTypes
