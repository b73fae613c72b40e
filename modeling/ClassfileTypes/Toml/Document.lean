import ClassfileTypes.Toml.Table
import ClassfileTypes.Toml.Text

namespace ClassfileTypes.Toml

def path? : Nat → List Char → Option (List String × List Char)
  | 0, _ => none
  | steps + 1, cs => do
      let (key, cs) ← key? (skipBlank cs)
      match skipBlank cs with
      | '.' :: cs =>
          let (path, cs) ← path? steps cs
          return (key :: path, cs)
      | cs => return ([key], cs)

def arrayEnd? (comment : Bool) : List Char → Option (List Char)
  | [] => none
  | c :: cs =>
      if c == '\n' then arrayEnd? false cs
      else if (newline? (c :: cs)).isSome then arrayEnd? comment cs
      else if comment then
        if isPrintable c then arrayEnd? true cs else none
      else if c == ']' then some cs
      else if c == '#' then arrayEnd? true cs
      else if isBlank c then arrayEnd? false cs
      else none

mutual

def value? : Nat → List Char → Option (Value × List Char)
  | 0, _ => none
  | _ + 1, '[' :: cs => do return (.emptyArray, ← arrayEnd? false cs)
  | steps + 1, '{' :: cs =>
      match skipBlank cs with
      | '}' :: cs => some (.table .braced [], cs)
      | cs => do
          let (entries, cs) ← members? steps [] cs
          return (.table .braced entries, cs)
  | _ + 1, cs => do
      let (s, cs) ← string? cs
      return (.text s, cs)

def members? : Nat → Entries → List Char → Option (Entries × List Char)
  | 0, _, _ => none
  | steps + 1, entries, cs => do
      let (path, cs) ← path? steps cs
      let '=' :: cs := cs | none
      let (v, cs) ← value? steps (skipBlank cs)
      let entries ← entries.assign v path
      match skipBlank cs with
      | ',' :: cs => members? steps entries cs
      | '}' :: cs => return (entries, cs)
      | _ => none

end

def lineEnd? (cs : List Char) : Option (List Char) :=
  let rest :=
    match skipBlank cs with
    | '#' :: cs => cs.dropWhile isPrintable
    | cs => cs
  if rest.isEmpty then some [] else newline? rest

structure Draft where
  entries : Entries
  header : List String

namespace Draft

def open? (d : Draft) (path : List String) : Option Draft :=
  (d.entries.define path).map fun entries => ⟨entries, path⟩

def add? (d : Draft) (path : List String) (v : Value) : Option Draft :=
  (d.entries.within (Entries.assign v path) d.header).map fun entries => { d with entries }

end Draft

def lines? : Nat → Draft → List Char → Option Entries
  | 0, _, _ => none
  | steps + 1, d, cs =>
      match skipBlank cs with
      | [] => some d.entries
      | '[' :: cs => do
          let (path, cs) ← path? steps cs
          let ']' :: cs := cs | none
          lines? steps (← d.open? path) (← lineEnd? cs)
      | c :: cs =>
          if c == '#' || (newline? (c :: cs)).isSome then do
            lines? steps d (← lineEnd? (c :: cs))
          else do
            let (path, cs) ← path? steps (c :: cs)
            let '=' :: cs := cs | none
            let (v, cs) ← value? steps (skipBlank cs)
            lines? steps (← d.add? path v) (← lineEnd? cs)

def Entries.ofText? (text : String) : Option Entries :=
  let cs :=
    match text.toList with
    | '\ufeff' :: cs => cs
    | cs => cs
  lines? (cs.length + 1) ⟨[], []⟩ cs

end ClassfileTypes.Toml
