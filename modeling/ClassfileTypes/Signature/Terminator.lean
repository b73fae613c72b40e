namespace ClassfileTypes.Terminator

def mark : Char := ';'

def hasRun : List Char → Bool
  | c :: d :: cs => (c == mark && d == mark) || hasRun (d :: cs)
  | _ => false

def collapseOnto (out : String) : List Char → String
  | [] => out
  | c :: cs =>
      if c = mark ∧ out.endsWith mark then collapseOnto out cs
      else collapseOnto (out.push c) cs

def collapse (text : String) : String :=
  if hasRun text.toList then collapseOnto "" text.toList else text

example : collapse "+La;;>;;;b" = "+La;>;b" := by decide +kernel

end ClassfileTypes.Terminator
