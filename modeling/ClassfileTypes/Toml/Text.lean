namespace ClassfileTypes.Toml

def isBlank (c : Char) : Bool := c == ' ' || c == '\t'

def isPrintable (c : Char) : Bool := c == '\t' || (' ' ≤ c && c != '\x7f')

def isBare (c : Char) : Bool := c.isAlphanum || c == '_' || c == '-'

def skipBlank (cs : List Char) : List Char := cs.dropWhile isBlank

def newline? : List Char → Option (List Char)
  | '\n' :: cs => some cs
  | '\r' :: '\n' :: cs => some cs
  | _ => none

inductive Mode where
  | plain
  | escaped
  | digits (left : Nat) (value : Nat)
  | lineEnd
  | trimmed

def Mode.trims : Mode → Bool
  | .trimmed => true
  | _ => false

def hexDigit? (c : Char) : Option Nat :=
  if c.isDigit then some (c.toNat - '0'.toNat)
  else if 'a' ≤ c && c ≤ 'f' then some (c.toNat - 'a'.toNat + 10)
  else if 'A' ≤ c && c ≤ 'F' then some (c.toNat - 'A'.toNat + 10)
  else none

def scalar? (n : Nat) : Option Char :=
  if n.isValidChar then some (Char.ofNat n) else none

def escape? : Char → Option Char
  | 'b' => some '\x08'
  | 't' => some '\t'
  | 'n' => some '\n'
  | 'f' => some '\x0c'
  | 'r' => some '\r'
  | '"' => some '"'
  | '\\' => some '\\'
  | _ => none

def closing? (mark : Char) (cs : List Char) : Option (List Char × List Char) :=
  let run := (cs.take 5).takeWhile (· == mark)
  if 3 ≤ run.length then some (run.drop 3, cs.drop run.length) else none

def quoted (multiline : Bool) (mode : Mode) (read : List Char) :
    List Char → Option (String × List Char)
  | [] => none
  | c :: cs =>
      let breaks := (newline? (c :: cs)).isSome
      match mode with
      | .escaped =>
          if c == 'u' then quoted multiline (.digits 4 0) read cs
          else if c == 'U' then quoted multiline (.digits 8 0) read cs
          else if multiline && isBlank c then quoted multiline .lineEnd read cs
          else if multiline && breaks then quoted multiline .trimmed read cs
          else
            match escape? c with
            | some d => quoted multiline .plain (d :: read) cs
            | none => none
      | .digits left value =>
          match hexDigit? c with
          | none => none
          | some d =>
              if 1 < left then quoted multiline (.digits (left - 1) (16 * value + d)) read cs
              else
                match scalar? (16 * value + d) with
                | some d => quoted multiline .plain (d :: read) cs
                | none => none
      | .lineEnd =>
          if isBlank c then quoted multiline .lineEnd read cs
          else if breaks then quoted multiline .trimmed read cs
          else none
      | mode =>
          if mode.trims && (isBlank c || breaks) then quoted multiline mode read cs
          else if c == '\\' then quoted multiline .escaped read cs
          else if c == '"' then
            if multiline then
              match closing? '"' (c :: cs) with
              | some (marks, rest) => some (String.ofList (read.reverse ++ marks), rest)
              | none => quoted multiline .plain (c :: read) cs
            else some (String.ofList read.reverse, cs)
          else if isPrintable c || (multiline && c == '\n') then
            quoted multiline .plain (c :: read) cs
          else if multiline && breaks then quoted multiline .plain read cs
          else none

def literal (multiline : Bool) (read : List Char) : List Char → Option (String × List Char)
  | [] => none
  | c :: cs =>
      if c == '\'' then
        if multiline then
          match closing? '\'' (c :: cs) with
          | some (marks, rest) => some (String.ofList (read.reverse ++ marks), rest)
          | none => literal multiline (c :: read) cs
        else some (String.ofList read.reverse, cs)
      else if isPrintable c || (multiline && c == '\n') then literal multiline (c :: read) cs
      else if multiline && (newline? (c :: cs)).isSome then literal multiline read cs
      else none

def skipNewline (cs : List Char) : List Char := (newline? cs).getD cs

def string? : List Char → Option (String × List Char)
  | '"' :: '"' :: '"' :: cs => quoted true .plain [] (skipNewline cs)
  | '\'' :: '\'' :: '\'' :: cs => literal true [] (skipNewline cs)
  | '"' :: cs => quoted false .plain [] cs
  | '\'' :: cs => literal false [] cs
  | _ => none

def key? : List Char → Option (String × List Char)
  | '"' :: cs => quoted false .plain [] cs
  | '\'' :: cs => literal false [] cs
  | cs =>
      match cs.takeWhile isBare with
      | [] => none
      | word => some (String.ofList word, cs.dropWhile isBare)

example : string? "\"str\\u0069ct\" #".toList = some ("strict", " #".toList) := by decide

example : string? "\"\"\"a\\ \n b\"\"\"\" #".toList = some ("ab\"", " #".toList) := by decide

example : key? "a-b.c".toList = some ("a-b", ".c".toList) := by decide

end ClassfileTypes.Toml
