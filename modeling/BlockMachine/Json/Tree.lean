import BlockMachine.Text.Hex

namespace BlockMachine

/-!
# JSON trees and their text

A `JsonTree` is the syntax of a JSON text. Numbers keep their spelling, and a string whose
escapes do not name characters is kept as `broken`, so that a reader may skip what it does not
use.

* `JsonTree.pretty` writes a tree, two blanks for each level;
* `JsonTree.parse?` reads a text.
-/

/-- The syntax of a JSON text. A member name of `none` is a broken string. -/
inductive JsonTree where
  | null
  | bool (b : Bool)
  | number (spelling : String)
  | text (s : String)
  | broken
  | array (items : List JsonTree)
  | object (members : List (Option String × JsonTree))

namespace JsonTree

/-! ### Writing -/

/-- One character of a string: quotes, backslashes and control characters are escaped. -/
def escape (c : Char) : String :=
  if c = '"' then "\\\""
  else if c = '\\' then "\\\\"
  else if c.toNat = 8 then "\\b"
  else if c = '\t' then "\\t"
  else if c = '\n' then "\\n"
  else if c.toNat = 12 then "\\f"
  else if c = '\r' then "\\r"
  else if c.toNat < 32 then
    "\\u00" ++ Hex.encode [UInt8.ofNat c.toNat]
  else c.toString

/-- A string between quotes. -/
def quote (s : String) : String :=
  "\"" ++ s.foldl (fun acc c => acc ++ escape c) "" ++ "\""

/-- A line break and the blanks of a level. -/
def newline (level : Nat) : String :=
  "\n" ++ "".pushn ' ' (2 * level)

mutual

/-- Writes a tree whose first line continues a line of `level`. -/
def write (level : Nat) : JsonTree → String
  | null => "null"
  | bool b => if b then "true" else "false"
  | number spelling => spelling
  | text s => quote s
  | broken => "\"\""
  | array [] => "[]"
  | array (v :: rest) =>
    "[" ++ newline (level + 1) ++ write (level + 1) v ++ writeItems (level + 1) rest ++
      newline level ++ "]"
  | object [] => "\x7b\x7d"
  | object ((name, v) :: rest) =>
    "\x7b" ++ newline (level + 1) ++ quote (name.getD "") ++ ": " ++ write (level + 1) v ++
      writeMembers (level + 1) rest ++ newline level ++ "\x7d"

/-- Writes the further items of an array. -/
def writeItems (level : Nat) : List JsonTree → String
  | [] => ""
  | v :: rest => "," ++ newline level ++ write level v ++ writeItems level rest

/-- Writes the further members of an object. -/
def writeMembers (level : Nat) : List (Option String × JsonTree) → String
  | [] => ""
  | (name, v) :: rest =>
    "," ++ newline level ++ quote (name.getD "") ++ ": " ++ write level v ++
      writeMembers level rest

end

/-- The text of a tree. -/
def pretty (j : JsonTree) : String :=
  write 0 j

/-! ### Reading -/

/-- Drops blanks. -/
def skipBlanks (cs : List Char) : List Char :=
  cs.dropWhile fun c => c = ' ' || c = '\n' || c = '\t' || c = '\r'

/-- The number of four hexadecimal digits. -/
def hex4? (a b c d : Char) : Option Nat := do
  return (← Hex.digit? a) * 4096 + (← Hex.digit? b) * 256 + (← Hex.digit? c) * 16 + (← Hex.digit? d)

/-- The character of an escape with one letter. -/
def shortEscape? (c : Char) : Option Char :=
  if c = '"' || c = '\\' || c = '/' then some c
  else if c = 'b' then some (Char.ofNat 8)
  else if c = 'f' then some (Char.ofNat 12)
  else if c = 'n' then some '\n'
  else if c = 'r' then some '\r'
  else if c = 't' then some '\t'
  else none

/-- A piece of a string: a UTF-16 unit written as an escape, or a character. -/
inductive Piece where
  | char (c : Char)
  | unit (n : Nat)

/-- The pieces of a string up to its closing quote, and the text after it. -/
def pieces? : List Char → Option (List Piece × List Char)
  | [] => none
  | c :: rest =>
    if c = '"' then some ([], rest)
    else if c.toNat < 32 then none
    else if c = '\\' then
      match rest with
      | 'u' :: a :: b :: c :: d :: rest => do
        let n ← hex4? a b c d
        let (ps, rest) ← pieces? rest
        return (.unit n :: ps, rest)
      | e :: rest => do
        let c ← shortEscape? e
        let (ps, rest) ← pieces? rest
        return (.char c :: ps, rest)
      | [] => none
    else do
      let (ps, rest) ← pieces? rest
      return (.char c :: ps, rest)

/-- Joins pieces into characters; a surrogate unit must stand in a pair. -/
def join? : List Piece → Option (List Char)
  | [] => some []
  | .char c :: rest => (join? rest).map (c :: ·)
  | .unit n :: rest =>
    if n < 0xD800 || 0xDFFF < n then (join? rest).map (Char.ofNat n :: ·)
    else if 0xDC00 ≤ n then none
    else
      match rest with
      | .unit m :: rest =>
        if 0xDC00 ≤ m && m ≤ 0xDFFF then
          (join? rest).map (Char.ofNat (0x10000 + (n - 0xD800) * 1024 + (m - 0xDC00)) :: ·)
        else none
      | _ => none

/-- A string after its opening quote: its text, or `none` when it is broken. -/
def string? (cs : List Char) : Option (Option String × List Char) := do
  let (ps, rest) ← pieces? cs
  return ((join? ps).map String.ofList, rest)

/-- At least one digit. -/
def digits? (cs : List Char) : Option (List Char × List Char) :=
  let ds := cs.takeWhile Char.isDigit
  if ds.isEmpty then none else some (ds, cs.dropWhile Char.isDigit)

/-- A minus sign, if there is one. -/
def sign (cs : List Char) : List Char × List Char :=
  match cs with
  | '-' :: cs => (['-'], cs)
  | cs => ([], cs)

/-- A point and digits, if there is a point. -/
def fraction? (cs : List Char) : Option (List Char × List Char) :=
  match cs with
  | '.' :: cs => do
    let (ds, cs) ← digits? cs
    return ('.' :: ds, cs)
  | cs => some ([], cs)

/-- An exponent, if its mark is there. It is spelled with a small letter. -/
def exponent? (cs : List Char) : Option (List Char × List Char) :=
  match cs with
  | c :: cs' =>
    if c = 'e' || c = 'E' then do
      let (mark, cs') := match cs' with
        | '+' :: cs' => (['e', '+'], cs')
        | '-' :: cs' => (['e', '-'], cs')
        | cs' => (['e'], cs')
      let (ds, cs') ← digits? cs'
      return (mark ++ ds, cs')
    else some ([], cs)
  | [] => some ([], cs)

/-- A number: an integer without needless zeros, then an optional fraction and exponent. -/
def number? (cs : List Char) : Option (List Char × List Char) := do
  let (sign, cs) := sign cs
  let (whole, cs) ← digits? cs
  if whole.head? = some '0' && 1 < whole.length then none
  let (fraction, cs) ← fraction? cs
  let (exponent, cs) ← exponent? cs
  return (sign ++ whole ++ fraction ++ exponent, cs)

/-- Reads a fixed word. -/
def word? (w : List Char) (j : JsonTree) (cs : List Char) : Option (JsonTree × List Char) :=
  if w.isPrefixOf cs then some (j, cs.drop w.length) else none

mutual

/-- Reads a value, and gives the text after it; `fuel` bounds the nesting and the number of
    items along the way. -/
def value? : Nat → List Char → Option (JsonTree × List Char)
  | 0, _ => none
  | fuel + 1, cs =>
    match skipBlanks cs with
    | '"' :: rest => do
      let (s, rest) ← string? rest
      return ((s.map text).getD broken, rest)
    | '[' :: rest =>
      match skipBlanks rest with
      | ']' :: rest => some (array [], rest)
      | rest => do
        let (items, rest) ← items? fuel rest
        return (array items, rest)
    | '\x7b' :: rest =>
      match skipBlanks rest with
      | '\x7d' :: rest => some (object [], rest)
      | rest => do
        let (members, rest) ← members? fuel rest
        return (object members, rest)
    | 't' :: rest => word? ['r', 'u', 'e'] (bool true) rest
    | 'f' :: rest => word? ['a', 'l', 's', 'e'] (bool false) rest
    | 'n' :: rest => word? ['u', 'l', 'l'] null rest
    | rest => do
      let (spelling, rest) ← number? rest
      return (number (String.ofList spelling), rest)

/-- Reads items up to the closing bracket. -/
def items? : Nat → List Char → Option (List JsonTree × List Char)
  | 0, _ => none
  | fuel + 1, cs => do
    let (v, rest) ← value? fuel cs
    match skipBlanks rest with
    | ',' :: rest => do
      let (vs, rest) ← items? fuel rest
      return (v :: vs, rest)
    | ']' :: rest => return ([v], rest)
    | _ => none

/-- Reads members up to the closing brace. -/
def members? : Nat → List Char → Option (List (Option String × JsonTree) × List Char)
  | 0, _ => none
  | fuel + 1, cs =>
    match skipBlanks cs with
    | '"' :: rest => do
      let (name, rest) ← string? rest
      match skipBlanks rest with
      | ':' :: rest => do
        let (v, rest) ← value? fuel rest
        match skipBlanks rest with
        | ',' :: rest => do
          let (ms, rest) ← members? fuel rest
          return ((name, v) :: ms, rest)
        | '\x7d' :: rest => return ([(name, v)], rest)
        | _ => none
      | _ => none
    | _ => none

end

/-- Reads a whole text, which may end in blanks. -/
def parse? (s : String) : Option JsonTree := do
  let cs := s.toList
  let (j, rest) ← value? (2 * cs.length + 2) cs
  if (skipBlanks rest).isEmpty then some j else none

end JsonTree

end BlockMachine
