namespace BlockMachine

/-!
# Hexadecimal text

Bytes as pairs of hexadecimal digits: written in small letters, read in either case.
-/

namespace Hex

/-- The digit of a number below sixteen. -/
def digit (n : Nat) : Char :=
  Nat.digitChar n

/-- The number of a digit. -/
def digit? (c : Char) : Option Nat :=
  if '0' ≤ c && c ≤ '9' then some (c.toNat - 48)
  else if 'a' ≤ c && c ≤ 'f' then some (c.toNat - 87)
  else if 'A' ≤ c && c ≤ 'F' then some (c.toNat - 55)
  else none

/-- The digits of bytes, the high half of each byte first. -/
def digits : List UInt8 → List Char
  | [] => []
  | b :: rest => digit (b.toNat / 16) :: digit (b.toNat % 16) :: digits rest

/-- The text of bytes. -/
def encode (bytes : List UInt8) : String :=
  String.ofList (digits bytes)

/-- The bytes of a list of digits. -/
def ofDigits? : List Char → Option (List UInt8)
  | [] => some []
  | [_] => none
  | a :: b :: rest => do
    let high ← digit? a
    let low ← digit? b
    return UInt8.ofNat (16 * high + low) :: (← ofDigits? rest)

/-- The bytes of a text. -/
def decode? (s : String) : Option (Array UInt8) :=
  (ofDigits? s.toList).map (·.toArray)

end Hex

end BlockMachine
