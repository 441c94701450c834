import BlockMachine.Value.Basic

namespace BlockMachine

/-!
# Fingerprints of values

Hashing a value feeds a sequence of words to a hasher; `Value.fingerprintBy` is that sequence.
Equal values have equal fingerprints: integers are hashed as the float they equal, both zeros
alike, and a map by the sum of its entries' hashes, which does not depend on their order.

Which hash the entries of a map have is left open. `HashWord.simpleHash` is one to try values with.
-/

/-- One word fed to a hasher. -/
inductive HashWord where
  | byte (n : Nat)
  | word32 (n : Nat)
  | word64 (n : UInt64)
  | size (n : Nat)
  | bytes (b : List UInt8)
  deriving DecidableEq, Repr

namespace HashWord

/-- Feeds one byte to a 64-bit hash. -/
def mixByte (h : UInt64) (b : UInt8) : UInt64 :=
  (h ^^^ b.toUInt64) * 0x100000001b3

/-- Feeds the low bytes of a number, `count` of them. -/
def mixNat (h : UInt64) (n : Nat) : Nat → UInt64
  | 0 => h
  | count + 1 => mixNat (mixByte h (UInt8.ofNat n)) (n / 256) count

/-- Feeds a word to a 64-bit hash, the kind of the word first. -/
def mix (h : UInt64) : HashWord → UInt64
  | byte n => mixNat (mixByte h 1) n 1
  | word32 n => mixNat (mixByte h 2) n 4
  | word64 n => mixNat (mixByte h 3) n.toNat 8
  | size n => mixNat (mixByte h 4) n 8
  | bytes b => b.foldl mixByte (mixByte h 5)

/-- A simple 64-bit hash of a sequence of words. -/
def simpleHash (words : List HashWord) : UInt64 :=
  words.foldl mix 0xcbf29ce484222325

end HashWord

/-- The words that a key feeds to a hasher. -/
def Key.fingerprint : Key → List HashWord
  | name s => [.byte 0, .bytes s.toUTF8.toList]
  | index i => [.byte 1, .word64 i.toUInt64]
  | bool b => [.byte 2, .byte b.toNat]

namespace Value

/-- The words of a number: all numbers hash as floats, and both zeros alike. -/
def numberWords (x : Float) : List HashWord :=
  [.byte 2, .word64 (if x == 0.0 then 0 else x.toBits)]

section Hash

variable (hash : List HashWord → UInt64)

mutual

/-- The words that a value feeds to a hasher when `hash` is the hash of the words of a map's
    entry. -/
def fingerprintBy : Value → List HashWord
  | null => [.byte 0]
  | int i => numberWords (floatOfInt i)
  | float x => numberWords x
  | bool b => [.byte 3, .byte b.toNat]
  | str _ s => [.byte 4, .bytes s.toUTF8.toList]
  | list _ items => [.byte 5, .size items.length] ++ itemWordsBy items
  | map _ entries => [.byte 6, .size entries.length, .word64 (entrySumBy entries)]
  | record _ r fields => [.byte 7, .word32 r.id, .size fields.length] ++ itemWordsBy fields
  | func _ block bindings =>
    [.byte 8, .word32 block, .size bindings.length] ++ itemWordsBy bindings
  | module m => [.byte 9, .word32 m.id]
  | host n => [.byte 10, .size n]
  | error s => [.byte 11, .bytes s.toUTF8.toList]
  | moved => [.byte 12]

/-- The words of a list of values, one after the other. -/
def itemWordsBy : List Value → List HashWord
  | [] => []
  | v :: rest => fingerprintBy v ++ itemWordsBy rest

/-- The sum of the hashes of a map's entries. -/
def entrySumBy : List (Key × Value) → UInt64
  | [] => 0
  | (k, v) :: rest => hash (k.fingerprint ++ fingerprintBy v) + entrySumBy rest

end

end Hash

/-- The words of a value with a simple hash of the entries of its maps. -/
def fingerprint (v : Value) : List HashWord :=
  v.fingerprintBy HashWord.simpleHash

end Value

end BlockMachine
