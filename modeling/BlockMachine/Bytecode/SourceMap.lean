namespace BlockMachine

/-!
# Source maps

A source map tells which graph node each instruction belongs to. It is a list of `(pc, node)`
pairs sorted by pc, stored as deltas from the previous pair: the pc delta as a variable-length
number, the node delta folded into an unsigned one first, since nodes may go backwards.

* `SourceMap.add` collects pairs, `SourceMap.encode?` writes them;
* `SourceMap.pairs` reads an encoded map, `SourceMap.lookup` finds the node at a pc.
-/

/-- The pairs collected so far, the latest first. -/
structure SourceMap where
  recent : List (UInt32 × UInt32) := []

namespace SourceMap

/-- Instructions from `pc` on belong to `node`. Repeating the current node adds nothing, and a
    second node at the same pc replaces the first. -/
def add (m : SourceMap) (pc node : UInt32) : SourceMap :=
  match m.recent with
  | [] => ⟨[(pc, node)]⟩
  | (lastPc, lastNode) :: rest =>
    if lastNode = node then m
    else if lastPc = pc then ⟨(pc, node) :: rest⟩
    else ⟨(pc, node) :: m.recent⟩

/-- Whether no pair was collected. -/
def isEmpty (m : SourceMap) : Bool :=
  m.recent.isEmpty

/-! ### Variable-length numbers -/

/-- Seven bits a byte, low bits first, with the high bit set on every byte but the last. -/
def writeNumber (v : UInt32) : List UInt8 :=
  if _h : v < 128 then [v.toUInt8]
  else (v.toUInt8 ||| 128) :: writeNumber (v >>> 7)
termination_by v.toNat
decreasing_by
  simp only [UInt32.lt_iff_toNat_lt, UInt32.toNat_ofNat] at _h
  simp only [UInt32.toNat_shiftRight, UInt32.toNat_ofNat, Nat.shiftRight_eq_div_pow,
    Nat.reducePow, Nat.reduceMod] at *
  omega

/-- Reads a number whose next seven bits belong at `shift`; a number has at most five bytes. -/
def readNumberAt : Nat → UInt32 → UInt32 → List UInt8 → Option (UInt32 × List UInt8)
  | 0, _, _, _ => none
  | _ + 1, _, _, [] => none
  | fuel + 1, shift, value, b :: rest =>
    let value := value ||| ((b &&& 127).toUInt32 <<< shift)
    if b < 128 then some (value, rest) else readNumberAt fuel (shift + 7) value rest

/-- Reads one variable-length number. -/
def readNumber (bytes : List UInt8) : Option (UInt32 × List UInt8) :=
  readNumberAt 5 0 0 bytes

/-- Interleaves negative and non-negative numbers: 0, -1, 1, -2, … become 0, 1, 2, 3, …,
    cut to 32 bits. -/
def zigzag (d : Int) : UInt32 :=
  UInt32.ofInt (if 0 ≤ d then 2 * d else -2 * d - 1)

/-- The number that `zigzag` sends to `v`. -/
def unzigzag (v : UInt32) : Int :=
  if v.toNat % 2 = 0 then (v.toNat / 2 : Nat) else -((v.toNat / 2 : Nat) : Int) - 1

/-! ### Encoded maps -/

/-- Writes pairs as deltas from the previous pair; `none` when a pc goes backwards. -/
def encodeFrom (pc node : UInt32) : List (UInt32 × UInt32) → Option (List UInt8)
  | [] => some []
  | (pc', node') :: rest => do
    if pc' < pc then none
    let tail ← encodeFrom pc' node' rest
    return writeNumber (pc' - pc) ++ writeNumber (zigzag ((node'.toNat : Int) - node.toNat)) ++ tail

/-- The encoded map; `none` when the pcs of the collected pairs go backwards. -/
def encode? (m : SourceMap) : Option (List UInt8) :=
  encodeFrom 0 0 m.recent.reverse

/-- Reads at most `fuel` pairs that continue after `(pc, node)`, up to the first malformed one. -/
def pairsFrom : Nat → Nat → Int → List UInt8 → List (UInt32 × UInt32)
  | 0, _, _, _ => []
  | fuel + 1, pc, node, bytes =>
    match readNumber bytes with
    | none => []
    | some (pcDelta, rest) =>
      match readNumber rest with
      | none => []
      | some (nodeDelta, rest) =>
        let pc := pc + pcDelta.toNat
        let node := node + unzigzag nodeDelta
        -- a pc beyond the range ends the map instead of wrapping
        if pc < UInt32.size then
          (UInt32.ofNat pc, UInt32.ofInt node) :: pairsFrom fuel pc node rest
        else []

/-- The pairs of an encoded map, up to the first malformed one. -/
def pairs (bytes : List UInt8) : List (UInt32 × UInt32) :=
  pairsFrom bytes.length 0 0 bytes

/-- The node of the last pair at or before `pc`. Pairs are read in order up to the first one
    after `pc`. -/
def lookup (bytes : List UInt8) (pc : UInt32) : Option UInt32 :=
  (((pairs bytes).takeWhile (·.1 ≤ pc)).getLast?).map (·.2)

end SourceMap

end BlockMachine
