import BlockMachine.Proofs.Bytecode.VariableLength

namespace BlockMachine

/-!
# Lookups in source maps

A source map finds, for every pc, the node of the last pair that was added at or before it.

* `SourceMap.differences` are the numbers that a map is written with, `SourceMap.written` the bytes and
  `SourceMap.readBack` what a reader makes of them;
* `SourceMap.nodeAt` is the node of the last pair at or before a pc;
* `SourceMap.Keeps` is the invariant of a map that pairs are added to;
* `SourceMap.lookup_added` is the law of lookups, with the limit on differences.
-/

namespace SourceMap

/-! ### Written pairs -/

/-- The differences of the nodes of consecutive pairs, where the node before the first is given. -/
def differences (node : UInt32) : List (UInt32 × UInt32) → List Int
  | [] => []
  | p :: rest => ((p.2.toNat : Int) - node.toNat) :: differences p.2 rest

/-- What a reader that is at node `pos` makes of pairs that were written after `node`. -/
def readBack (node : UInt32) (pos : Int) : List (UInt32 × UInt32) → List (UInt32 × UInt32)
  | [] => []
  | p :: rest =>
    let pos' := pos + unzigzag (zigzag ((p.2.toNat : Int) - node.toNat))
    (p.1, UInt32.ofInt pos') :: readBack p.2 pos' rest

theorem map_fst_readBack (node : UInt32) (pos : Int) (ps : List (UInt32 × UInt32)) :
    (readBack node pos ps).map Prod.fst = ps.map Prod.fst := by
  induction ps generalizing node pos with
  | nil => rfl
  | cons p rest ih => simp [readBack, ih]

/-- The bytes of pairs that are written after `(pc, node)`, whose pcs do not go backwards. -/
def written (pc node : UInt32) : List (UInt32 × UInt32) → List UInt8
  | [] => []
  | p :: rest =>
    writeNumber (p.1 - pc) ++
      (writeNumber (zigzag ((p.2.toNat : Int) - node.toNat)) ++ written p.1 p.2 rest)

theorem encodeFrom_eq_written {pc node : UInt32} {ps : List (UInt32 × UInt32)}
    (h : ((pc, node) :: ps).Pairwise fun a b => a.1 ≤ b.1) :
    encodeFrom pc node ps = some (written pc node ps) := by
  induction ps generalizing pc node with
  | nil => rfl
  | cons p rest ih =>
    obtain ⟨hle, hrest⟩ := List.pairwise_cons.1 h
    have hpc : pc ≤ p.1 := hle p List.mem_cons_self
    simp [encodeFrom, written, ih hrest, UInt32.not_lt.2 hpc]

/-- A pair is read, whatever follows it. -/
theorem pairsFrom_pair {pc pc' : UInt32} (h : pc ≤ pc') (d pos : Int) (fuel : Nat) (rest : List UInt8) :
    pairsFrom (fuel + 1) pc.toNat pos (writeNumber (pc' - pc) ++ (writeNumber (zigzag d) ++ rest)) =
      (pc', UInt32.ofInt (pos + unzigzag (zigzag d))) ::
        pairsFrom fuel pc'.toNat (pos + unzigzag (zigzag d)) rest := by
  have hsum : pc.toNat + (pc' - pc).toNat = pc'.toNat := by
    rw [UInt32.toNat_sub_of_le _ _ h]
    exact Nat.add_sub_cancel' (UInt32.le_iff_toNat_le.1 h)
  have hlt : pc'.toNat < UInt32.size := pc'.toNat_lt
  rw [pairsFrom, readNumber_writeNumber]
  dsimp only
  rw [readNumber_writeNumber]
  simp only [hsum, if_pos hlt, UInt32.ofNat_toNat]

/-- **Written pairs are read back** with their pcs, and with nodes that are as far apart as the folded
    differences say. -/
theorem encodeFrom_readBack {pc node : UInt32} {ps : List (UInt32 × UInt32)}
    (h : ((pc, node) :: ps).Pairwise fun a b => a.1 ≤ b.1) :
    ∃ bytes, encodeFrom pc node ps = some bytes ∧ ps.length ≤ bytes.length ∧
      ∀ fuel pos, ps.length ≤ fuel → pairsFrom fuel pc.toNat pos bytes = readBack node pos ps := by
  refine ⟨written pc node ps, encodeFrom_eq_written h, ?_⟩
  induction ps generalizing pc node with
  | nil =>
    refine ⟨Nat.le_refl _, fun fuel pos _ => ?_⟩
    cases fuel <;> rfl
  | cons p rest ih =>
    obtain ⟨hle, hrest⟩ := List.pairwise_cons.1 h
    obtain ⟨hlength, hread⟩ := ih hrest
    have hnonempty := List.length_pos_iff.2 (writeNumber_ne_nil (p.1 - pc))
    refine ⟨?_, fun fuel pos hfuel => ?_⟩
    · simp only [written, List.length_cons, List.length_append]
      omega
    · obtain ⟨fuel, rfl⟩ : ∃ n, fuel = n + 1 := ⟨fuel - 1, by simp at hfuel; omega⟩
      rw [written, pairsFrom_pair (hle p List.mem_cons_self), readBack, hread fuel _ (by simpa using hfuel)]

/-- The node of the last pair, or `node` if there is none. -/
def lastNode (node : UInt32) (ps : List (UInt32 × UInt32)) : UInt32 :=
  ps.foldl (fun _ p => p.2) node

theorem differences_append (node : UInt32) (front back : List (UInt32 × UInt32)) :
    differences node (front ++ back) =
      differences node front ++ differences (lastNode node front) back := by
  induction front generalizing node with
  | nil => rfl
  | cons p rest ih => simp [differences, lastNode, ih]

/-- Pairs with small differences are read back as they were written. -/
theorem readBack_append {node : UInt32} {front : List (UInt32 × UInt32)}
    (h : ∀ d ∈ differences node front, IsSmall d) (back : List (UInt32 × UInt32)) :
    readBack node node.toNat (front ++ back) =
      front ++ readBack (lastNode node front) (lastNode node front).toNat back := by
  induction front generalizing node with
  | nil => rfl
  | cons p rest ih =>
    obtain ⟨hsmall, hrest⟩ := List.forall_mem_cons.1 h
    have hpos : (node.toNat : Int) + ((p.2.toNat : Int) - node.toNat) = p.2.toNat := by omega
    have hnode : UInt32.ofInt p.2.toNat = p.2 := by
      apply UInt32.toNat_inj.1
      have := toNat_ofInt p.2.toNat
      have := p.2.toNat_lt
      omega
    simp only [List.cons_append, readBack, unzigzag_zigzag hsmall, hpos, hnode, ih hrest]
    rfl

/-! ### The last pair at or before a pc -/

/-- The node of the last pair whose pc is at most `q`. -/
def nodeAt (ps : List (UInt32 × UInt32)) (q : UInt32) : Option UInt32 :=
  ((ps.filter (·.1 ≤ q)).getLast?).map (·.2)

theorem nodeAt_append_of_le {q : UInt32} {p : UInt32 × UInt32} (front : List (UInt32 × UInt32))
    {back : List (UInt32 × UInt32)} (hp : p.1 ≤ q) (hback : ∀ b ∈ back, q < b.1) :
    nodeAt (front ++ p :: back) q = some p.2 := by
  have hnone : back.filter (·.1 ≤ q) = [] := by
    rw [List.filter_eq_nil_iff]
    intro b hb
    simpa using UInt32.not_le.2 (hback b hb)
  simp [nodeAt, List.filter_append, hp, hnone]

theorem nodeAt_concat_of_lt {q : UInt32} {p : UInt32 × UInt32} (front : List (UInt32 × UInt32))
    (hp : q < p.1) : nodeAt (front ++ [p]) q = nodeAt front q := by
  have hnot : ¬p.1 ≤ q := UInt32.not_le.2 hp
  simp [nodeAt, List.filter_append, hnot]

/-- A lookup finds the last pair, since it reads up to the first pair that is too late. -/
theorem takeWhile_eq_filter {ps : List (UInt32 × UInt32)} (h : (ps.map Prod.fst).Pairwise (· ≤ ·))
    (q : UInt32) : ps.takeWhile (·.1 ≤ q) = ps.filter (·.1 ≤ q) := by
  induction ps with
  | nil => rfl
  | cons p rest ih =>
    obtain ⟨hle, hrest⟩ := List.pairwise_cons.1 h
    by_cases hp : p.1 ≤ q
    · simp [hp, ih hrest]
    · have hnone : rest.filter (·.1 ≤ q) = [] := by
        rw [List.filter_eq_nil_iff]
        intro b hb
        have := UInt32.lt_of_lt_of_le (UInt32.not_le.1 hp) (hle b.1 (List.mem_map_of_mem hb))
        simpa using this
      simp [hp, hnone]

/-! ### Collected pairs -/

/-- The map that holds what was added in a sequence of calls. -/
def collect (adds : List (UInt32 × UInt32)) : SourceMap :=
  adds.foldl (fun m p => m.add p.1 p.2) {}

/-- The pairs that a map keeps, the earliest first. -/
def retained (m : SourceMap) : List (UInt32 × UInt32) :=
  m.recent.reverse

/-- A map keeps pairs in the order of their pcs, and finds the nodes that were added last. -/
structure Keeps (m : SourceMap) (adds : List (UInt32 × UInt32)) : Prop where
  sorted : m.retained.Pairwise fun a b => a.1 < b.1
  bounded : ∀ q, (∀ a ∈ adds, a.1 ≤ q) → ∀ p ∈ m.retained, p.1 ≤ q
  nodeAt_eq : ∀ q, nodeAt m.retained q = nodeAt adds q

namespace Keeps

variable {m m' : SourceMap} {adds : List (UInt32 × UInt32)} {p : UInt32 × UInt32}

/-- A map that got a new last pair, in the place of those that had its pc. -/
theorem of_front (front : List (UInt32 × UInt32)) (hm : m'.retained = front ++ [p])
    (hsorted : front.Pairwise fun a b => a.1 < b.1)
    (hlt : ∀ b ∈ front, b.1 < p.1) (hnode : ∀ q, q < p.1 → nodeAt front q = nodeAt adds q) :
    m'.Keeps (adds ++ [p]) where
  sorted := by
    rw [hm, List.pairwise_append]
    exact ⟨hsorted, List.pairwise_singleton .., by simpa using hlt⟩
  bounded := by
    intro q hq b hb
    have hpq : p.1 ≤ q := hq p (List.mem_append_right _ List.mem_cons_self)
    rw [hm] at hb
    rcases List.mem_append.1 hb with hb | hb
    · exact UInt32.le_trans (UInt32.le_of_lt (hlt b hb)) hpq
    · rw [List.mem_singleton.1 hb]
      exact hpq
  nodeAt_eq := by
    intro q
    rw [hm]
    by_cases hpq : p.1 ≤ q
    · rw [nodeAt_append_of_le front hpq (by simp), nodeAt_append_of_le adds hpq (by simp)]
    · have hqp := UInt32.not_le.1 hpq
      rw [nodeAt_concat_of_lt front hqp, nodeAt_concat_of_lt adds hqp, hnode q hqp]

/-- Adding a pair behind all others keeps what the map finds up to date. -/
theorem add (h : m.Keeps adds) (hp : ∀ a ∈ adds, a.1 ≤ p.1) : (m.add p.1 p.2).Keeps (adds ++ [p]) := by
  have hle := h.bounded p.1 hp
  obtain ⟨recent⟩ := m
  cases recent with
  | nil => exact of_front [] rfl .nil (by simp) fun q _ => h.nodeAt_eq q
  | cons last rest =>
    have hretained : retained ⟨last :: rest⟩ = rest.reverse ++ [last] := List.reverse_cons
    have hsorted := h.sorted
    rw [hretained, List.pairwise_append] at hsorted
    obtain ⟨hrest, -, hbefore⟩ := hsorted
    have hlast : last.1 ≤ p.1 := hle last (by simp [hretained])
    show (if last.2 = p.2 then ⟨last :: rest⟩ else if last.1 = p.1 then ⟨p :: rest⟩ else
      ⟨p :: last :: rest⟩ : SourceMap).Keeps _
    by_cases hsame : last.2 = p.2
    · -- the node is the current one, so the pair adds nothing
      rw [if_pos hsame]
      refine ⟨h.sorted, fun q hq => h.bounded q fun a ha => hq a (List.mem_append_left _ ha), fun q => ?_⟩
      by_cases hpq : p.1 ≤ q
      · rw [hretained, nodeAt_append_of_le _ (UInt32.le_trans hlast hpq) (by simp),
          nodeAt_append_of_le adds hpq (by simp), hsame]
      · rw [nodeAt_concat_of_lt adds (UInt32.not_le.1 hpq), h.nodeAt_eq]
    · rw [if_neg hsame]
      by_cases hpc : last.1 = p.1
      · -- the new pair takes the place of the last one
        rw [if_pos hpc]
        refine of_front rest.reverse List.reverse_cons hrest ?_ fun q hq => ?_
        · intro b hb
          exact hpc ▸ hbefore b hb last List.mem_cons_self
        · rw [← h.nodeAt_eq q, hretained, nodeAt_concat_of_lt _ (hpc ▸ hq)]
      · rw [if_neg hpc]
        have hlt : last.1 < p.1 := UInt32.lt_of_le_of_ne hlast hpc
        refine of_front (rest.reverse ++ [last]) (by simp [retained]) (hretained ▸ h.sorted) ?_
          fun q _ => hretained ▸ h.nodeAt_eq q
        intro b hb
        rcases List.mem_append.1 hb with hb | hb
        · exact UInt32.lt_trans (hbefore b hb last List.mem_cons_self) hlt
        · rw [List.mem_singleton.1 hb]
          exact hlt

end Keeps

/-- Pairs that are added in the order of their pcs are kept so. -/
theorem keeps_collect {adds : List (UInt32 × UInt32)} (h : adds.Pairwise fun a b => a.1 ≤ b.1) :
    (collect adds).Keeps adds := by
  -- the calls made so far are a prefix of all calls
  suffices hfold : ∀ (later earlier : List (UInt32 × UInt32)) (m : SourceMap), m.Keeps earlier →
      (earlier ++ later).Pairwise (fun a b => a.1 ≤ b.1) →
      (later.foldl (fun m p => m.add p.1 p.2) m).Keeps (earlier ++ later) from
    hfold adds [] {} ⟨.nil, by simp [retained], fun _ => rfl⟩ h
  intro later
  induction later with
  | nil =>
    intro earlier m hm _
    simpa using hm
  | cons p later ih =>
    intro earlier m hm hsorted
    have hp : ∀ a ∈ earlier, a.1 ≤ p.1 :=
      fun a ha => (List.pairwise_append.1 hsorted).2.2 a ha p List.mem_cons_self
    have hall : earlier ++ p :: later = (earlier ++ [p]) ++ later := by simp
    rw [hall] at hsorted ⊢
    exact ih (earlier ++ [p]) _ (hm.add hp) hsorted

/-- **Source maps find the node that was added last.** Pairs added in the order of their pcs are always
    written. If the differences of the nodes of the pairs that are kept are all small, the map finds
    for every pc the node of the last pair added at or before it. If there is one that is not, the first
    such pair is found with another node. -/
theorem lookup_added {adds : List (UInt32 × UInt32)} (h : adds.Pairwise fun a b => a.1 ≤ b.1) :
    ∃ bytes, (collect adds).encode? = some bytes ∧
      ((∀ d ∈ differences 0 (collect adds).retained, IsSmall d) →
        ∀ q, lookup bytes q = nodeAt adds q) ∧
      ∀ front p back, (collect adds).retained = front ++ p :: back →
        (∀ d ∈ differences 0 front, IsSmall d) → (∃ d ∈ differences 0 (front ++ [p]), ¬IsSmall d) →
        lookup bytes p.1 = some (p.2 + 2147483648) ∧ lookup bytes p.1 ≠ nodeAt adds p.1 := by
  obtain ⟨hsorted, -, hnode⟩ := keeps_collect h
  generalize hps : (collect adds).retained = ps at hsorted hnode
  have hle : ps.Pairwise fun a b => a.1 ≤ b.1 := hsorted.imp UInt32.le_of_lt
  have hstart : ((0, 0) :: ps).Pairwise fun a b => a.1 ≤ b.1 :=
    List.pairwise_cons.2 ⟨fun p _ => UInt32.zero_le, hle⟩
  obtain ⟨bytes, hencode, hlength, hread⟩ := encodeFrom_readBack hstart
  have hpairs : pairs bytes = readBack 0 (0 : UInt32).toNat ps := hread bytes.length 0 hlength
  have hlookup : ∀ q, lookup bytes q = nodeAt (readBack 0 (0 : UInt32).toNat ps) q := by
    intro q
    have hmap : ((pairs bytes).map Prod.fst).Pairwise (· ≤ ·) := by
      rw [hpairs, map_fst_readBack]
      exact List.pairwise_map.2 hle
    rw [lookup, takeWhile_eq_filter hmap, hpairs, nodeAt]
  refine ⟨bytes, ?_, ?_, ?_⟩
  · rw [encode?, ← retained, hps, hencode]
  · intro hsmall q
    have hall := readBack_append hsmall []
    rw [List.append_nil] at hall
    rw [hlookup, hall, readBack, List.append_nil, hnode]
  · rintro front p back rfl hsmall ⟨d, hd, hlarge⟩
    rw [differences_append] at hd
    have hp : ¬IsSmall ((p.2.toNat : Int) - (lastNode 0 front).toNat) := by
      rcases List.mem_append.1 hd with hd | hd
      · exact absurd (hsmall d hd) hlarge
      · rwa [List.mem_singleton.1 hd] at hlarge
    obtain ⟨-, hpback, -⟩ := List.pairwise_append.1 hsorted
    have hback := (List.pairwise_cons.1 hpback).1
    -- the pairs behind `p` are read with pcs behind that of `p`, whatever their nodes are
    have hbehind : ∀ pos, ∀ b ∈ readBack p.2 pos back, p.1 < b.1 := by
      intro pos b hb
      have hmem := List.mem_map_of_mem (f := Prod.fst) hb
      rw [map_fst_readBack] at hmem
      obtain ⟨c, hc, hcb⟩ := List.mem_map.1 hmem
      exact hcb ▸ hback c hc
    have hfound : lookup bytes p.1 = some (p.2 + 2147483648) := by
      rw [hlookup, readBack_append hsmall, readBack, ofInt_add_unzigzag hp]
      exact nodeAt_append_of_le (p := (p.1, p.2 + 2147483648)) front (UInt32.le_refl _) (hbehind _)
    refine ⟨hfound, ?_⟩
    rw [hfound, ← hnode, nodeAt_append_of_le front (UInt32.le_refl _) hback]
    simp

/-- A pair that repeats the node, and two that take the place of another, in a map that finds a node. -/
theorem lookup_added_overridden :
    ([(0, 1), (2, 1), (2, 4), (2, 5), (9, 3)] : List (UInt32 × UInt32)).Pairwise (fun a b => a.1 ≤ b.1) ∧
      ∃ bytes, (collect [(0, 1), (2, 1), (2, 4), (2, 5), (9, 3)]).encode? = some bytes ∧
        lookup bytes 1 = some 1 ∧ lookup bytes 8 = some 5 := by
  have hsorted : ([(0, 1), (2, 1), (2, 4), (2, 5), (9, 3)] : List (UInt32 × UInt32)).Pairwise
      (fun a b => a.1 ≤ b.1) := by decide
  obtain ⟨bytes, hencode, hlookup, -⟩ := lookup_added hsorted
  have hsmall : ∀ d ∈ differences 0 (collect [(0, 1), (2, 1), (2, 4), (2, 5), (9, 3)]).retained,
      IsSmall d := by decide
  exact ⟨hsorted, bytes, hencode, hlookup hsmall 1, hlookup hsmall 8⟩

end SourceMap

end BlockMachine
