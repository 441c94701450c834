import BlockMachine.Proofs.Bytecode.SourceMap
import Mathlib.Data.List.Induction

namespace BlockMachine

/-!
# Source maps that are cut off

Of a source map whose end is missing, all pairs are read that are there as a whole, and nothing else: a
number that is cut off is no other number, and a pc without a node is no pair.

* `SourceMap.readNumber_take` is about numbers that are cut off;
* `SourceMap.pairsFrom_take` tells which pairs are left, whatever their nodes are;
* `SourceMap.collect_concat` says what one more pair adds to a map, `SourceMap.exists_retained_take` that
  a map is cut off where fewer calls would have ended it;
* `SourceMap.lookup_take` is the law of lookups in maps that are cut off.
-/

namespace SourceMap

/-! ### Numbers -/

/-- However much was read before, a number whose last byte is missing is not completed. -/
theorem readNumberAt_take (fuel : Nat) (shift acc v : UInt32) {k : Nat} (hk : k < (writeNumber v).length) :
    readNumberAt fuel shift acc ((writeNumber v).take k) = none := by
  induction fuel generalizing shift acc v k with
  | zero => rfl
  | succ fuel ih =>
    cases k with
    | zero => rfl
    | succ k =>
      by_cases hv : v < 128
      · rw [writeNumber_of_lt hv, List.length_singleton] at hk
        omega
      · rw [writeNumber_of_not_lt hv, List.length_cons] at hk
        rw [writeNumber_of_not_lt hv, List.take_succ_cons, readNumberAt_marked]
        exact ih _ _ _ (Nat.lt_of_succ_lt_succ hk)

/-- Of a number that is cut off nothing is read. -/
theorem readNumber_take {v : UInt32} {k : Nat} (hk : k < (writeNumber v).length) :
    readNumber ((writeNumber v).take k) = none :=
  readNumberAt_take 5 0 0 v hk

/-! ### Pairs -/

/-- A pair is not read if its pc or its node is missing. -/
theorem pairsFrom_of_missing {bytes : List UInt8} (fuel pc : Nat) (pos : Int)
    (h : ∀ delta rest, readNumber bytes = some (delta, rest) → readNumber rest = none) :
    pairsFrom fuel pc pos bytes = [] := by
  cases fuel with
  | zero => rfl
  | succ fuel =>
    rw [pairsFrom]
    cases hpc : readNumber bytes with
    | none => rfl
    | some found =>
      dsimp only
      rw [h found.1 found.2 hpc]

/-- A pair that is cut off has no pc or no node, wherever it is cut. -/
theorem readNumber_take_pair {v w delta : UInt32} {rest tail : List UInt8} {k : Nat}
    (hk : k < (writeNumber v).length + (writeNumber w).length)
    (h : readNumber ((writeNumber v ++ (writeNumber w ++ tail)).take k) = some (delta, rest)) :
    readNumber rest = none := by
  by_cases hpc : k < (writeNumber v).length
  · rw [List.take_append_of_le_length (Nat.le_of_lt hpc), readNumber_take hpc] at h
    exact nomatch h
  · rw [List.take_append, List.take_of_length_le (Nat.not_lt.1 hpc), readNumber_writeNumber] at h
    obtain ⟨-, rfl⟩ := Prod.mk.inj (Option.some.inj h)
    have hnode : k - (writeNumber v).length < (writeNumber w).length := by omega
    rw [List.take_append_of_le_length (Nat.le_of_lt hnode)]
    exact readNumber_take hnode

/-- **What is read of pairs that are cut off** are the first ones, as many as were written in the bytes
    that are left. -/
theorem pairsFrom_take {pc node : UInt32} {ps : List (UInt32 × UInt32)}
    (h : ((pc, node) :: ps).Pairwise fun a b => a.1 ≤ b.1) (k : Nat) :
    ∃ n ≤ ps.length,
      (∀ fuel pos, ((written pc node ps).take k).length ≤ fuel →
        pairsFrom fuel pc.toNat pos ((written pc node ps).take k) = readBack node pos (ps.take n)) ∧
      ∀ i ≤ ps.length, i ≤ n ↔ (written pc node (ps.take i)).length ≤ k := by
  induction ps generalizing pc node k with
  | nil =>
    refine ⟨0, Nat.le_refl 0, fun fuel pos _ => ?_, fun i hi => iff_of_true hi ?_⟩
    · rw [List.take_nil, written, List.take_nil]
      cases fuel <;> rfl
    · rw [List.take_nil]
      exact Nat.zero_le k
  | cons p rest ih =>
    obtain ⟨hle, hrest⟩ := List.pairwise_cons.1 h
    generalize hsize : (writeNumber (p.1 - pc)).length +
      (writeNumber (zigzag ((p.2.toNat : Int) - node.toNat))).length = size
    have hlength : ∀ qs, (written pc node (p :: qs)).length = size + (written p.1 p.2 qs).length := by
      intro qs
      rw [written, List.length_append, List.length_append, ← Nat.add_assoc, hsize]
    by_cases hwhole : size ≤ k
    · -- the first pair is there, and the others are cut off at what is left for them
      obtain ⟨n, hn, hread, hcount⟩ := ih hrest (k - size)
      refine ⟨n + 1, Nat.succ_le_succ hn, fun fuel pos hfuel => ?_, fun i hi => ?_⟩
      · have htake : (written pc node (p :: rest)).take k = writeNumber (p.1 - pc) ++
            (writeNumber (zigzag ((p.2.toNat : Int) - node.toNat)) ++
              (written p.1 p.2 rest).take (k - size)) := by
          rw [written, List.take_append, List.take_of_length_le (by omega), List.take_append,
            List.take_of_length_le (by omega), ← hsize, Nat.sub_add_eq]
        have hnonempty := List.length_pos_iff.2 (writeNumber_ne_nil (p.1 - pc))
        rw [htake, List.length_append, List.length_append] at hfuel
        obtain ⟨fuel, rfl⟩ : ∃ i, fuel = i + 1 := ⟨fuel - 1, by omega⟩
        rw [htake, pairsFrom_pair (hle p List.mem_cons_self), hread fuel _ (by omega), List.take_succ_cons,
          readBack]
      · cases i with
        | zero => exact iff_of_true (Nat.zero_le _) (Nat.zero_le k)
        | succ i =>
          have hi' := hcount i (Nat.le_of_succ_le_succ hi)
          rw [List.take_succ_cons, hlength]
          omega
    · refine ⟨0, Nat.zero_le _, fun fuel pos _ => ?_, fun i hi => ?_⟩
      · exact pairsFrom_of_missing fuel _ pos fun delta rest' hpc =>
          readNumber_take_pair (by omega) hpc
      · cases i with
        | zero => exact iff_of_true (Nat.le_refl 0) (Nat.zero_le k)
        | succ i =>
          rw [List.take_succ_cons, hlength]
          omega

/-! ### Lookups -/

/-- Maps are written from zero on, and no pc is before that. -/
theorem pairwise_from_zero {ps : List (UInt32 × UInt32)} (h : ps.Pairwise fun a b => a.1 < b.1) :
    ((0, 0) :: ps).Pairwise fun a b => a.1 ≤ b.1 :=
  List.pairwise_cons.2 ⟨fun _ _ => UInt32.zero_le, h.imp UInt32.le_of_lt⟩

/-- Some of the first pairs have some of the differences. -/
theorem mem_differences_take {node : UInt32} {ps : List (UInt32 × UInt32)} {n : Nat} {d : Int}
    (h : d ∈ differences node (ps.take n)) : d ∈ differences node ps := by
  rw [← List.take_append_drop n ps, differences_append]
  exact List.mem_append_left _ h

/-- Pairs with small differences that are cut off are read as they were written, and found so. -/
theorem lookup_take_written {ps : List (UInt32 × UInt32)} (hsorted : ps.Pairwise fun a b => a.1 < b.1)
    (hsmall : ∀ d ∈ differences 0 ps, IsSmall d) (k : Nat) : ∃ n ≤ ps.length,
      pairs ((written 0 0 ps).take k) = ps.take n ∧
      (∀ q, lookup ((written 0 0 ps).take k) q = nodeAt (ps.take n) q) ∧
      ∀ i ≤ ps.length, i ≤ n ↔ (written 0 0 (ps.take i)).length ≤ k := by
  obtain ⟨n, hn, hread, hcount⟩ := pairsFrom_take (pairwise_from_zero hsorted) k
  have hpairs : pairs ((written 0 0 ps).take k) = ps.take n := by
    have hfirst := readBack_append (fun d hd => hsmall d (mem_differences_take (n := n) hd)) []
    rw [List.append_nil, readBack, List.append_nil] at hfirst
    exact (hread _ (0 : UInt32).toNat (Nat.le_refl _)).trans hfirst
  have hle : ((ps.take n).map Prod.fst).Pairwise (· ≤ ·) :=
    List.pairwise_map.2 ((hsorted.sublist (List.take_sublist n ps)).imp UInt32.le_of_lt)
  refine ⟨n, hn, hpairs, fun q => ?_, hcount⟩
  rw [lookup, hpairs, takeWhile_eq_filter hle, nodeAt]

/-! ### Maps that pairs are added to -/

theorem collect_concat (ps : List (UInt32 × UInt32)) (p : UInt32 × UInt32) :
    collect (ps ++ [p]) = (collect ps).add p.1 p.2 := by
  rw [collect, List.foldl_append, ← collect, List.foldl_cons, List.foldl_nil]

/-- What is added last is current. -/
theorem lastNode_add (m : SourceMap) (pc node start : UInt32) :
    lastNode start (m.add pc node).retained = node := by
  obtain ⟨_ | ⟨last, rest⟩⟩ := m
  · rfl
  · rw [add]
    dsimp only
    split
    next hsame => simpa [retained, lastNode] using hsame
    next => split <;> simp [retained, lastNode]

theorem lastNode_collect (ps : List (UInt32 × UInt32)) :
    lastNode 0 (collect ps).retained = lastNode 0 ps := by
  induction ps using List.reverseRecOn with
  | nil => rfl
  | append_singleton ps p _ =>
    rw [collect_concat, lastNode_add, lastNode, List.foldl_append, List.foldl_cons, List.foldl_nil]

/-- A map keeps pairs that were added, in their order. -/
theorem retained_sublist (ps : List (UInt32 × UInt32)) : (collect ps).retained.Sublist ps := by
  induction ps using List.reverseRecOn with
  | nil => exact .slnil
  | append_singleton ps p ih =>
    rw [collect_concat]
    rcases hm : collect ps with ⟨_ | ⟨last, rest⟩⟩
    · exact List.sublist_append_right ps [p]
    · rw [hm, retained, List.reverse_cons] at ih
      rw [add]
      dsimp only
      split
      · rw [retained, List.reverse_cons]
        exact ih.trans (List.sublist_append_left ps [p])
      · split <;> simp only [retained, List.reverse_cons]
        · exact ((List.sublist_append_left _ _).trans ih).append (.refl [p])
        · exact ih.append (.refl [p])

/-- A pair with a later pc than all before it is kept if it has another node than the last one. -/
theorem retained_concat {ps : List (UInt32 × UInt32)} {p : UInt32 × UInt32} (h : ∀ a ∈ ps, a.1 < p.1) :
    (collect (ps ++ [p])).retained = (collect ps).retained ∨
      (collect (ps ++ [p])).retained = (collect ps).retained ++ [p] := by
  have hkept := retained_sublist ps
  rw [collect_concat]
  rcases hm : collect ps with ⟨_ | ⟨last, rest⟩⟩
  · exact .inr rfl
  · have hlast : last.1 ≠ p.1 := by
      refine UInt32.ne_of_lt (h last (hkept.subset ?_))
      simp [hm, retained]
    rw [add]
    dsimp only
    rw [if_neg hlast]
    split
    · exact .inl rfl
    · exact .inr (by simp [retained])

/-- What a map keeps of a sequence of pairs has only differences that they have. -/
theorem mem_differences_retained {ps : List (UInt32 × UInt32)}
    (h : ps.Pairwise fun a b => a.1 < b.1) {d : Int} (hd : d ∈ differences 0 (collect ps).retained) :
    d ∈ differences 0 ps := by
  induction ps using List.reverseRecOn with
  | nil => exact hd
  | append_singleton ps p ih =>
    obtain ⟨hps, -, hp⟩ := List.pairwise_append.1 h
    rw [differences_append]
    rcases retained_concat fun a ha => hp a ha p List.mem_cons_self with hsame | hmore
    · rw [hsame] at hd
      exact List.mem_append_left _ (ih hps hd)
    · rw [hmore, differences_append, lastNode_collect] at hd
      exact (List.mem_append.1 hd).elim (fun hd => List.mem_append_left _ (ih hps hd))
        fun hd => List.mem_append_right _ hd

/-- The first pairs that a map keeps are what it kept at some time. -/
theorem exists_retained_take {ps : List (UInt32 × UInt32)} (h : ps.Pairwise fun a b => a.1 < b.1)
    (n : Nat) : ∃ i ≤ ps.length, (collect ps).retained.take n = (collect (ps.take i)).retained := by
  induction ps using List.reverseRecOn with
  | nil => exact ⟨0, Nat.le_refl 0, List.take_nil⟩
  | append_singleton ps p ih =>
    obtain ⟨hps, -, hp⟩ := List.pairwise_append.1 h
    obtain ⟨i, hi, htake⟩ := ih hps
    have hearlier : ∃ i ≤ (ps ++ [p]).length,
        (collect ps).retained.take n = (collect ((ps ++ [p]).take i)).retained := by
      refine ⟨i, Nat.le_trans hi (by simp), ?_⟩
      rw [htake, List.take_append_of_le_length hi]
    rcases retained_concat fun a ha => hp a ha p List.mem_cons_self with hsame | hmore
    · rw [hsame]
      exact hearlier
    · rw [hmore]
      by_cases hn : n ≤ (collect ps).retained.length
      · rw [List.take_append_of_le_length hn]
        exact hearlier
      · refine ⟨(ps ++ [p]).length, Nat.le_refl _, ?_⟩
        rw [List.take_length, hmore, List.take_of_length_le]
        simp only [List.length_append, List.length_singleton]
        omega

/-- **A source map that is cut off finds what is left of it.** Pairs with growing pcs and small differences
    of their nodes are written. If only the first `k` bytes are left, then the pairs that are read are the
    first ones, namely those that were written in these bytes, and the node of the last of them at or before
    a pc is found there. If the pairs are added to a map, which leaves out a pair that repeats the node, then
    its first `k` bytes are read and found as if fewer pairs had been added. -/
theorem lookup_take {ps : List (UInt32 × UInt32)} (hsorted : ps.Pairwise fun a b => a.1 < b.1)
    (hsmall : ∀ d ∈ differences 0 ps, IsSmall d) :
    (∃ bytes, encodeFrom 0 0 ps = some bytes ∧ ∀ k, ∃ n ≤ ps.length,
      pairs (bytes.take k) = ps.take n ∧
      (∀ q, lookup (bytes.take k) q = nodeAt (ps.take n) q) ∧
      ∀ i ≤ ps.length, i ≤ n ↔
        ∃ front, encodeFrom 0 0 (ps.take i) = some front ∧ front.length ≤ k) ∧
    ∃ bytes, (collect ps).encode? = some bytes ∧ ∀ k, ∃ n ≤ ps.length,
      pairs (bytes.take k) = (collect (ps.take n)).retained ∧
      ∀ q, lookup (bytes.take k) q = nodeAt (ps.take n) q := by
  constructor
  · refine ⟨_, encodeFrom_eq_written (pairwise_from_zero hsorted), fun k => ?_⟩
    obtain ⟨n, hn, hpairs, hlookup, hcount⟩ := lookup_take_written hsorted hsmall k
    refine ⟨n, hn, hpairs, hlookup, fun i hi => ?_⟩
    have hfront := encodeFrom_eq_written (pairwise_from_zero (hsorted.sublist (List.take_sublist i ps)))
    rw [hcount i hi, hfront]
    simp
  · have hkept := keeps_collect (hsorted.imp UInt32.le_of_lt)
    refine ⟨_, encodeFrom_eq_written (pairwise_from_zero hkept.sorted), fun k => ?_⟩
    obtain ⟨n, -, hpairs, hlookup, -⟩ :=
      lookup_take_written hkept.sorted (fun d hd => hsmall d (mem_differences_retained hsorted hd)) k
    obtain ⟨i, hi, htake⟩ := exists_retained_take hsorted n
    have hkept' := keeps_collect ((hsorted.sublist (List.take_sublist i ps)).imp UInt32.le_of_lt)
    rw [htake] at hpairs hlookup
    exact ⟨i, hi, hpairs, fun q => (hlookup q).trans (hkept'.nodeAt_eq q)⟩

/-- Seven of nine bytes are left, and the last of three pairs is cut off inside its node. -/
theorem lookup_take_last_node :
    ([(0, 1), (4, 2), (300, 70000)] : List (UInt32 × UInt32)).Pairwise (fun a b => a.1 < b.1) ∧
      (∀ d ∈ differences 0 [(0, 1), (4, 2), (300, 70000)], IsSmall d) ∧
      ∃ bytes, encodeFrom 0 0 [(0, 1), (4, 2), (300, 70000)] = some bytes ∧ bytes.length = 9 ∧
        pairs (bytes.take 7) = [(0, 1), (4, 2)] ∧ lookup (bytes.take 7) 300 = some 2 := by
  have hsorted : ([(0, 1), (4, 2), (300, 70000)] : List (UInt32 × UInt32)).Pairwise
      (fun a b => a.1 < b.1) := by decide
  have hsmall : ∀ d ∈ differences 0 [(0, 1), (4, 2), (300, 70000)], IsSmall d := by decide
  obtain ⟨⟨bytes, hencode, hcut⟩, -⟩ := lookup_take hsorted hsmall
  have hall : encodeFrom 0 0 [(0, 1), (4, 2), (300, 70000)] =
      some [0, 2, 4, 2, 168, 2, 220, 197, 8] := by
    decide +kernel
  have hfront : encodeFrom 0 0 [(0, 1), (4, 2)] = some [0, 2, 4, 2] := by decide +kernel
  obtain rfl := Option.some.inj (hencode.symm.trans hall)
  obtain ⟨n, hn, hpairs, hlookup, hcount⟩ := hcut 7
  have htwo : 2 ≤ n := (hcount 2 (by decide)).2 ⟨_, hfront, by decide⟩
  have hnot : ¬3 ≤ n := by
    rw [hcount 3 (Nat.le_refl 3)]
    rintro ⟨front, hthree, hlength⟩
    obtain rfl := Option.some.inj (hall.symm.trans hthree)
    exact absurd hlength (by decide)
  obtain rfl : n = 2 := by omega
  exact ⟨hsorted, hsmall, _, hall, rfl, hpairs, hlookup 300⟩

end SourceMap

end BlockMachine
