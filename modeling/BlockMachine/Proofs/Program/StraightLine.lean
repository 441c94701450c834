import BlockMachine.Proofs.Bytecode.Assembly
import BlockMachine.Proofs.Program.Sites

namespace BlockMachine

/-!
# Straight-line bodies

A body without jumps, whose sends all take call sites of their own, sends one name at each site.

* `Directive.isStraight` accepts the directives of such bodies;
* `Draft.Straight` says that the code is a sequence of instructions with distinct call sites;
* `oneNamePerSite_of_straight` is the conclusion.
-/

/-! ### Sequences of instructions -/

namespace Instruction

/-- In a sequence with distinct call sites, a site belongs to one instruction. -/
theorem eq_of_site {is : List Instruction} (h : (is.filterMap site?).Nodup) {i j : Instruction}
    (hi : i ∈ is) (hj : j ∈ is) {s : UInt16} (hsi : i.site? = some s) (hsj : j.site? = some s) :
    i = j := by
  induction is with
  | nil => exact nomatch hi
  | cons k rest ih =>
    have hmem : ∀ {i : Instruction}, i ∈ rest → i.site? = some s → s ∈ rest.filterMap site? :=
      fun hi hs => List.mem_filterMap.2 ⟨_, hi, hs⟩
    rcases List.mem_cons.1 hi with rfl | hi'
    · rcases List.mem_cons.1 hj with rfl | hj'
      · rfl
      · rw [List.filterMap_cons_some hsi] at h
        exact absurd (hmem hj' hsj) (List.nodup_cons.1 h).1
    · rcases List.mem_cons.1 hj with rfl | hj'
      · rw [List.filterMap_cons_some hsj] at h
        exact absurd (hmem hi' hsi) (List.nodup_cons.1 h).1
      · refine ih ?_ hi' hj'
        exact h.sublist ((List.sublist_cons_self k rest).filterMap site?)

end Instruction

theorem decodeAt_end {code : Code} {pc : Nat} (h : code.size ≤ pc) :
    decodeAt code pc = .error (.truncated pc) := by
  have hop : Cursor.op code pc = .error (.truncated pc) := by
    rw [Cursor.op, Array.getElem?_eq_none h]
  change (Cursor.op code pc).bind _ = _
  rw [hop]
  rfl

/-- An offset is where an instruction of a sequence starts, or its end. -/
def Boundary (is : List Instruction) (pc : Nat) : Prop :=
  ∃ front back, is = front ++ back ∧ pc = (front.flatMap Instruction.encode).length

/-- At a boundary stands an instruction of the sequence, and the next boundary follows it. -/
theorem Boundary.decodeAt {is : List Instruction} {code : Code}
    (hcode : code.toList = is.flatMap Instruction.encode) {pc : Nat} (hpc : Boundary is pc)
    {i : Instruction} {next : Nat} (hi : BlockMachine.decodeAt code pc = .ok (i, next)) :
    i ∈ is ∧ Boundary is next := by
  obtain ⟨front, back, rfl, rfl⟩ := hpc
  rw [List.flatMap_append] at hcode
  cases back with
  | nil =>
    -- at the end of the code there is nothing to decode
    have hsize : code.size = (front.flatMap Instruction.encode).length := by
      rw [← Array.length_toList, hcode, List.flatMap_nil, List.append_nil]
    rw [decodeAt_end (Nat.le_of_eq hsize)] at hi
    exact nomatch hi
  | cons j rest =>
    rw [List.flatMap_cons] at hcode
    rw [decodeAt_encode (bytesAt_of_toList hcode)] at hi
    obtain ⟨rfl, rfl⟩ := Prod.mk.inj (Except.ok.inj hi)
    refine ⟨List.mem_append_right _ List.mem_cons_self, front ++ [j], rest, by simp, by simp⟩

/-- Without jumps control flow goes from one boundary to the next. -/
theorem Program.Reaches.boundary {p : Program} {is : List Instruction}
    (hcode : p.code.toList = is.flatMap Instruction.encode) (hjumps : ∀ i ∈ is, i.isJump = false)
    {pc : Nat} (h : p.Reaches pc) : Boundary is pc := by
  refine h.of_closed ⟨[], is, rfl, rfl⟩ (fun pc i next hpc hi => (hpc.decodeAt hcode hi).2) ?_
  intro pc cond offset next hpc hi
  exact nomatch hjumps _ (hpc.decodeAt hcode hi).1

/-- A sequence without jumps and with distinct call sites sends one name at each site. -/
theorem Program.oneNamed_of_straight {p : Program} {is : List Instruction}
    (hcode : p.code.toList = is.flatMap Instruction.encode)
    (hjumps : ∀ i ∈ is, i.isJump = false) (hsites : (is.filterMap Instruction.site?).Nodup) :
    p.OneNamed := by
  rintro site name name' ⟨pc, next, i, _, _, _, hpc, hi, hname⟩
    ⟨pc', next', j, _, _, _, hpc', hj, hname'⟩
  have hmem := ((hpc.boundary hcode hjumps).decodeAt hcode hi).1
  have hmem' := ((hpc'.boundary hcode hjumps).decodeAt hcode hj).1
  have heq := Instruction.eq_of_site hsites hmem hmem' rfl rfl
  obtain ⟨rfl, _⟩ := Instruction.callMethod.inj heq
  rw [hname] at hname'
  exact Option.some.inj hname'

/-! ### Lowering -/

/-- Directives that a straight-line body is made of: no jumps or labels, and no sends but those
    that take a call site of their own. -/
def Directive.isStraight : Directive → Bool
  | .code (.emit i) => !i.isJump && i.site?.isNone
  | .code (.mark _) => true
  | .code _ => false
  | _ => true

namespace Draft

/-- The code is a sequence of instructions without jumps, whose sends have distinct sites out of
    those given out. -/
def Straight (d : Draft) : Prop :=
  ∃ is : List Instruction, d.assembler.code.toList = is.flatMap Instruction.encode ∧
    (∀ i ∈ is, i.isJump = false) ∧ (is.filterMap Instruction.site?).Nodup ∧
    ∀ s ∈ is.filterMap Instruction.site?, s.toNat < d.callSites

/-- Only code and call sites matter. -/
theorem Straight.congr {d d' : Draft} (h : d.Straight)
    (hcode : d'.assembler.code = d.assembler.code) (hsites : d'.callSites = d.callSites) :
    d'.Straight := by
  rw [Straight, hcode, hsites]
  exact h

/-- One more instruction that does not jump and whose call site, if it has one, is not taken. -/
theorem Straight.emit {d : Draft} (h : d.Straight) {i : Instruction} {sites : Nat}
    (hjump : i.isJump = false)
    (hsite : ∀ s, i.site? = some s → d.callSites = s.toNat ∧ s.toNat < sites)
    (hle : d.callSites ≤ sites) :
    Straight { d with callSites := sites, assembler := d.assembler.emit i } := by
  obtain ⟨is, hcode, hjumps, hnodup, hsites⟩ := h
  have hold : ∀ s ∈ is.filterMap Instruction.site?, s.toNat < sites :=
    fun s hs => Nat.lt_of_lt_of_le (hsites s hs) hle
  have hcode' : (d.assembler.emit i).code.toList = (is ++ [i]).flatMap Instruction.encode := by
    rw [Assembler.toList_emit, hcode, List.flatMap_append, List.flatMap_singleton]
  have hjumps' : ∀ j ∈ is ++ [i], j.isJump = false :=
    List.forall_mem_append.2 ⟨hjumps, List.forall_mem_singleton.2 hjump⟩
  cases hs : i.site? with
  | none =>
    have hall : (is ++ [i]).filterMap Instruction.site? = is.filterMap Instruction.site? := by
      rw [List.filterMap_append, List.filterMap_cons_none hs, List.filterMap_nil, List.append_nil]
    exact ⟨is ++ [i], hcode', hjumps', hall ▸ hnodup, hall ▸ hold⟩
  | some s =>
    -- the site is the next one, so it differs from all those given out before
    obtain ⟨hnext, hlt⟩ := hsite s hs
    have hall : (is ++ [i]).filterMap Instruction.site? =
        is.filterMap Instruction.site? ++ [s] := by
      rw [List.filterMap_append, List.filterMap_cons_some hs, List.filterMap_nil]
    have hnew : ∀ t ∈ is.filterMap Instruction.site?, ∀ u ∈ [s], t ≠ u := by
      intro t ht u hu heq
      obtain rfl := List.mem_singleton.1 hu
      have := hsites t ht
      rw [heq] at this
      omega
    refine ⟨is ++ [i], hcode', hjumps', ?_, ?_⟩
    · rw [hall]
      exact List.nodup_append.2 ⟨hnodup, List.pairwise_singleton _ s, hnew⟩
    · rw [hall]
      exact List.forall_mem_append.2 ⟨hold, List.forall_mem_singleton.2 hlt⟩

theorem stable_straight (ctx : LoweringContext) :
    Stable ctx Straight (fun _ => True) (fun _ => True) where
  constant := fun hd _ => hd.congr rfl rfl
  type := fun hd _ => hd.congr rfl rfl
  block := fun hd => hd.congr rfl rfl
  name := fun hd => hd.congr rfl rfl
  node := fun hd => hd.congr rfl rfl
  supply := fun hd => hd.congr rfl rfl
  emit := fun {d i} hd hjump hsite =>
    hd.emit hjump (by rw [hsite]; exact nofun) (Nat.le_refl d.callSites)
  send := fun {d _ _ _ _} hd hroom => by
    refine hd.emit rfl (fun s hs => ?_) (Nat.le_succ _)
    obtain rfl := Option.some.inj hs
    rw [UInt16.toNat_ofNat']
    omega
  literal := fun _ => trivial
  named := fun _ => trivial
  int := fun _ => trivial

end Draft

/-- **Straight-line bodies send one name at each call site.** -/
theorem oneNamePerSite_of_straight {body : List Directive}
    (h : ∀ step ∈ body, step.isStraight = true) : OneNamePerSite body := by
  intro ctx supply d hd b index
  have hstart : Draft.Straight { supply := supply } := ⟨[], rfl, nofun, List.nodup_nil, nofun⟩
  have hcode : ∀ c, .code c ∈ body → ∀ d : Draft, d.Straight →
      Draft.Straight { d with assembler := d.assembler.apply c } := by
    intro c hc d hd
    have hstep := h _ hc
    cases c with
    | emit i =>
      obtain ⟨hjump, hsite⟩ := (Bool.and_eq_true _ _).mp hstep
      exact (Draft.stable_straight ctx).emit hd (by simpa using hjump)
        (Option.isNone_iff_eq_none.1 hsite)
    | mark name => exact hd.congr rfl rfl
    | jump cond label => exact nomatch hstep
    | jumpBack cond target => exact nomatch hstep
    | bind label => exact nomatch hstep
  obtain ⟨is, hcode, hjumps, hsites, _⟩ := lower_stable (Draft.stable_straight ctx) hstart hcode hd
  exact Program.oneNamed_of_straight hcode hjumps hsites

end BlockMachine
