import BlockMachine.Proofs.Machine.Handover
import BlockMachine.Proofs.Machine.Stepping
import BlockMachine.Proofs.Program.Wrapping
import BlockMachine.Proofs.Value.Literals

namespace BlockMachine

/-!
# Calls through a wrapper

What a host gets from a block that it calls, it gets from a wrapper as well that calls the block under a
key, and what the block saves is stored under the key.

* `Wrapper.Lowered.execute_loads` is about the loads of a wrapper, `Wrapper.Lowered.poised` about the whole
  way up to its call;
* `Wrapper.step_call` is the call, and `Machine.HandedOver.finish` what comes after it;
* `Wrapper.Poised.finishes` puts a call next to the same call by a host;
* **`Machine.call_nested`** is the nesting law.
-/

/-! ### Registers that are written one after the other -/

namespace Registers

variable {xs : Array Value} {rs : List (Reg × Value)}

/-- Registers after writes. -/
def put (xs : Array Value) (rs : List (Reg × Value)) : Array Value :=
  rs.foldl (fun xs r => xs.setIfInBounds r.1.toNat r.2) xs

theorem put_cons (xs : Array Value) (r : Reg × Value) (rs : List (Reg × Value)) :
    put xs (r :: rs) = put (xs.setIfInBounds r.1.toNat r.2) rs :=
  rfl

/-- What is not written stays. -/
theorem getElem?_put_of_not_mem {r : Reg} (h : r ∉ rs.map (·.1)) : (put xs rs)[r.toNat]? = xs[r.toNat]? := by
  induction rs generalizing xs with
  | nil => rfl
  | cons x rs ih =>
    rw [List.map_cons, List.mem_cons, not_or] at h
    rw [put_cons, ih h.2, Array.getElem?_setIfInBounds_ne]
    exact fun heq => h.1 (UInt16.toNat_inj.1 heq.symm)

/-- What is written once is there. -/
theorem getElem?_put (hnodup : (rs.map (·.1)).Nodup) {r : Reg} {v : Value} (h : (r, v) ∈ rs)
    (hr : r.toNat < xs.size) : (put xs rs)[r.toNat]? = some v := by
  induction rs generalizing xs with
  | nil => cases h
  | cons x rs ih =>
    obtain ⟨hfresh, hnodup⟩ := List.nodup_cons.1 hnodup
    rcases List.mem_cons.1 h with rfl | h
    · rw [put_cons, getElem?_put_of_not_mem hfresh, Array.getElem?_setIfInBounds_self_of_lt hr]
    · rw [put_cons]
      exact ih hnodup h (by rw [Array.size_setIfInBounds]; exact hr)

end Registers

namespace Machine

variable {m : Machine} {f : Frame} {rest : List Frame} {P : Program}

/-! ### Loads -/

/-- **Loads leave their values**, and the program goes on behind them. -/
theorem execute_loading {host : Embedder} {d d' : Draft} {rs : List (Reg × Value)} (h : Draft.Loading d rs d')
    (hcode : d'.assembler.code.toList <+: P.code.toList) (hpool : d'.constants.toList <+: P.constants.toList)
    (hgoing : m.stack.cancelled = false) (hframes : m.stack.frames = f :: rest)
    (hoffset : f.pc.offset = d.assembler.code.toList.length) (hroom : ∀ r ∈ rs, r.1.toNat < f.registers.size)
    (fuel : Nat) : execute host (fuel + rs.length) P m = execute host fuel P (m.withFrames ({ f with
      registers := Registers.put f.registers rs
      pc := { f.pc with offset := d'.assembler.code.toList.length } } :: rest)) := by
  induction h generalizing m f with
  | nil d =>
    rw [← hoffset, Registers.put, List.foldl_nil, ← hframes]
    rfl
  | @cons d d₁ d' dst v i rs hloaded more ih =>
    obtain ⟨hmore, hmorePool⟩ := more.prefixes
    have hat : P.instructionAt f.pc.offset = .ok (i, d₁.assembler.code.toList.length) := by
      obtain ⟨after, hafter⟩ := hmore.trans hcode
      rw [hloaded.code, List.append_assoc] at hafter
      rw [hloaded.code, List.length_append, hoffset]
      exact decodeAt_encode (bytesAt_of_toList hafter.symm)
    obtain ⟨hdst, hroom⟩ := List.forall_mem_cons.1 hroom
    let g : Frame := { f with
      registers := f.registers.setIfInBounds dst.toNat (d.entered v)
      pc := { f.pc with offset := d₁.assembler.code.toList.length } }
    have hstep : step host (runWith (execute host (fuel + rs.length))) P d₁.assembler.code.toList.length i
        (m.advanced f rest d₁.assembler.code.toList.length) = (.ok .next, m.withFrames (g :: rest)) :=
      step_loads (m := m.advanced f rest _) (hloaded.loads.mono (hmorePool.trans hpool)) rfl hdst
    have hafter := ih (m := m.withFrames (g :: rest)) (f := g) hcode hpool hgoing rfl rfl fun r hr => by
      rw [Array.size_setIfInBounds]
      exact hroom r hr
    rw [List.length_cons, ← Nat.add_assoc, execute_next hgoing hframes hat hstep, hafter]
    rfl

/-! ### Arguments -/

theorem register_apply (hframes : m.stack.frames = f :: rest) {r : Reg} {v : Value}
    (hv : f.registers[r.toNat]? = some v) (hsettled : v.isMoved = false) : register r m = (.ok v, m) := by
  rw [register, rawRegister, Failing.bind_apply, Failing.bind_apply, active_apply hframes]
  dsimp only
  rw [hv]
  simp only [Failing.pure_apply, hsettled]
  rfl

theorem argumentsFrom_apply (hframes : m.stack.frames = f :: rest) (base : Reg) {vs : List Value} {start : Nat}
    (hvs : ∀ i (hi : i < vs.length), f.registers[base.toNat + (start + i)]? = some vs[i])
    (hsettled : ∀ v ∈ vs, v.isMoved = false) (hroom : base.toNat + (start + vs.length) ≤ 65536) :
    argumentsFrom base start vs.length m = (.ok vs, m) := by
  induction vs generalizing start with
  | nil => rfl
  | cons v vs ih =>
    rw [List.length_cons] at hroom
    have hlt : base.toNat + start < 65536 := by omega
    have hoffset : offsetRegister base start m = (.ok (.ofNat (base.toNat + start)), m) := by
      rw [offsetRegister, if_pos hlt]
      rfl
    obtain ⟨hv, hrest⟩ := List.forall_mem_cons.1 hsettled
    have hregister : register (.ofNat (base.toNat + start)) m = (.ok v, m) := by
      refine register_apply hframes ?_ hv
      rw [UInt16.toNat_ofNat_of_lt' hlt]
      exact hvs 0 (Nat.succ_pos _)
    rw [List.length_cons, argumentsFrom, Failing.bind_apply, hoffset]
    dsimp only
    rw [Failing.bind_apply, hregister]
    dsimp only
    rw [Failing.bind_apply, ih (fun i hi => ?_) hrest (by omega)]
    · rfl
    · rw [Nat.add_right_comm start, Nat.add_assoc start]
      exact hvs (i + 1) (Nat.succ_lt_succ hi)

/-- Outputs of any type in consecutive registers are what was received there. -/
theorem castOutputs_any (program : Program) {registers : Array Value} {declared : List Output}
    {start index : Nat} {ws : List Value}
    (hregisters : declared.map (·.register.toNat) = List.range' start ws.length)
    (hany : ∀ o ∈ declared, o.placeholder.type = .basic .any)
    (hws : ∀ i (hi : i < ws.length), registers[start + i]? = some ws[i])
    (hsettled : ∀ w ∈ ws, w.isMoved = false) (m : Machine) :
    castOutputs program registers index declared m = (.ok ws, m) := by
  induction declared generalizing start index ws with
  | nil =>
    rw [List.map_nil, eq_comm, List.range'_eq_nil_iff, List.length_eq_zero_iff] at hregisters
    rw [hregisters]
    rfl
  | cons o declared ih =>
    cases ws with
    | nil => cases hregisters
    | cons w ws =>
      rw [List.map_cons, List.length_cons, List.range'_succ] at hregisters
      obtain ⟨hstart, hrest⟩ := List.cons.inj hregisters
      obtain ⟨hw, hsettled⟩ := List.forall_mem_cons.1 hsettled
      obtain ⟨htype, hany⟩ := List.forall_mem_cons.1 hany
      have hvalue : registers[o.register.toNat]? = some w := by
        rw [hstart]
        exact hws 0 (Nat.succ_pos _)
      have htail : castOutputs program registers (index + 1) declared m = (.ok ws, m) :=
        ih hrest hany (fun i hi => by
          rw [Nat.add_right_comm, Nat.add_assoc]
          exact hws (i + 1) (Nat.succ_lt_succ hi)) hsettled
      have hcast : tryCast o.placeholder.type w m = (.ok (.ok w), m) := by
        rw [htype]
        cases w with
        | moved => cases hw
        | _ => rfl
      rw [castOutputs, hvalue]
      dsimp only
      split
      -- a null may be let through by an optional output; otherwise the type any casts to itself
      next hnull =>
        obtain ⟨hnull, -⟩ := Bool.and_eq_true_iff.1 hnull
        cases w with
        | null =>
          rw [Failing.bind_apply, Failing.pure_apply]
          dsimp only
          rw [Failing.bind_apply, htail]
          rfl
        | _ => cases hnull
      next =>
        rw [Failing.bind_apply, hcast]
        dsimp only
        rw [Failing.bind_apply, Failing.pure_apply]
        dsimp only
        rw [Failing.bind_apply, htail]
        rfl

end Machine

/-! ### Wrappers at work -/

namespace Wrapper

open Machine

variable {W : Wrapper} {s : Signature} {count : Nat} {scope : Scope} {supply n : BufferId}
  {args vs cs as : List Value} {k : Value} {d₁ d : Draft} {m : Machine} {f : Frame} {rest : List Frame}
  {p : Program}

theorem Declares.addressable (h : W.Declares s count) : W.base.toNat + W.argc ≤ 65536 :=
  Nat.le_trans h.room (Signature.registerCount_le h.inputs)

theorem Declares.toNat_register (h : W.Declares s count) {i : Nat} (hi : i < W.argc) :
    (UInt16.ofNat (W.base.toNat + i)).toNat = W.base.toNat + i :=
  UInt16.toNat_ofNat_of_lt' (Nat.lt_of_lt_of_le (Nat.add_lt_add_left hi _) h.addressable)

/-- The arguments and the key are in registers of their own. -/
theorem Declares.placed (h : W.Declares s count) (hargc : args.length = W.argc) :
    ((W.placed args k).map (·.1)).Nodup ∧ ∀ x ∈ W.placed args k, x.1.toNat < s.registerCount := by
  have hroom := h.room
  constructor
  · have hregisters : ((W.placed args k).map (·.1)).map UInt16.toNat =
        List.range' W.base.toNat W.argc ++ [W.keyAt.toNat] := by
      simp only [Wrapper.placed, List.map_append, List.map_cons, List.map_nil]
      congr 1
      refine List.ext_getElem (by simp [hargc]) fun i hi hi' => ?_
      rw [List.length_range'] at hi'
      simp only [List.getElem_map, List.getElem_mapIdx, List.getElem_range', Nat.one_mul, h.toNat_register hi']
    refine List.Nodup.of_map UInt16.toNat ?_
    rw [hregisters]
    refine List.nodup_append.2 ⟨List.nodup_range', List.nodup_singleton _, fun a ha b hb => ?_⟩
    obtain rfl := List.mem_singleton.1 hb
    obtain ⟨hfirst, hlast⟩ := List.mem_range'_1.1 ha
    have hapart := h.apart
    omega
  · rintro ⟨r, v⟩ hx
    rcases mem_placed.1 hx with ⟨i, hi, rfl, -⟩ | ⟨rfl, -⟩
    · rw [hargc] at hi
      dsimp only
      rw [h.toNat_register hi]
      omega
    · exact h.keyRoom

/-- **A wrapper loads its arguments and its key.** -/
theorem Lowered.execute_loads {host : Embedder} (h : W.Lowered supply vs cs d₁ d)
    (hdeclares : W.Declares s count) (hloads : W.Loads scope supply args vs k n)
    (hcode : p.code = d.assembler.code) (hconstants : p.constants = d.constants)
    (hgoing : m.stack.cancelled = false) (hframes : m.stack.frames = f :: rest) (hoffset : f.pc.offset = 0)
    (hsize : f.registers.size = s.registerCount) :
    ∃ steps xs, (∀ fuel, execute host (fuel + steps) p m = execute host fuel p (m.withFrames ({ f with
        registers := xs
        pc := { f.pc with offset := d₁.assembler.code.toList.length } } :: rest))) ∧
      ∀ x ∈ (W.loads.map (·.1)).zip cs, xs[x.1.toNat]? = some x.2 := by
  obtain ⟨hnodup, hroom⟩ := hdeclares.placed (k := k) hloads.argc
  have hcs := hloads.map_fst_zip h.stands.length_eq
  have hsame := (hloads.placed.map (·.1)).symm
  rw [hloads.map_fst_zip rfl] at hsame
  have hdistinct : (((W.loads.map (·.1)).zip cs).map (·.1)).Nodup := by
    rw [hcs]
    exact hsame.nodup_iff.1 hnodup
  have hfits : ∀ x ∈ (W.loads.map (·.1)).zip cs, x.1.toNat < f.registers.size := by
    intro x hx
    have hmem := List.mem_map_of_mem (f := Prod.fst) hx
    rw [hcs] at hmem
    obtain ⟨y, hy, hxy⟩ := List.mem_map.1 (hsame.mem_iff.2 hmem)
    rw [hsize, ← hxy]
    exact hroom y hy
  refine ⟨_, _, execute_loading h.loading ?_ ?_ hgoing hframes hoffset hfits, fun x hx => ?_⟩
  · rw [hcode, h.code]
    exact List.prefix_append _ _
  · rw [hconstants, h.constants]
  · exact Registers.getElem?_put hdistinct hx (hfits x hx)

/-- A wrapper calls its block with what it loaded, under its key. -/
theorem step_call {host : Embedder} {resume : Action Outcome} {next : Nat} (hblocks : p.blocks = #[W.block])
    (hframes : m.stack.frames = f :: rest) (hdeclares : W.Declares s count) (hargc : as.length = W.argc)
    (hplaced : ∀ x ∈ W.placed as k, f.registers[x.1.toNat]? = some x.2)
    (hsettled : ∀ a ∈ as, a.isMoved = false) (hkey : k.key? = some W.key) : step host resume p next W.call m =
      (enter W.block as { returnTo := some W.out, key := some W.key } >>= fun _ => pure Flow.reload) m := by
  have hregister : register W.keyAt m = (.ok k, m) := by
    refine register_apply hframes (hplaced _ (mem_placed.2 (.inr ⟨rfl, rfl⟩))) ?_
    cases k with
    | moved => cases hkey
    | _ => rfl
  have hkeyRegister : keyRegister W.keyAt m = (.ok W.key, m) := by
    rw [keyRegister, Failing.bind_apply, hregister]
    dsimp only
    rw [hkey]
    rfl
  have harguments : Machine.arguments W.base (UInt8.ofNat W.argc).toNat m = (.ok as, m) := by
    rw [UInt8.toNat_ofNat_of_lt' (Nat.lt_succ_of_le hdeclares.few), ← hargc]
    refine argumentsFrom_apply hframes W.base (fun i hi => ?_) hsettled ?_
    · have hvalue := hplaced _ (mem_placed.2 (.inl ⟨i, hi, rfl, rfl⟩))
      rw [hdeclares.toNat_register (hargc ▸ hi)] at hvalue
      rw [Nat.zero_add]
      exact hvalue
    · rw [Nat.zero_add, hargc]
      exact hdeclares.addressable
  have hentry : entry .block p.blocks 0 m = (.ok W.block, m) := by
    rw [hblocks]
    rfl
  show (perform host resume p next W.call >>= fun _ => pure Flow.reload) m = _
  rw [Failing.bind_apply, Failing.bind_apply, call, perform, Failing.bind_apply, hentry]
  dsimp only
  rw [Failing.bind_apply, hkeyRegister]
  dsimp only
  rw [Failing.bind_apply, harguments]

end Wrapper

namespace Machine

variable {c : Caller} {ρ : Matching} {m₁ m₂ n₁ : Machine}

/-- A caller that returns what it received finishes. -/
theorem HandedOver.finish {host : Embedder} {ws : List Value} {saved : List (Key × Value)} {k n : Machine}
    {last : Nat} (h : HandedOver c ρ ws saved k n) (halone : c.frame.parent = none)
    (hret : c.program.instructionAt c.frame.pc.offset = .ok (.ret, last))
    (hregisters : c.program.signature.outputs.map (·.register.toNat) =
      List.range' c.out.toNat c.callee.signature.outputs.length)
    (hany : ∀ o ∈ c.program.signature.outputs, o.placeholder.type = .basic .any) :
    ∃ m, (currentProgram >>= execute host 1) n = (.ok .finished, m) ∧ m.outputs = ws ∧
      m.stack.state = (StateTree.ofOutgoing saved n.world.supply).1 := by
  let g : Frame := { c.frame with registers := receive c.frame.registers c.out.toNat ws, outgoing := saved }
  have hframes : n.stack.frames = [g] := h.frames
  obtain ⟨hfiles, hversion⟩ := h.follows
  obtain ⟨-, b, hb, hsignature⟩ := h.derived.files_block hfiles
  have hexecuting : n.Executing c.program := ⟨_, [], hframes, hfiles.2, hversion⟩
  rw [← h.count] at hregisters
  have hcast : castOutputs c.program g.registers 0 c.program.signature.outputs (n.advanced g [] last) =
      (.ok ws, n.advanced g [] last) := by
    refine castOutputs_any c.program hregisters hany (fun i hi => ?_) h.settled _
    rw [getElem?_receive, if_pos ⟨Nat.le_add_right _ _, Nat.add_lt_add_left hi _⟩, Nat.add_sub_cancel_left]
    exact List.getElem?_eq_getElem hi
  have hdistinct : (b.signature.outputs.map (·.register)).Nodup := by
    refine List.Nodup.of_map UInt16.toNat ?_
    rw [List.map_map, ← hsignature]
    exact hregisters.symm ▸ List.nodup_range'
  have hleave := leave_apply (m := n.advanced g [] last) rfl hcast
  rw [if_pos (show g.parent.isNone = true from halone ▸ rfl)] at hleave
  rw [congrArg Signature.outputs hsignature] at hleave
  have hfinish : execute host 1 c.program n = (.ok .finished, _) :=
    execute_finish h.going hframes hret hleave
  have hgives := castOutputs_gives hcast
  rw [hsignature] at hgives
  refine ⟨(leaveRoot { g with pc := { g.pc with offset := last } } (b.signature.outputs.zip ws)
    (n.advanced g [] last)).2, ?_, leaveRoot_distinct hb hgives hdistinct, rfl⟩
  rw [Failing.bind_apply, hexecuting.currentProgram]
  exact hfinish

end Machine

namespace Wrapper

open Machine

variable {libraries : Libraries} {W : Wrapper} {s : Signature} {count : Nat} {scope : Scope}
  {supply n : BufferId}
  {args vs cs as : List Value} {k : Value} {d₁ d : Draft}

/-- A frame that loaded everything and is about to call the block. -/
structure Poised (W : Wrapper) (s : Signature) (as : List Value) (w : World) (p : Program) (f : Frame) :
    Prop where
  follows : f.Follows w p
  signature : p.signature = s
  blocks : p.blocks = #[W.block]
  alone : f.parent = none
  unsaved : f.outgoing = []
  placed : ∃ k, k.key? = some W.key ∧ ∀ x ∈ W.placed as k, f.registers[x.1.toNat]? = some x.2
  code : ∃ next last,
    p.instructionAt f.pc.offset = .ok (W.call, next) ∧ p.instructionAt next = .ok (.ret, last)

/-- **A wrapper that is called gets as far as its own call.** -/
theorem Lowered.poised (h : W.Lowered supply vs cs d₁ d) (hdeclares : W.Declares s count)
    (hloads : W.Loads scope supply args vs k n) {m : Machine} {id : BlockId} {i : Nat} {w : World}
    (hcompile : World.compile id m.world = (.ok i, w))
    (hcompiled : World.HasCompiled id i ⟨id, 0, s, W.body⟩ d m.world w)
    (hblock : m.world.blocks[id]? = some ⟨id, 0, s, W.body⟩) (hframes : m.stack.frames = [])
    (hroom : 0 < m.stack.config.maxFrames) (hphase : m.stack.phase = .ready)
    (hgoing : m.stack.cancelled = false) :
    ∃ as p f m' steps, List.Forall₂ (Draft.StandsFor vs) as args ∧ W.Poised s as w p f ∧
      f.incoming = m.stack.state ∧ push id [] m = (.ok (), m') ∧
      ∀ fuel, run (fuel + steps) libraries m' =
        ended (execute (.idle libraries) fuel p ({ m with world := w }.started.withFrames [f])) := by
  let p : Program := World.finish ⟨id, 0, s, W.body⟩ i d
  let m' : Machine := { m with world := w }
  have hdepth : m.stack.depth = 0 := by rw [Stack.depth, hframes]; rfl
  have hblock' : w.blocks[id]? = some ⟨id, 0, s, W.body⟩ := hcompiled.only.blocks ▸ hblock
  have hfiled : w.Files id i p := hcompiled.filed
  let f : Frame := {
    block := id
    program := i
    version := p.version
    registers := Frame.resized #[] p.registers
    pc := ⟨0, p.nodeAt 0⟩
    incoming := m.stack.state }
  -- the push compiles the wrapper and enters it with a frame of nulls
  have hpush : push id [] m = (.ok (), m'.withFrames [f]) := by
    rw [push_of_ready hphase, enter_of_compile (hdepth ▸ hroom) hcompile
      (World.compile_filed hblock' hfiled.1 hfiled.2 rfl),
      enter_filed (m := m') (hdepth ▸ hroom) hblock' hfiled.1 hfiled.2 rfl hdeclares.inputs {}]
    simp only [incomingFor, m', hframes, hdepth]
    rfl
  -- its code is the loads, the call and the return, one behind the other
  have hcode : p.code.toList = d₁.assembler.code.toList ++ (W.call.encode ++ Instruction.ret.encode) := h.code
  have hend : p.code.toList =
      (d₁.assembler.code.toList ++ W.call.encode) ++ (Instruction.ret.encode ++ []) := by
    rw [hcode, List.append_nil, List.append_assoc]
  have hret := decodeAt_encode (bytesAt_of_toList hend)
  rw [List.length_append] at hret
  obtain ⟨steps, xs, hexecute, hloaded⟩ := @execute_loads _ _ _ _ _ _ _ _ _ _ _ _ (m'.withFrames [f]).started
    f [] p (.idle libraries) h hdeclares hloads rfl rfl hgoing rfl rfl (Frame.size_resized _ _)
  obtain ⟨as, k', hstands, hkey, hplaced⟩ := h.exists_placed hloads
  let g : Frame := { f with registers := xs, pc := { f.pc with offset := d₁.assembler.code.toList.length } }
  -- after the loads the frame stands at the call with the arguments in its registers
  refine ⟨as, p, g, _, steps, hstands, ?_, rfl, hpush, fun fuel => ?_⟩
  · exact {
      follows := ⟨hfiled, rfl⟩
      signature := rfl
      blocks := h.blocks
      alone := rfl
      unsaved := rfl
      placed := ⟨k', hkey, fun x hx => hloaded x (hplaced x hx)⟩
      code := ⟨_, _, decodeAt_encode (bytesAt_of_toList hcode), hret⟩ }
  · rw [run_of_held libraries (m := m'.withFrames [f]) (fuel + steps) hphase
      (List.forall_mem_singleton.2 ⟨p, hfiled.2, rfl⟩) ⟨f, [], rfl, hfiled.2, rfl⟩, hexecute fuel]
    rfl

/-- **What a block does that a host calls, it does when a wrapper calls it**, and the wrapper returns the
    outputs and stores under its key what was saved. -/
theorem Poised.finishes {b : Block} {ρ : Matching} {m₁ m₂ n₁ k₁ : Machine} {f : Frame} {p : Program}
    {fuel : Nat} (h : W.Poised s as m₂.world p f) (hdeclares : W.Declares s b.signature.outputs.length)
    (hargc : as.length = W.argc) (hsettled : ∀ a ∈ as, a.isMoved = false) (hargs : Items.Like ρ args as)
    (hframes₁ : m₁.stack.frames = []) (hframes₂ : m₂.stack.frames = [f]) (hphase : m₁.stack.phase = .ready)
    (hstate : m₁.stack.state.Like ρ (StateTree.child f.incoming W.key))
    (habreast : Abreast ⟨f, p, W.block, b, W.key, W.out, fun _ => none⟩ ρ m₁ m₂)
    (hentered : enter W.block args {} m₁ = (.ok (), n₁))
    (hrun : run fuel libraries n₁ = (.ok .finished, k₁)) :
    ∃ steps ρ' saved supply k₂, execute (.idle libraries) steps p m₂ = (.ok .finished, k₂) ∧
      Items.Like ρ' k₁.outputs k₂.outputs ∧ k₂.stack.state = (StateTree.ofOutgoing saved supply).1 ∧
      SavedUnder W.key ρ' k₁.stack.state saved := by
  obtain ⟨next, last, hcall, hret⟩ := h.code
  obtain ⟨k, hkey, hplaced⟩ := h.placed
  let g : Frame := { f with pc := { f.pc with offset := next } }
  let c : Caller := ⟨g, p, W.block, b, W.key, W.out, fun _ => none⟩
  have hadvanced : Abreast c ρ m₁ (m₂.advanced f [] next) := { habreast with }
  obtain ⟨ρ₁, n₂, hentered₂, hnested, hphase₁⟩ := hadvanced.called hframes₁ rfl
    (h.follows.samePost ⟨rfl, rfl, rfl, rfl, rfl, rfl⟩) hstate hargs hentered
  have hstarted : Nested c ρ₁ n₁.started n₂ := { hnested with }
  obtain ⟨p₁, q, -, -, hrunning⟩ := hstarted.exists_running
  obtain ⟨f₁, rest₁, f₂, rest₂, h₁, h₂, -⟩ := hrunning.exists_active
  have hp₁ := hrunning.runs₁ f₁ rest₁ h₁
  have hq := hrunning.runs₂ f₂ rest₂ h₂
  have hstep : ∀ resume, step (.idle libraries) resume p next W.call (m₂.advanced f [] next) =
      (.ok .reload, n₂) := by
    intro resume
    rw [step_call (f := g) h.blocks rfl hdeclares hargc hplaced hsettled hkey, Failing.bind_apply, hentered₂]
    rfl
  rw [run_of_held libraries fuel (hphase₁.trans hphase)
    (fun f' hf' => (hstarted.filed₁ f' hf').imp fun _ h' => ⟨h'.1.2, h'.2⟩)
    ⟨f₁, rest₁, h₁, hp₁.1.2, hp₁.2⟩] at hrun
  obtain ⟨n', hexecute, rfl⟩ := ended_ok hrun
  obtain ⟨steps, ρ', ws, saved, n₃, -, hgo, hhanded⟩ := execute_nested h.unsaved hrunning hexecute
  obtain ⟨m, hfinish, houtputs, hsaved⟩ : ∃ m,
      (currentProgram >>= execute (.idle libraries) 1) n₃ = (.ok .finished, m) ∧ m.outputs = ws ∧
      m.stack.state = (StateTree.ofOutgoing saved n₃.world.supply).1 :=
    hhanded.finish h.alone hret (h.signature ▸ hdeclares.outputs) (h.signature ▸ hdeclares.any)
  refine ⟨steps + 1 + 1, ρ', saved, _, m, ?_, ?_, hsaved, hhanded.state⟩
  · rw [execute_reload habreast.going.2 hframes₂ hcall (hstep _) ⟨f₂, rest₂, h₂, hq.1.2, hq.2⟩, hgo 1, hfinish]
  · rw [houtputs]
    exact hhanded.outputs

end Wrapper

/-- A state tree with one state under a key, unless there is nothing to keep. -/
def StateTree.under (k : Key) (state : Value) : Value :=
  if state.isNull then .null else .map 0 [(k, state)]

namespace Machine

theorem SavedUnder.erase_eq {ρ : Matching} {k : Key} {state : Value} {saved : List (Key × Value)}
    (h : SavedUnder k ρ state saved) (supply : BufferId) :
    (StateTree.ofOutgoing saved supply).1.erase = (StateTree.under k state).erase := by
  rcases h with ⟨rfl, rfl⟩ | ⟨hnull, v, hv, rfl⟩
  · rfl
  · have hmap : (StateTree.ofOutgoing [(k, v)] supply).1 = .map supply [(k, v)] := rfl
    rw [StateTree.under, hnull, if_neg Bool.false_ne_true, hmap]
    simp only [Value.erase, Value.eraseEntries, hv.erase_eq]

/-- A machine with a new stack that was given a state tree. -/
def restored (w : World) (config : StackConfig) (state : Value) (printed : String) : Machine :=
  ⟨w, { Stack.new config with state := state }, printed⟩

/-- The machine of a host that calls a block, and that of a wrapper with room for one frame more. -/
theorem abreast_restored {w w' : World} {W : Wrapper} {b : Block} {ρ : Matching} (f : Frame) (p : Program)
    (config : StackConfig) (state tree : Value) (printed printed' : String)
    (hworlds : World.Beside (fun _ => none) ρ w w') (hnatives : w.natives.Only Native.isDefault)
    (hblock : w.blocks[W.block]? = some b) (hdistinct : (b.signature.outputs.map (·.register)).Nodup) :
    Abreast ⟨f, p, W.block, b, W.key, W.out, fun _ => none⟩ ρ (restored w config state printed)
      ((restored w' { config with maxFrames := config.maxFrames + 1 } tree printed').started.withFrames
        [f]) where
  worlds := hworlds
  callee := hblock
  distinct := hdistinct
  natives := hnatives
  caches := .empty _ _
  config := rfl
  random := rfl
  env := ⟨rfl, rfl⟩
  messages := ⟨rfl, rfl⟩
  going := ⟨rfl, rfl⟩
  error _ := rfl

/-- **The nesting law.** A block that returns when it is called on a new stack returns the same when a wrapper
    calls it under a key, on a new stack with room for one frame more and with the state tree under the key.
    Afterwards, what the block saved is under the key as well. Arguments of one kind that are equal must be
    the same, since equal constants are one constant. -/
theorem call_nested {w : World} {W : Wrapper} {s : Signature} {b : Block} {state : Value} {id n : BufferId}
    {val : BufferId → Value} {config : StackConfig} {args vs outs : List Value} {k : Value}
    {printed printed' : String} {fuel : Nat} {libraries : Libraries} {m : Machine} (hw : w.Derived)
    (hnatives : w.natives.Only Native.isDefault) (hheap : w.InHeap w.supply val)
    (hstate : state.InHeap w.supply val) (hblock : w.blocks[W.block]? = some b)
    (hdistinct : (b.signature.outputs.map (·.register)).Nodup)
    (hdeclares : W.Declares s b.signature.outputs.length) (hloads : W.Loads w.scope w.supply args vs k n)
    (hsettled : ∀ v ∈ args, v.isMoved = false) (hfaithful : ∀ v ∈ args, ∀ u ∈ args, Draft.Faithful v u)
    (hcall : call fuel W.block args libraries (restored { w with supply := n } config state printed) =
      (.ok outs, m)) :
    ∃ fuel' outs' m', call fuel' w.blocks.size [] libraries (restored (w.addBlock s W.body).2
        { config with maxFrames := config.maxFrames + 1 } (.map id [(W.key, state)]) printed') =
        (.ok outs', m') ∧
      outs'.map Value.erase = outs.map Value.erase ∧
      m'.stack.state.erase = (StateTree.under W.key m.stack.state).erase := by
  obtain ⟨n₁, k₁, hpush, hrun, rfl, rfl⟩ := call_ok hcall
  rw [push_of_ready rfl] at hpush
  -- the values that the wrapper loads are new to the heap, and in it from then on
  obtain ⟨hle, val', hagree, hvalues⟩ := Literal.evalItems_keepsHeap val _ hloads.values
  have hfew : W.loads.length ≤ 65536 := by
    have hargc := hdeclares.few
    rw [hloads.length_loads]
    omega
  -- the wrapper is compiled, and runs up to its call
  let ctx : LoweringContext := ⟨s.name, w.scope, w.natives⟩
  obtain ⟨cs, d₁, d, hlower, rfl, hlowered⟩ : ∃ cs d₁ d, lower ctx W.body w.supply = .ok d ∧
      d.supply = n ∧ W.Lowered w.supply vs cs d₁ d :=
    W.lower_ok hfew hloads.values (hloads.pairwise_faithful hvalues hfaithful)
  obtain ⟨i, w', hcompile, hcompiled⟩ := hw.compile_new hlower
  have hbeside := hw.beside_new (hheap.mono hle hagree) hcompiled hcompiled.drawn
  let m₂ : Machine := restored (w.addBlock s W.body).2 { config with maxFrames := config.maxFrames + 1 }
    (.map id [(W.key, state)]) printed'
  obtain ⟨as, p, f, n₂, steps, hstands, hpoised, hincoming, hpush₂, hrun₂⟩ :=
    hlowered.poised hdeclares hloads (m := m₂) hcompile hcompiled Array.getElem?_push_size rfl
      (Nat.succ_pos _) rfl rfl
  have habreast := abreast_restored f p config state (.map id [(W.key, state)]) printed printed' hbeside
    hnatives hblock hdistinct
  have hchild : state.Like (.copies d.supply val') (StateTree.child f.incoming W.key) := by
    have hself : StateTree.child (.map id [(W.key, state)]) W.key = state := by
      simp [StateTree.child, Entries.get?]
    rw [hincoming]
    exact hself.symm ▸ (hstate.mono hle hagree).like
  have hlike : Items.Like (.copies d.supply val') args as :=
    Draft.standsFor_like hvalues (fun v hv => hvalues v (hloads.mem_values hv)) hstands
  obtain ⟨steps', ρ', saved, supply, k₂, hexecute, houtputs, hsaved, hunder⟩ := hpoised.finishes hdeclares
    (hstands.length_eq.trans hloads.argc) (Draft.standsFor_settled hsettled hstands) hlike rfl rfl rfl
    hchild habreast hpush hrun
  refine ⟨_, _, _, call_finished hpush₂ ((hrun₂ steps').trans (congrArg ended hexecute)),
    houtputs.erase_eq.symm, ?_⟩
  show k₂.stack.state.erase = _
  rw [hsaved]
  exact hunder.erase_eq supply

end Machine

/-! ### A wrapper whose arguments and key are one constant -/

namespace Relay

open Machine

def signature : Signature where
  name := "keep"
  inputs := [⟨"a", .basic .any, false⟩, ⟨"b", .basic .any, false⟩]
  outputs := [⟨⟨"x", .basic .any, false⟩, 0⟩, ⟨⟨"y", .basic .any, false⟩, 1⟩]

/-- Saves the second input, and returns both. -/
def body : List Directive :=
  [.saveState "last" 1, .code (.emit .ret)]

def world : World where
  blocks := #[⟨0, 0, signature, body⟩]
  natives := {}
  supply := 1

def state : Value :=
  .map 0 [(.name "last", .int 7)]

/-- An integer that does not fit an instruction. -/
def large : Int64 :=
  4294967296

def wrapper : Wrapper where
  block := 0
  key := .name "a"
  loads := [(0, .int large), (2, .str "a"), (1, .int large)]
  argc := 2
  base := 0
  keyAt := 2
  out := 0

def wrapping : Signature where
  name := "relay"
  outputs := signature.outputs
  locals := 3

/-- The block is called with one integer twice, by the host. -/
def answer : Except Fault (List Value) × Machine :=
  call 9 0 [.int large, .int large] .simple (restored { world with supply := 2 } { maxFrames := 1 } state "")

/-- The wrapper has one constant for both arguments, and the block returns them both. -/
theorem call_nested_shared : ∃ outs m fuel outs' m', answer = (.ok outs, m) ∧
    outs.map Value.int? = [some large, some large] ∧ (StateTree.read m.stack.state "last").int? = some large ∧
    call fuel 1 [] .simple (restored (world.addBlock wrapping wrapper.body).2 { maxFrames := 2 }
      (.map 9 [(.name "a", state)]) "") = (.ok outs', m') ∧
    outs'.map Value.erase = outs.map Value.erase ∧
    m'.stack.state.erase = (StateTree.under (.name "a") m.stack.state).erase := by
  have hderived : world.Derived := .of_empty rfl
  have hheap : world.InHeap 1 fun _ => state := by
    refine ⟨fun id i p hp => ?_, fun m hm => by cases hm⟩
    obtain ⟨slot, hslot, -⟩ := (hderived.indexed id i).1 hp.1
    cases hslot
  have hstate : state.InHeap 1 fun _ => state := by
    refine .of_parts (fun i hi => ?_) (List.nodup_singleton _) ?_
    · obtain rfl := Option.some.inj hi
      exact ⟨Nat.zero_lt_one, rfl⟩
    · exact List.forall_mem_singleton.2 (.of_atom rfl)
  have hdeclares : wrapper.Declares wrapping 2 := {
    inputs := rfl
    outputs := rfl
    any := List.forall_mem_cons.2 ⟨rfl, List.forall_mem_singleton.2 rfl⟩
    few := by decide
    room := by decide
    keyRoom := by decide
    apart := by decide }
  have hloads : wrapper.Loads world.scope 1 [.int large, .int large] [.int large, .str 1 "a", .int large]
      (.str 1 "a") 2 := {
    values := rfl
    placed := (List.Perm.swap ..).cons _
    argc := rfl
    key := rfl }
  have hok : answer.1.isOk = true := by decide +kernel
  have hints : (answer.1.toOption.getD []).map Value.int? = [some large, some large] := by decide +kernel
  have hlast : (StateTree.read answer.2.stack.state "last").int? = some large := by decide +kernel
  rcases hcall : answer with ⟨e | outs, m⟩ <;> rw [hcall] at hok hints hlast
  · cases hok
  obtain ⟨fuel, outs', m', hnested, houts, hleft⟩ := call_nested hderived .empty hheap hstate rfl (by decide)
    hdeclares hloads (by simp [Value.isMoved]) (by simp [Draft.Faithful]) hcall
  exact ⟨outs, m, fuel, outs', m', rfl, hints, hlast, hnested, houts, hleft⟩

end Relay

end BlockMachine
