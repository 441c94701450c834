import BlockMachine.Proofs.Machine.Deeds
import BlockMachine.Proofs.Machine.Holding

namespace BlockMachine

/-!
# Records keep the types of their fields

Records are made by casts, and written field by field after a cast to the type of the field. A cast takes
a record that is of the right type already without looking at its fields, so it matters that they have the
declared types from the beginning. If all values have that a machine starts with, and all that its host hands
over, then all values have it that are ever held, as long as natives are the default ones.

* `HostOp.Hands` is about the values that a host hands over with an operation;
* `Machine.holding_lasts` says that nothing that happens in a session takes a lasting property of values away,
  and `Machine.typing_lasts` that it leads to no record of other fields;
* `Machine.session_wellTyped` is the law for sessions, with what is read from texts.
-/

open Value

/-! ### What hosts hand over -/

/-- The values that an operation brings into a machine have a property. Natives that it installs are default
    ones. -/
def HostOp.Hands (P : Value → Prop) {β : Type} : HostOp β → Prop
  | .push _ inputs | .call _ inputs | .migrateTo _ inputs => ∀ v ∈ inputs, P v
  | .migrateToFunc f inputs => P f ∧ ∀ v ∈ inputs, P v
  | .setState v | .setInput _ v | .setOutput _ v | .setEnv _ v | .emit _ v => P v
  | .addBlock _ body | .replaceBlock _ _ body => ∀ ctx supply d, lower ctx body supply = .ok d →
    ∀ c ∈ d.constants, P c
  | .registerNative _ f | .patchNative _ f => f.isDefault = true
  | .addModule _ members => ∀ name v, (name, .value v) ∈ members → P v
  | _ => True

variable {P : Value → Prop}

namespace World.All

variable {w : World}

/-- A block is added whose constants have the property. -/
theorem addBlock (h : w.All P) (signature : Signature) {body : List Directive}
    (hbody : ∀ ctx supply d, lower ctx body supply = .ok d → ∀ c ∈ d.constants, P c) :
    (w.addBlock signature body).2.All P := by
  refine ⟨h.derived.addBlock signature body, fun b hb => ?_, h.modules, h.natives⟩
  rcases Array.mem_push.1 hb with hold | rfl
  · exact h.constants b hold
  · exact hbody

/-- A block is replaced by one whose constants have the property. -/
theorem replaceBlock (h : w.All P) (id : BlockId) (signature : Signature) {body : List Directive}
    (hbody : ∀ ctx supply d, lower ctx body supply = .ok d → ∀ c ∈ d.constants, P c) :
    (World.replaceBlock id signature body w).2.All P := by
  have hderived := h.derived.replaceBlock id signature body
  rw [replaceBlock_eq] at hderived ⊢
  cases hb : w.blocks[id]? with
  | none => exact h
  | some old =>
    rw [hb] at hderived
    refine ⟨hderived, fun b hb => ?_, h.modules, h.natives⟩
    rcases Array.mem_or_eq_of_mem_setIfInBounds hb with hold | rfl
    · exact h.constants b hold
    · exact hbody

/-- Neither blocks nor programs nor modules change. -/
theorem of_table (h : w.All P) {w' : World} (hblocks : w'.blocks = w.blocks)
    (hprograms : w'.programs = w.programs) (hmodules : w'.modules = w.modules)
    (hnatives : w'.natives.Only Native.isDefault) : w'.All P :=
  ⟨h.derived.congr hblocks hprograms, hblocks ▸ h.constants, hmodules ▸ h.modules, hnatives⟩

/-- A default native is registered. -/
theorem registerNative (h : w.All P) (name : String) {f : Native} (hf : f.isDefault = true) :
    (World.registerNative name f w).2.All P := by
  rw [registerNative_table]
  exact h.of_table rfl rfl rfl (h.natives.register hf name)

/-- A default native takes the place of another one. -/
theorem patchNative (h : w.All P) (name : String) {f : Native} (hf : f.isDefault = true) :
    (World.patchNative name f w).2.All P := by
  rw [patchNative_table]
  exact h.of_table rfl rfl rfl (h.natives.patch hf name)

/-- A module is added whose values have the property. -/
theorem addModule (h : w.All P) (name : String) {members : List (String × Member)}
    (hmembers : ∀ name v, (name, .value v) ∈ members → P v) : (w.addModule name members).2.All P := by
  refine ⟨h.derived.congr rfl rfl, h.constants, fun module hmodule => ?_, h.natives⟩
  rcases List.mem_append.1 hmodule with hold | hnew
  · exact h.modules module hold
  · obtain rfl := List.mem_singleton.1 hnew
    intro member v hv
    -- a member may replace an earlier one of its name, but all of them come from the list
    rcases foldl_insertMember_mem hv with hnil | ⟨e, he, hvalue⟩
    · exact nomatch hnil
    · have hvalue' : e = (e.1, .value v) := Prod.ext rfl hvalue
      exact hmembers e.1 v (hvalue' ▸ he)

end World.All

namespace Stack.All

variable {s : Stack}

/-- Snapshots of frames hold what the frames held. -/
theorem clearFrames (h : s.All P) : s.clearFrames.All P := by
  refine ⟨nofun, h.state, h.env, h.messages, List.forall_mem_append.2 ⟨h.retained, fun r hr => ?_⟩⟩
  obtain ⟨f, hf, rfl⟩ := List.mem_map.1 hr
  exact (h.frames f (List.mem_filter.1 hf).1).snapshot

/-- A stack that starts over holds snapshots of its frames at most, and what else it held. -/
theorem startOver (h : s.All P) : s.startOver.All P :=
  have hcleared := h.clearFrames
  ⟨hcleared.frames, hcleared.state, hcleared.env, hcleared.messages, hcleared.retained⟩

end Stack.All

namespace Machine

variable {α β : Type} {m : Machine}

/-! ### Operations -/

section

variable (hP : Value.Hereditary P)
include hP

/-- A block is pushed with inputs that have the property. -/
theorem push_all (block : BlockId) {inputs : List Value} (hinputs : ∀ v ∈ inputs, P v) :
    Ensures (All P) (push block inputs) fun _ => True := by
  have henter : Ensures (All P) (enter block inputs {}) fun _ => True :=
    enter_all hP block hinputs (List.forall_mem_nil _)
  refine .getStack_bind fun _ => ?_
  dsimp only
  split
  · exact .bind (modifyStack_all fun s hs => hs.startOver) fun _ _ => henter
  · exact henter

/-- Another root is entered with such inputs and bindings. -/
theorem changeMain_all (block : BlockId) {inputs bindings : List Value} (hinputs : ∀ v ∈ inputs, P v)
    (hbindings : ∀ v ∈ bindings, P v) :
    Ensures (All P) (changeMain block inputs bindings) fun _ => True :=
  .bind (modifyStack_all fun _ hs =>
    ⟨List.forall_mem_nil _, hs.state, hs.env, hs.messages, List.forall_mem_nil _⟩) fun _ _ =>
    enter_all hP block hinputs hbindings

/-- What is read from a text has every hereditary property. -/
theorem loadState_all (text : String) : Ensures (All P) (loadState text) fun _ => True := by
  refine .get_bind fun m hm => ?_
  cases htree : ofJsonText m.world.registry text m.world.supply with
  | error e => exact .pure hm trivial
  | ok r =>
    have hstack : Stack.All P { m.stack with state := r.1 } :=
      ⟨hm.stack.frames, hP.ofJsonText _ _ _ _ _ htree, hm.stack.env, hm.stack.messages, hm.stack.retained⟩
    exact ⟨⟨(hm.withSupply r.2).world, hstack⟩, fun _ _ => trivial⟩

/-- Registers are added or taken away. -/
theorem resize_all (count : Nat) : Ensures (All P) (resize count) fun _ => True := by
  refine active_bind_ensures fun m f rest hm hframes => ?_
  have hf := hm.active hframes
  rw [Meets, setActive_apply hframes]
  exact ⟨hm.setActive hframes ⟨resized_cells hP hf.registers count, hf.incoming, hf.outgoing, hf.bindings⟩,
    fun _ _ => trivial⟩

omit hP in
/-- An input with the property may be set. -/
theorem setInput_all (index : Nat) {v : Value} (hv : P v) :
    Ensures (All P) (setInput index v) fun _ => True := by
  refine active_bind_ensures fun m f rest hm hframes => ?_
  split
  · exact closed_all.setRegisters hm hframes
      (setIfInBounds_cells (hm.active hframes).registers index (.inr hv))
      (Nat.le_of_eq (Array.size_setIfInBounds ..).symm)
  · exact .throw hm _

omit hP in
/-- Taking the messages of a channel leaves what else is held. -/
theorem consume_all (channel : Key) : Ensures (All P) (consume channel) fun _ => True := by
  have htaken : Ensures (All P) (onStack (·.consume channel)) fun _ => True := by
    refine onStack_all fun s hs => ?_
    have hmessages : Entries.All (fun queue => ∀ v ∈ queue, P v) s.messages := hs.messages
    rw [Stack.consume]
    split
    · exact ⟨hs.frames, hs.state, hs.env, hmessages.erase, hs.retained⟩
    · exact hs
  refine .bind htaken fun queue _ => ?_
  split
  · exact .pure trivial
  · exact .raise _

omit hP in
/-- Listing the frames may compile their blocks. -/
theorem frameList_all : Ensures (All P) frameList fun _ => True := by
  have hframe : ∀ depth f, Ensures (All P) (frameInfo depth f) fun _ => True := by
    intro depth f
    refine .bind (tryWorld_all fun w hw => hw.program f.program) fun r _ => ?_
    split <;> exact .pure trivial
  refine .getStack_bind fun s => ?_
  generalize s.frames.reverse.zipIdx = frames
  induction frames with
  | nil => exact .pure trivial
  | cons entry rest ih =>
    rw [List.mapM_cons]
    exact .bind (hframe _ _) fun _ _ => .bind ih fun _ _ => .pure trivial

end

/-- A property of values that nothing in a session takes away: it is hereditary, the mark of a moved value has
    it, and it is not lost when closures are rebound. -/
structure Lasting (P : Value → Prop) : Prop where
  hereditary : Hereditary P
  moved : P .moved
  rebind : ∀ (old new : BlockId) {v : Value} (n : BufferId), P v → P (v.rebind old new n).1

/-- That records have the fields that they should have is lasting. -/
theorem lasting_wellTyped : Lasting WellTyped :=
  ⟨hereditary_wellTyped, wellTyped_moved, fun old new _ n h => rebind_wellTyped old new _ n h⟩

/-- What every value has is lasting. -/
theorem lasting_true : Lasting fun _ => True :=
  ⟨hereditary_true, trivial, fun _ _ _ _ _ => trivial⟩

/-- Registers have the property, moved or not. -/
theorem Lasting.cell (hP : Lasting P) {v : Value} (h : v.Cell P) : P v := by
  cases v with
  | moved => exact hP.moved
  | _ => exact h.of_not_moved rfl

/-- The state tree is rebound. A root that starts over is given the inputs that it has, moved or not. -/
theorem migrate_all (hP : Lasting P) (old new : BlockId) :
    Ensures (All P) (migrate old new) fun _ => True := by
  refine getStack_bind_all fun s hs => .bind (allocate_ensures closed_all
    fun n => hP.rebind old new n hs.state) fun state hstate => ?_
  refine .bind (modifyStack_all fun s hs => ⟨hs.frames, hstate, hs.env, hs.messages, hs.retained⟩)
    fun _ _ => getStack_bind_all fun s hs => ?_
  split
  next root hroot =>
    have hframe := hs.frames root (List.mem_of_getLast? hroot)
    split
    · exact changeMain_all hP.hereditary new
        (fun v hv => hP.cell (hframe.registers v (Array.mem_toList_iff.1 (List.mem_of_mem_take hv))))
        hframe.bindings
    · exact .pure trivial
  next => exact .pure trivial

/-- **Operations bring in what they hand over**, runs aside, and make values of those that are there. -/
theorem HostOp.perform_all (hlasting : Lasting P) (resume : Action Outcome) {o : HostOp β}
    (ho : o.isRun = false) (hands : o.Hands P) : Ensures (All P) (o.perform resume) fun _ => True := by
  have hP := hlasting.hereditary
  have hsame : ∀ {g : Stack → Stack}, (∀ s, (g s).frames = s.frames ∧ (g s).state = s.state ∧
      (g s).env = s.env ∧ (g s).messages = s.messages ∧ (g s).retained = s.retained) →
      Ensures (All P) (modifyStack g) fun _ => True := by
    intro g hg
    refine modifyStack_all fun s hs => ?_
    obtain ⟨hframes, hstate, henv, hmessages, hretained⟩ := hg s
    exact ⟨hframes ▸ hs.frames, hstate ▸ hs.state, henv ▸ hs.env, hmessages ▸ hs.messages,
      hretained ▸ hs.retained⟩
  have hchange : ∀ {γ : Type} {g : World → γ × World}, (∀ w : World, w.All P →
      (g w).2.All P) → Ensures (All P) (changeWorld g) fun _ => True :=
    fun hg m hm => ⟨⟨hg m.world hm.world, hm.stack⟩, fun _ _ => trivial⟩
  -- hosts see all values, but what they see goes back only with a later operation
  cases o with
  | run | call => exact nomatch ho
  | look => exact fun m hm => ⟨hm, fun _ _ => trivial⟩
  | push block inputs => exact push_all hP block hands
  | pop => exact popFrame_all
  | resize count => exact resize_all hP count
  | reset discardState =>
    refine modifyStack_all fun s hs =>
      ⟨List.forall_mem_nil _, ?_, hs.env, hs.messages, List.forall_mem_nil _⟩
    dsimp only [Stack.reset]
    split
    · exact hP.null
    · exact hs.state
  | cancel => exact hsame fun s => ⟨rfl, rfl, rfl, rfl, rfl⟩
  | duplicate => exact hsame fun s => ⟨rfl, rfl, rfl, rfl, rfl⟩
  | setRandom random => exact hsame fun s => ⟨rfl, rfl, rfl, rfl, rfl⟩
  | migrateTo block inputs => exact changeMain_all hP block hands (List.forall_mem_nil _)
  | migrateToFunc func inputs =>
    obtain ⟨hfunc, hinputs⟩ := hands
    cases func with
    | func id block bindings => exact changeMain_all hP block hinputs (hP.parts hfunc)
    | _ => exact .mismatch _ _
  | migrate old new => exact migrate_all hlasting old new
  | setState tree =>
    exact modifyStack_all (g := fun s => { s with state := tree }) fun s hs =>
      ⟨hs.frames, hands, hs.env, hs.messages, hs.retained⟩
  | loadState text => exact loadState_all hP text
  | setInput index v => exact setInput_all index hands
  | setOutput index v => exact setOutput_all hP index hands
  | raise message => exact raiseError_all hP message
  | setEnv k v =>
    exact modifyStack_all (g := (·.setEnv k v)) fun s hs =>
      ⟨hs.frames, hs.state, hs.env.insert hands, hs.messages, hs.retained⟩
  | expect channel =>
    refine modifyStack_all fun s hs => ?_
    have hmessages : Entries.All (fun queue => ∀ v ∈ queue, P v) s.messages := hs.messages
    exact ⟨hs.frames, hs.state, hs.env, hmessages.insert (List.forall_mem_nil _), hs.retained⟩
  | consume channel => exact consume_all channel
  | emit channel message => exact emit_all channel hands
  | takeRetained =>
    exact onStack_all (g := fun s => (s.retained, { s with retained := [] })) fun s hs =>
      ⟨hs.frames, hs.state, hs.env, hs.messages, List.forall_mem_nil _⟩
  | frameList => exact frameList_all
  | print text => exact fun m hm => ⟨⟨hm.world, hm.stack⟩, fun _ _ => trivial⟩
  | number => exact fun m hm => ⟨hm.withSupply _, fun _ _ => trivial⟩
  | cast type v =>
    refine .get_bind fun m hm => ?_
    cases type.cast v m.world.supply with
    | error e => exact .pure hm trivial
    | ok r => exact ⟨hm.withSupply r.2, fun _ _ => trivial⟩
  | addBlock signature body =>
    exact hchange (g := (·.addBlock signature body)) fun w hw => hw.addBlock signature hands
  | replaceBlock block signature body =>
    exact tryWorld_all (g := World.replaceBlock block signature body) fun w hw =>
      hw.replaceBlock block signature hands
  | compile block => exact tryWorld_all (g := World.compile block) fun w hw => hw.compile block
  | program index => exact tryWorld_all (g := World.program index) fun w hw => hw.program index
  | registerNative name f =>
    exact tryWorld_all (g := World.registerNative name f) fun w hw => hw.registerNative name hands
  | patchNative name f =>
    exact tryWorld_all (g := World.patchNative name f) fun w hw => hw.patchNative name hands
  | addRecord name fields =>
    exact hchange (g := (·.addRecord name fields)) fun w hw => hw.of_table rfl rfl rfl hw.natives
  | addMethod type name block =>
    exact hchange (g := fun w => ((), w.addMethod type name block)) fun w hw =>
      hw.of_table rfl rfl rfl hw.natives
  | addModule name members =>
    exact hchange (g := (·.addModule name members)) fun w hw => hw.addModule name hands

/-! ### Sessions -/

/-- All values that a machine holds have a property, as long as those have it that are handed over. -/
def holding (P : Value → Prop) : Regime where
  holds m := m.All P
  fits p := ∀ c ∈ p.constants, P c
  moves _ _ := True
  allows d := d.op.Hands P
  crash := True

/-- A computation that keeps the property goes on with it. -/
theorem holding_goes {a : Action α} {Q : α → Prop} (ha : Ensures (All P) a Q) (hm : m.All P) :
    (holding P).Goes m (a m) :=
  ⟨(ha m hm).1, trivial, fun _ => trivial⟩

/-- What is given up where the machine still has the property has kept it. -/
theorem holding_stays {m' : Machine} (hm : m'.All P) {x : Except Fault α} : (holding P).Goes m (x, m') :=
  ⟨hm, trivial, fun _ => trivial⟩

/-- **Nothing that happens in a session takes a lasting property away.** -/
theorem holding_lasts (hP : Lasting P) : (holding P).Lasts where
  refl _ := trivial
  instruction _ hp hm _ := holding_stays (step_all hP.hereditary hm hp
    (fun _ f rest _ hframes v hv => by
      -- what is collected may be moved
      obtain ⟨i, hi, rfl⟩ := Array.mem_extract_iff_getElem.1 hv
      exact hP.cell ((hm.active hframes).registers _ (Array.getElem_mem _)))
    fun _ _ _ _ v hv => hP.cell (hm.input? hv))
  defaultNative hf hm := holding_stays (invoke_all hP.hereditary hm _ _ hf
    fun _ v hv => hP.cell (hm.input? hv))
  operation ho hands hm := holding_goes (HostOp.perform_all hP _ ho hands) hm
  pushed hands hm := holding_goes (push_all hP.hereditary _ hands) hm
  cleared hm :=
    have hcleared := hm.stack.clearFrames
    ⟨⟨hm.world, ⟨hcleared.frames, hcleared.state, hcleared.env, hcleared.messages, hcleared.retained⟩⟩,
      trivial, fun _ => trivial⟩
  started hm := ⟨⟨hm.world, ⟨hm.stack.frames, hm.stack.state, hm.stack.env, hm.stack.messages,
    hm.stack.retained⟩⟩, trivial, fun _ => trivial⟩
  checked hm := holding_goes (restartIfStale_all hP.hereditary) hm
  loaded hm := holding_goes currentProgram_all hm
  fitting hm h := (currentProgram_all _ hm).2 _ (congrArg Prod.fst h)
  advanced _ hm hframes :=
    have hf := hm.active hframes
    ⟨hm.setActive hframes ⟨hf.registers, hf.incoming, hf.outgoing, hf.bindings⟩, trivial, fun _ => trivial⟩
  paused _ hm _ := holding_stays (placed_all hm _ _)
  failed _ _ _ _ _ hm := holding_stays (placed_all hm _ _)
  ended hm := holding_stays (ended_all hm)

/-- All values that a machine holds are well typed, as long as those are that are handed over. -/
def typing : Regime where
  holds m := m.All WellTyped
  fits p := ∀ c ∈ p.constants, c.WellTyped
  moves _ _ := True
  allows d := d.op.Hands WellTyped
  crash := True

/-- **Nothing that happens in a session leads to a record of other fields.** -/
theorem typing_lasts : typing.Lasts :=
  holding_lasts lasting_wellTyped

/-- **Records keep the types of their fields.** A machine starts with values whose records have the fields that
    they should have, in its stack, in the constants of its blocks and in its modules, and with the default
    natives. Its host does what it likes, but hands over only such values. Then at any moment there are only
    such values in registers, bindings, state trees, saved entries and channels. What is read from a text is
    always such a value. -/
theorem session_wellTyped {start : Machine} (hstart : start.All WellTyped) (host : Embedder) (fuel : Nat)
    (session : Script α)
    (hands : ∀ d ∈ session.deeds false (runBy host fuel) (runByDeeds host fuel) start,
      d.op.Hands WellTyped) :
    (∀ x ∈ session.moments (runBy host fuel) (runByMoments host fuel) start, x.machine.All WellTyped) ∧
    (session.perform (runBy host fuel) start).2.All WellTyped ∧
    ∀ reg text n v n', ofJsonText reg text n = .ok (v, n') → v.WellTyped := by
  have hsession := typing_lasts.session host fuel session start hstart hands
  exact ⟨hsession.holds, hsession.ends, fun reg text => hereditary_wellTyped.ofJsonText reg text⟩

end Machine

/-! ### A block that writes a field, and one that reads a module -/

/-- Whether an operation runs the machine, or pushes a block with inputs of a kind. -/
def HostOp.isPushOf (p : List Value → Bool) {β : Type} : HostOp β → Bool
  | .push _ inputs => p inputs
  | .run => true
  | _ => false

/-- A run hands nothing over, and a push its inputs. -/
theorem HostOp.hands_of_isPushOf {p : List Value → Bool} (hp : ∀ inputs, p inputs = true → ∀ v ∈ inputs, P v)
    {β : Type} {o : HostOp β} (h : o.isPushOf p = true) : o.Hands P := by
  cases o with
  | push block inputs => exact hp inputs h
  | run => trivial
  | _ => exact nomatch h

namespace Plot

open Machine

def point : RecordType :=
  ⟨13, "point", [("x", .basic .float)]⟩

def signature : Signature where
  name := "plot"
  inputs := [⟨"p", .record point, false⟩]
  outputs := [⟨⟨"p", .record point, false⟩, 0⟩]
  locals := 3

/-- Writes an integer to the field of its input, where it becomes a float. -/
def body : List Directive :=
  [.code (.emit (.loadInt 1 0)), .code (.emit (.loadInt 2 7)), .code (.emit (.setIndex 0 1 2)),
    .code (.emit .ret)]

/-- What the body of the block is lowered to. -/
def draft (supply : BufferId) : Draft where
  assembler := (((Assembler.emit {} (.loadInt 1 0)).emit (.loadInt 2 7)).emit (.setIndex 0 1 2)).emit .ret
  supply := supply

/-- The body of the block is lowered to its draft. -/
theorem lower_body (ctx : LoweringContext) (supply : BufferId) :
    lower ctx body supply = .ok (draft supply) := rfl

def machine : Machine :=
  ⟨{ blocks := #[⟨0, 0, signature, body⟩], natives := {} }, .new {}, ""⟩

/-- The input is a list, which becomes a point. -/
def session : Script Unit :=
  .op (.push 0 [.list 0 [.int 1]]) fun _ => .op .run fun _ => .done (.ok ())

/-- Whether a list of inputs is such a list. -/
def isNumber : List Value → Bool
  | [.list _ [.int _]] => true
  | _ => false

/-- A list of numbers is well typed. -/
theorem wellTyped_of_isNumber (inputs : List Value) (h : isNumber inputs = true) :
    ∀ v ∈ inputs, v.WellTyped := by
  unfold isNumber at h
  split at h
  · exact List.forall_mem_singleton.2 ⟨trivial, List.forall_mem_singleton.2 (.of_atom rfl trivial)⟩
  · exact nomatch h

/-- The machine begins with well-typed values. -/
theorem all : machine.All WellTyped := by
  have hnull : WellTyped .null := .of_atom rfl trivial
  refine ⟨⟨.of_empty rfl, fun b hb ctx supply d hd => ?_, nofun, .empty⟩,
    ⟨nofun, hnull, nofun, nofun, nofun⟩⟩
  obtain rfl : b = ⟨0, 0, signature, body⟩ := by simpa [machine] using hb
  obtain rfl := Except.ok.inj ((lower_body ctx supply).symm.trans hd)
  nofun

/-- The point that is given out has a float in its field. -/
theorem session_wellTyped_plot :
    machine.All WellTyped ∧
    (∀ d ∈ session.deeds false (runBy .idle 9) (runByDeeds .idle 9) machine, d.op.Hands WellTyped) ∧
    ((session.perform (runBy .idle 9) machine).2.outputs.map fun v =>
      (v.typeName, v.fields?.map (·.map Value.typeName))) = [("point", some ["float"])] ∧
    (session.perform (runBy .idle 9) machine).2.All WellTyped := by
  have hpushed : ∀ d ∈ session.deeds false (runBy .idle 9) (runByDeeds .idle 9) machine,
      d.op.isPushOf isNumber = true := by
    decide +kernel
  have hands : ∀ d ∈ session.deeds false (runBy .idle 9) (runByDeeds .idle 9) machine,
      d.op.Hands WellTyped :=
    fun d hd => HostOp.hands_of_isPushOf wellTyped_of_isNumber (hpushed d hd)
  exact ⟨all, hands, by decide +kernel, (session_wellTyped all .idle 9 session hands).2.1⟩

end Plot

namespace Loose

open Machine

/-- A record with a closure, whose initial value has none. -/
def handler : RecordType :=
  ⟨13, "handler", [("f", .basic .func)]⟩

def kit : ModuleType :=
  ⟨14, "kit"⟩

def signature : Signature where
  name := "read"
  inputs := [⟨"m", .basic .any, false⟩]
  outputs := [⟨⟨"x", .basic .any, false⟩, 1⟩]

/-- Reads a value from the module that it is given. -/
def body : List Directive :=
  [.send "x" 0 1 1, .code (.emit .ret)]

/-- What the body of the block is lowered to. -/
def draft (supply : BufferId) : Draft where
  assembler := (Assembler.emit {} (.callMethod 0 0 1 1 0)).emit .ret
  names := #["x"]
  callSites := 1
  supply := supply

/-- The body is lowered to its draft. -/
theorem lower_body (ctx : LoweringContext) (supply : BufferId) :
    lower ctx body supply = .ok (draft supply) := by
  have hname : Draft.nameRef ctx "x" { supply := supply } =
      .ok (0, { names := #["x"], supply := supply }) := by
    simp only [Draft.nameRef, bind, StateT.bind, get, getThe, MonadStateOf.get, StateT.get, Except.bind, pure,
      Except.pure, Array.findIdx?_empty]
    rfl
  have hsend : Draft.apply ctx (.send "x" 0 1 1) { supply := supply } =
      Draft.emit (.callMethod 0 0 1 1 0) { names := #["x"], callSites := 1, supply := supply } := by
    show (Draft.nameRef ctx "x" { supply := supply }).bind _ = _
    rw [hname]
    rfl
  show Except.bind (Except.bind (Draft.apply ctx (.send "x" 0 1 1) { supply := supply }) _) _ = _
  rw [hsend]
  rfl

/-- The module holds the initial value of the record. -/
def machine : Machine :=
  ⟨{ blocks := #[⟨0, 0, signature, body⟩]
     natives := {}
     registry := { types := Builtin.all.map .basic ++ [.record handler, .module kit] }
     modules := [⟨kit, [("x", .value ((Ty.record handler).initial 0).1)]⟩]
     supply := 1 }, .new { inlineCache := false }, ""⟩

def session : Script Unit :=
  .op (.push 0 [.module kit]) fun _ => .op .run fun _ => .done (.ok ())

def isModule : List Value → Bool
  | [.module _] => true
  | _ => false

/-- A module is well typed as an input, since its values are not looked at. -/
theorem wellTyped_of_isModule (inputs : List Value) (h : isModule inputs = true) :
    ∀ v ∈ inputs, v.WellTyped := by
  unfold isModule at h
  split at h
  · exact List.forall_mem_singleton.2 (.of_atom rfl trivial)
  · exact nomatch h

/-- Whether a value is a record with null where a closure should be. -/
def isLoose : Value → Bool
  | .record _ ⟨_, _, [(_, .basic .func)]⟩ [.null] => true
  | _ => false

/-- Such a record is not well typed. -/
theorem not_wellTyped_of_isLoose {v : Value} (h : isLoose v = true) : ¬v.WellTyped := by
  unfold isLoose at h
  split at h
  · intro hv
    obtain ⟨hleaves, -⟩ := List.forall₂_cons.1 hv.here
    exact nomatch hleaves 0
  · exact nomatch h

/-- Inputs, constants, environment, bindings and state are well typed, but the value of a module is not, and
    the block puts it into a register. -/
theorem module_values_matter :
    machine.stack.All WellTyped ∧ machine.world.Derived ∧ machine.world.natives.Only Native.isDefault ∧
    (∀ b ∈ machine.world.blocks, ∀ ctx supply d, lower ctx b.body supply = .ok d →
      ∀ c ∈ d.constants, c.WellTyped) ∧
    (∀ d ∈ session.deeds false (runBy .idle 5) (runByDeeds .idle 5) machine, d.op.Hands WellTyped) ∧
    ∃ f ∈ (session.perform (runBy .idle 5) machine).2.stack.frames, ∃ v ∈ f.registers, ¬v.WellTyped := by
  have hnull : WellTyped .null := .of_atom rfl trivial
  refine ⟨⟨nofun, hnull, nofun, nofun, nofun⟩, .of_empty rfl, .empty, fun b hb ctx supply d hd => ?_, ?_, ?_⟩
  · obtain rfl : b = ⟨0, 0, signature, body⟩ := by simpa [machine] using hb
    obtain rfl := Except.ok.inj ((lower_body ctx supply).symm.trans hd)
    nofun
  · have hpushed : ∀ d ∈ session.deeds false (runBy .idle 5) (runByDeeds .idle 5) machine,
        d.op.isPushOf isModule = true := by
      decide +kernel
    exact fun d hd => HostOp.hands_of_isPushOf wellTyped_of_isModule (hpushed d hd)
  · have hloose : ∃ f ∈ (session.perform (runBy .idle 5) machine).2.stack.frames, ∃ v ∈ f.registers,
        isLoose v = true := by
      decide +kernel
    obtain ⟨f, hf, v, hv, h⟩ := hloose
    exact ⟨f, hf, v, hv, not_wellTyped_of_isLoose h⟩

end Loose

end BlockMachine
