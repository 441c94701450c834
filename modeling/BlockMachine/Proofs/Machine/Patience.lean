import BlockMachine.Proofs.Machine.Twins

namespace BlockMachine

/-!
# Natives that do not see notes

A host may look at everything, notes included. A patient one goes on the same whatever was noted, and
leaves the definitions of blocks alone.

* `Script.Patient` holds of such a course of action, `Embedder.Patient` of an embedder;
* `Script.perform_twins` says that patient scripts do not tell two machines apart that differ in notes;
* `Machine.step_twins` extends this to all instructions.
-/

/-- The machine as if nothing was noted. -/
def Machine.blurred (m : Machine) : Machine :=
  m.noted (m.stack.frames.map Frame.blurred) none

namespace HostOp

/-- Whether an operation leaves the definitions of blocks alone, and registers only natives that
    do. -/
def keepsBlocks {β : Type} : HostOp β → Bool
  | .replaceBlock .. => false
  | .registerNative _ f | .patchNative _ f => f.keepsBlocks
  | _ => true

/-- An answer as if nothing was noted. -/
def blur {β : Type} : HostOp β → β → β
  | .look, m => m.blurred
  | .pop, f? => f?.map Frame.blurred
  | _, x => x

end HostOp

/-- Whatever answers it gets, a script leaves the definitions of blocks alone, and it goes on the same
    whatever was noted. -/
def Script.Patient {α : Type} : Script α → Prop
  | .done _ => True
  | .op o next => o.keepsBlocks = true ∧ (∀ r, (next r).Patient) ∧
    ∀ x, next (.ok (o.blur x)) = next (.ok x)

/-- All natives of an embedder are patient. -/
def Embedder.Patient (host : Embedder) : Prop :=
  ∀ code, (host.script code).Patient

/-- An embedder without natives of its own is patient. -/
theorem Embedder.patient_idle (libraries : Libraries) : (Embedder.idle libraries).Patient :=
  fun _ => trivial

/-- The natives that every world starts with leave blocks alone. -/
theorem NativeTable.keepsBlocks_new : ({} : World).natives.Only Native.keepsBlocks :=
  .registerAll .empty (by decide)

/-! ### Functions of the embedder -/

namespace HostFunction

open Script

/-- Operations whose answer is dropped. -/
theorem only_patient {β : Type} {o : HostOp β} (h : o.keepsBlocks = true) : (only o).Patient :=
  ⟨h, fun _ => trivial, fun _ => rfl⟩

/-- A script that looks at the machine is patient if it goes on the same with a blurred one. -/
theorem looking_patient {α : Type} {next : Machine → Script α} (h : ∀ m, (next m).Patient)
    (hblur : ∀ m, next m.blurred = next m) : (looking next).Patient := by
  refine ⟨rfl, fun r => ?_, hblur⟩
  cases r with
  | ok m => exact h m
  | error e => trivial

/-- Inputs are no notes. -/
theorem input?_blurred (m : Machine) (i : Nat) : m.blurred.input? i = m.input? i := by
  show ((m.stack.frames.map Frame.blurred).head?).bind _ = m.stack.frames.head?.bind _
  cases m.stack.frames <;> rfl

/-- The number of inputs is no note. -/
theorem inputCount_blurred (m : Machine) : m.blurred.inputCount = m.inputCount := by
  cases hframes : m.stack.frames with
  | nil => simp only [Machine.inputCount, Machine.blurred, Machine.noted, hframes, List.map_nil]
  | cons f rest =>
    simp only [Machine.inputCount, Machine.blurred, Machine.noted, hframes, List.map_cons]
    rfl

/-- A script that finds out its block first is patient if it is so for every block. -/
theorem withBlock_patient {next : BlockId → Script Unit} (h : ∀ b, (next b).Patient) :
    (script.withBlock next).Patient := by
  refine looking_patient (fun m => ?_) fun m => by rw [input?_blurred]
  split
  · exact h _
  · trivial

/-- **Functions of the embedder are patient**, but for the one that replaces a block. -/
theorem script_patient {f : HostFunction} (h : f.keepsBlocks = true) : f.script.Patient := by
  cases f with
  | hardFail => trivial
  | countInputs =>
    exact looking_patient (fun m => only_patient rfl) fun m => by rw [inputCount_blurred]
  | setState => exact looking_patient (fun m => only_patient rfl) fun m => by rw [input?_blurred]
  | envBump => exact looking_patient (fun m => only_patient rfl) fun m => rfl
  | cross =>
    refine looking_patient (fun m => ⟨rfl, fun r => ?_, fun _ => rfl⟩) fun m => ?_
    · cases r with
      | ok _ => exact only_patient rfl
      | error e => trivial
    · rw [input?_blurred, input?_blurred]
  | enter | call | migrate =>
    rw [script]
    refine withBlock_patient fun b => ?_
    exact only_patient rfl
  | replace => cases h
  | _ => exact only_patient rfl

end HostFunction

namespace Machine

variable {α β γ δ : Type} {lax : Fault → Prop} {ρ : Matching} {m m₁ m₂ : Machine}

/-! ### Hosts -/

/-- Taking all frames away: what remains does not show what was noted in them. -/
theorem clearing_twins {g : Stack → Stack}
    (hclear : ∀ s, (g s).frames = [] ∧ (g s).phase = .ready)
    (hnotes : ∀ s frames outcome, s.frames.map Frame.blurred = frames.map Frame.blurred →
      ∃ outcome', g { s with frames := frames, lastOutcome := outcome } =
        { g s with lastOutcome := outcome' }) :
    Mirrors lax Twinned ρ (modifyStack g) (modifyStack g) Anyhow := by
  rintro m₁ m₂ ⟨hanchored, hblurred, -⟩
  rename_i frames outcome
  obtain ⟨hframes, hphase⟩ := hclear m₁.stack
  obtain ⟨outcome', houtcome⟩ := hnotes m₁.stack frames outcome hblurred
  have hafter : modifyStack g (m₁.noted frames outcome) =
      (.ok (), { m₁ with stack := { g m₁.stack with lastOutcome := outcome' } }) := by
    rw [← houtcome]
    rfl
  have hsame : ({ m₁ with stack := { g m₁.stack with lastOutcome := outcome' } } : Machine) =
      noted { m₁ with stack := g m₁.stack } [] outcome' := by
    rw [noted, ← hframes]
  rw [hafter, hsame]
  refine .ok le_rfl (.mk (m := { m₁ with stack := g m₁.stack }) (hanchored.stack ?_) ?_ ?_) trivial
  · rw [hframes]
    exact fun _ h => nomatch h
  · rw [hframes]
  · rw [hphase]
    exact nofun

/-- A stack that starts over shows nothing of what was noted. -/
theorem startOver_twins :
    Mirrors lax Twinned ρ (modifyStack Stack.startOver) (modifyStack Stack.startOver) Anyhow := by
  refine clearing_twins (fun _ => ⟨rfl, rfl⟩) fun s frames outcome hblurred => ⟨none, ?_⟩
  simp only [Stack.startOver, Stack.clearFrames, Frame.snapshots_blurred hblurred]

/-- The phase is no note. -/
theorem Twinned.phase (h : Twinned ρ m₁ m₂) : m₂.stack.phase = m₁.stack.phase := by
  obtain ⟨-, -, -⟩ := h
  rfl

/-- Values are like themselves, whatever buffers stand for each other. -/
theorem items_refl (h : Twinned ρ m₁ m₂) (vs : List Value) : Items.Like ρ vs vs := by
  obtain ⟨-, -, -⟩ := h
  exact List.forall₂_same.2 fun _ _ => Value.like_same.2 rfl

/-- Entering a block with the same arguments. -/
theorem enter_same_twins (block : BlockId) (args : List Value) (link : Link) :
    Mirrors lax Twinned ρ (enter block args link) (enter block args link) Anyhow :=
  fun _ _ hm => enter_twins block (items_refl hm args) ⟨rfl, rfl, items_refl hm _⟩ _ _ hm

/-- A host may push the same block with the same inputs. -/
theorem push_twins (block : BlockId) (inputs : List Value) :
    Mirrors lax Twinned ρ (push block inputs) (push block inputs) Anyhow := by
  refine .getStack_bind fun m₁ m₂ hm => ?_
  rw [hm.phase]
  split
  · exact startOver_twins.bind (fun _ _ _ _ _ => enter_same_twins block inputs {}) m₁ m₂ hm
  · exact enter_same_twins block inputs {} m₁ m₂ hm

/-- A host may have another root entered, with the same inputs. -/
theorem changeMain_twins (block : BlockId) (inputs bindings : List Value) :
    Mirrors lax Twinned ρ (changeMain block inputs bindings) (changeMain block inputs bindings)
      Anyhow := by
  refine .bind (clearing_twins (fun _ => ⟨rfl, rfl⟩) fun _ _ _ _ => ⟨none, rfl⟩)
    fun _ _ _ _ _ => enter_same_twins block inputs _

/-- Outputs are no notes. -/
theorem Twinned.outputs (h : Twinned ρ m₁ m₂) : m₂.outputs = m₁.outputs := by
  have hworld := h.world
  rcases h.frames_cases with ⟨h₁, h₂⟩ | ⟨f₁, rest₁, f₂, rest₂, h₁, h₂, hf, -⟩
  · simp only [Machine.outputs, h₁, h₂]
  · obtain ⟨node, rfl⟩ := Frame.exists_noting hf
    simp only [Machine.outputs, h₁, h₂, hworld]
    rfl

/-- A stack is run in step, as far as runs go. -/
theorem callWith_twins {resume₁ resume₂ : Action Outcome}
    (hresume : ∀ ρ, Mirrors lax Twinned ρ resume₁ resume₂ Equally) (block : BlockId)
    (inputs : List Value) :
    Mirrors lax Twinned ρ (callWith resume₁ block inputs) (callWith resume₂ block inputs) Equally := by
  refine .bind (push_twins block inputs) fun ρ₁ _ _ _ _ => .bind (hresume ρ₁) fun ρ₂ _ x y hxy => ?_
  obtain rfl := hxy
  cases x with
  | finished =>
    refine .get_bind fun n₁ n₂ hn => ?_
    rw [hn.outputs]
    have hclear : Mirrors lax Twinned ρ₂ (modifyStack fun s => { s.clearFrames with phase := .ready })
        (modifyStack fun s => { s.clearFrames with phase := .ready }) Anyhow := by
      refine clearing_twins (fun _ => ⟨rfl, rfl⟩) fun s frames outcome hblurred => ⟨outcome, ?_⟩
      simp only [Stack.clearFrames, Frame.snapshots_blurred hblurred]
    exact Mirrors.bind hclear (fun _ _ _ _ _ => .pure rfl) n₁ n₂ hn
  | paused => exact .violate _
  | cancelled => exact .violate _

/-- A host may take all frames away. -/
theorem reset_twins (discardState : Bool) :
    Mirrors lax Twinned ρ (reset discardState) (reset discardState) Anyhow :=
  clearing_twins (fun _ => ⟨rfl, rfl⟩) fun _ _ _ _ => ⟨none, rfl⟩

/-- A host may set the state. -/
theorem setState_twins (tree : Value) :
    Mirrors lax Twinned ρ (setState tree) (setState tree) Anyhow :=
  modifyStack_twins (fun _ _ _ => rfl) fun _ hphase herror => ⟨hphase, herror⟩

/-- A migration rebinds the same values in both machines. -/
theorem migrate_twins (old new : BlockId) :
    Mirrors lax Twinned ρ (migrate old new) (migrate old new) Anyhow := by
  refine .getStack_bind fun m₁ m₂ hm => ?_
  have hstate : m₂.stack.state = m₁.stack.state := by
    obtain ⟨-, -, -⟩ := hm
    rfl
  rw [hstate]
  refine hm.allocate_bind fun state supply hm => ?_
  refine Mirrors.bind (setState_twins state) (fun ρ₁ _ _ _ _ => .getStack_bind fun n₁ n₂ hn => ?_)
    _ _ hm
  -- the roots differ in notes only
  have hlast : n₂.stack.frames.getLast?.map Frame.blurred =
      n₁.stack.frames.getLast?.map Frame.blurred := by
    obtain ⟨-, hblurred, -⟩ := id hn
    rw [← List.getLast?_map, ← List.getLast?_map, hblurred]
    rfl
  cases h₁ : n₁.stack.frames.getLast? with
  | none =>
    rw [h₁, Option.map_none, Option.map_eq_none_iff] at hlast
    rw [hlast]
    exact .ok le_rfl hn trivial
  | some root =>
    rw [h₁, Option.map_some, Option.map_eq_some_iff] at hlast
    obtain ⟨root', h₂, hroot⟩ := hlast
    obtain ⟨node, rfl⟩ := Frame.exists_noting hroot.symm
    rw [h₂]
    show Mirrored _ _ _ _ _ ((if root.block = old then (_ : Action Unit) else _) n₁)
      ((if root.block = old then (_ : Action Unit) else _) n₂)
    split
    · exact changeMain_twins new _ root.bindings n₁ n₂ hn
    · exact .ok le_rfl hn trivial

/-- Loading state reads a tree from a text, with new buffers, or leaves the machine as it is. -/
theorem loadState_apply (text : String) (m : Machine) : loadState text m =
    match ofJsonText m.world.registry text m.world.supply with
    | .ok (tree, supply) => (.ok (.ok ()), { m.withSupply supply with
        stack := { m.stack with state := tree } })
    | .error e => (.ok (.error e), m) := by
  simp only [loadState, Failing.bind_apply, Failing.get_apply]
  rcases ofJsonText m.world.registry text m.world.supply with _ | ⟨_, _⟩ <;> rfl

/-- The same text is read in both machines. -/
theorem loadState_twins (text : String) :
    Mirrors lax Twinned ρ (loadState text) (loadState text) Equally := by
  rintro m₁ m₂ ⟨hanchored, hblurred, hended⟩
  rename_i frames outcome
  rw [loadState_apply, loadState_apply, show (m₁.noted frames outcome).world = m₁.world from rfl]
  rcases ofJsonText m₁.world.registry text m₁.world.supply with _ | ⟨tree, supply⟩
  · exact .ok le_rfl (.mk hanchored hblurred hended) rfl
  · exact .ok le_rfl (.mk (m := { m₁ with
      world := { m₁.world with supply := supply }
      stack := { m₁.stack with state := tree } })
      ((hanchored.withSupply supply).stack hanchored.held) hblurred hended) rfl

/-- The messages of a channel are the same. -/
theorem consume_twins (channel : Key) :
    Mirrors lax Twinned ρ (consume channel) (consume channel) Equally := by
  have htake : Mirrors lax Twinned ρ (onStack (·.consume channel)) (onStack (·.consume channel))
      Equally := by
    refine onStack_twins (fun s frames outcome => ?_) fun s => ?_
    · simp only [Stack.consume]
      cases Entries.get? channel s.messages <;> rfl
    · rw [Stack.consume]
      cases Entries.get? channel s.messages <;> exact fun hphase herror => ⟨hphase, herror⟩
  refine .bind htake fun ρ' _ x y hxy => ?_
  obtain rfl := hxy
  cases x with
  | none => exact .raise _
  | some queue => exact .pure rfl

/-- What does not see notes for one member of a list does not for all of them. -/
theorem mapM_twins {f : α → Action β} (hf : ∀ ρ x, Mirrors lax Twinned ρ (f x) (f x) Equally)
    (xs : List α) : Mirrors lax Twinned ρ (xs.mapM f) (xs.mapM f) Equally := by
  induction xs generalizing ρ with
  | nil => exact .pure rfl
  | cons x xs ih =>
    rw [List.mapM_cons]
    refine .bind (hf ρ x) fun ρ₁ _ y y' hy => .bind ih fun ρ₂ _ ys ys' hys => ?_
    obtain rfl := hy
    obtain rfl := hys
    exact .pure rfl

/-- Listing the frames shows the same, since frames stand at the same places. -/
theorem frameList_twins : Mirrors lax Twinned ρ frameList frameList Equally := by
  -- the nodes in the list are looked up, not those that were noted
  have hinfo : ∀ frames : List Frame,
      (frames.reverse.zipIdx.mapM fun x => frameInfo x.2 x.1) =
        (frames.map Frame.blurred).reverse.zipIdx.mapM fun x => frameInfo x.2 x.1 := by
    intro frames
    rw [← List.map_reverse, List.zipIdx_map, List.mapM_map]
    rfl
  refine .getStack_bind fun m₁ m₂ hm => ?_
  rw [hinfo m₁.stack.frames, hinfo m₂.stack.frames]
  have hblurred : m₂.stack.frames.map Frame.blurred = m₁.stack.frames.map Frame.blurred := by
    obtain ⟨-, hblurred, -⟩ := hm
    exact hblurred.symm
  rw [hblurred]
  refine mapM_twins (fun ρ x => ?_) _ m₁ m₂ hm
  refine .bind (tryWorld_twins (filing_program x.1.program)) fun ρ' _ r r' hr => ?_
  obtain rfl := hr
  cases r with
  | ok p => exact .pure rfl
  | error e => exact .pure rfl

/-- Registers are added and taken away in step. -/
theorem resize_twins (count : Nat) : Mirrors lax Twinned ρ (resize count) (resize count) Anyhow :=
  modifyActive_mirrors twinned_mirroring (fun _ => rfl) fun _ _ _ hf =>
    ⟨hf.registers.resized count, hf.offset, id⟩

/-- The same input is set in both machines. -/
theorem setInput_twins (index : Nat) (v : Value) :
    Mirrors lax Twinned ρ (setInput index v) (setInput index v) Anyhow := by
  intro m₁ m₂ hm
  obtain ⟨-, -, -⟩ := id hm
  exact setInput_mirrors twinned_mirroring index (Value.like_same.2 rfl) _ _ hm

/-- A cast may take new buffers, and is an answer in any case. -/
theorem tryCast_apply (ty : Ty) (v : Value) (m : Machine) : tryCast ty v m =
    match ty.cast v m.world.supply with
    | .ok (w, supply) => (.ok (.ok w), m.withSupply supply)
    | .error e => (.ok (.error e), m) := by
  simp only [tryCast, Failing.bind_apply, Failing.get_apply]
  rcases ty.cast v m.world.supply with _ | ⟨_, _⟩ <;> rfl

/-- The same value is cast in both machines. -/
theorem tryCast_twins (ty : Ty) (v : Value) :
    Mirrors lax Twinned ρ (tryCast ty v) (tryCast ty v) Equally := by
  rintro m₁ m₂ ⟨hanchored, hblurred, hended⟩
  rename_i frames outcome
  rw [tryCast_apply, tryCast_apply, show (m₁.noted frames outcome).world = m₁.world from rfl]
  rcases ty.cast v m₁.world.supply with _ | ⟨w, supply⟩
  · exact .ok le_rfl (.mk hanchored hblurred hended) rfl
  · exact .ok le_rfl (.mk (m := m₁.withSupply supply) (hanchored.withSupply supply) hblurred hended)
      rfl

/-- The same text is printed in both machines. -/
theorem print_twins (text : String) :
    Mirrors lax Twinned ρ (modify fun m => { m with printed := m.printed ++ text })
      (modify fun m => { m with printed := m.printed ++ text }) Anyhow := by
  intro m₁ m₂ hm
  have hprinted := (twinned_serving : Serving lax Twinned).prints hm text
  show Mirrored _ _ _ _ _ (.ok (), { m₁ with printed := m₁.printed ++ text })
    (.ok (), { m₂ with printed := m₂.printed ++ text })
  exact .ok le_rfl hprinted trivial

/-- A new block leaves what is filed as it is. -/
theorem filing_addBlock (signature : Signature) (body : List Directive) :
    Filing fun w => (w.addBlock signature body).2 :=
  ⟨fun _ h => h.addBlock signature body, fun _ h => h⟩

/-- Declarations leave blocks, programs and natives alone. -/
theorem filing_declaration {g : World → World}
    (hg : ∀ w, (g w).blocks = w.blocks ∧ (g w).programs = w.programs ∧ (g w).natives = w.natives) :
    Filing g :=
  ⟨fun w h => h.kept (hg w).1 (hg w).2.1, fun w h => (hg w).2.2 ▸ h⟩

/-- A native that is registered leaves what is filed as it is. -/
theorem filing_registerNative (name : String) {f : Native} (hf : f.keepsBlocks = true) :
    Filing fun w => (World.registerNative name f w).2 where
  kept w h := by
    rw [World.registerNative_table]
    exact h.kept rfl rfl
  natives w h := by
    rw [World.registerNative_table]
    exact h.register hf name

/-- A native that takes the place of another leaves what is filed as it is. -/
theorem filing_patchNative (name : String) {f : Native} (hf : f.keepsBlocks = true) :
    Filing fun w => (World.patchNative name f w).2 where
  kept w h := by
    rw [World.patchNative_table]
    exact h.kept rfl rfl
  natives w h := by
    rw [World.patchNative_table]
    exact h.patch hf name

end Machine

open Machine

/-- **Operations do not see notes** other than in what they answer, as far as runs do not. -/
theorem HostOp.perform_twins {lax : Fault → Prop} {ρ : Matching} {resume₁ resume₂ : Action Outcome}
    (hresume : ∀ ρ, Mirrors lax Twinned ρ resume₁ resume₂ Equally) {β : Type} {o : HostOp β}
    (ho : o.keepsBlocks = true) :
    Mirrors lax Twinned ρ (o.perform resume₁) (o.perform resume₂) fun _ x y => o.blur x = o.blur y := by
  -- most operations answer the same on both sides, or answer nothing
  have hequal : ∀ {a : Action β} {b : Action β}, Mirrors lax Twinned ρ a b Equally →
      Mirrors lax Twinned ρ a b fun _ x y => o.blur x = o.blur y :=
    fun h => h.imp fun _ _ _ _ hxy => congrArg o.blur hxy
  have hunit : ∀ {a b : Action Unit}, Mirrors lax Twinned ρ a b Anyhow →
      Mirrors lax Twinned ρ a b Equally := fun h => h.imp fun _ _ _ _ _ => rfl
  -- a change of the stack that leaves frames and outcome alone and reads neither
  have haside : ∀ g : Stack → Stack,
      (∀ s frames outcome, g { s with frames := frames, lastOutcome := outcome } =
        { g s with frames := frames, lastOutcome := outcome }) →
      (∀ s, (g s).phase = s.phase ∧ (g s).error = s.error) →
      Mirrors lax Twinned ρ (modifyStack g) (modifyStack g) Equally :=
    fun _ hnotes hsame => hunit (modifyStack_twins hnotes fun s hphase herror =>
      ⟨(hsame s).1 ▸ hphase, (hsame s).2 ▸ herror⟩)
  cases o with
  -- only a look shows the notes; it is compared without them
  | look =>
    refine .get_bind fun m₁ m₂ hm => ?_
    have hlook : m₁.uncached.blurred = m₂.uncached.blurred := by
      obtain ⟨-, hblurred, -⟩ := hm
      simp only [uncached, Stack.uncached, blurred, noted, hblurred]
    exact .ok le_rfl hm hlook
  | push block inputs => exact hequal (hunit (push_twins block inputs))
  | run => exact hequal (hresume ρ)
  | call block inputs => exact hequal (callWith_twins hresume block inputs)
  | pop => exact popFrame_twins
  | resize count => exact hequal (hunit (resize_twins count))
  | reset discardState => exact hequal (hunit (reset_twins discardState))
  | cancel =>
    exact hequal (haside (fun s => { s with cancelled := true }) (fun _ _ _ => rfl) fun _ => ⟨rfl, rfl⟩)
  | duplicate =>
    exact hequal (haside Stack.duplicate (fun _ _ _ => rfl) fun _ => ⟨rfl, rfl⟩)
  | migrateTo block inputs => exact hequal (hunit (changeMain_twins block inputs []))
  | migrateToFunc func inputs =>
    refine hequal ?_
    show Mirrors lax Twinned ρ (Machine.migrateToFunc func inputs) (Machine.migrateToFunc func inputs) _
    rw [Machine.migrateToFunc]
    split
    · exact hunit (changeMain_twins _ inputs _)
    · exact .raise _
  | migrate old new => exact hequal (hunit (migrate_twins old new))
  | setState tree => exact hequal (hunit (setState_twins tree))
  | loadState text => exact hequal (loadState_twins text)
  | setInput index v => exact hequal (hunit (setInput_twins index v))
  | setOutput index v => exact hequal (hunit (setOutput_twins index v))
  | raise message => exact hequal (raiseError_twins message)
  | setEnv k v =>
    exact hequal (haside (·.setEnv k v) (fun _ _ _ => rfl) fun _ => ⟨rfl, rfl⟩)
  | expect channel =>
    exact hequal (haside (·.expect channel) (fun _ _ _ => rfl) fun _ => ⟨rfl, rfl⟩)
  | consume channel => exact hequal (consume_twins channel)
  | emit channel message => exact hequal (emit_twins channel message)
  | takeRetained =>
    exact hequal (onStack_twins (g := fun s => (s.retained, { s with retained := [] }))
      (fun _ _ _ => rfl) fun _ hphase herror => ⟨hphase, herror⟩)
  | frameList => exact hequal frameList_twins
  | setRandom random =>
    exact hequal (haside (fun s => { s with random := random }) (fun _ _ _ => rfl) fun _ => ⟨rfl, rfl⟩)
  | print text => exact hequal (hunit (print_twins text))
  | number => exact hequal (allocate_twins (g := fresh))
  | cast type v => exact hequal (tryCast_twins type v)
  | addBlock signature body => 
    exact hequal (changeWorld_twins (g := (·.addBlock signature body))
      (filing_addBlock signature body))
  -- a replaced block is noticed when a run is resumed, and not by one that went past its pause
  | replaceBlock block signature body => cases ho
  | compile block =>
    exact hequal (tryWorld_twins (g := World.compile block) (filing_compile block))
  | program index =>
    exact hequal (tryWorld_twins (g := World.program index) (filing_program index))
  | registerNative name f =>
    exact hequal (tryWorld_twins (g := World.registerNative name f) (filing_registerNative name ho))
  | patchNative name f =>
    exact hequal (tryWorld_twins (g := World.patchNative name f) (filing_patchNative name ho))
  | addRecord name fields =>
    exact hequal (changeWorld_twins (g := (·.addRecord name fields))
      (filing_declaration fun _ => ⟨rfl, rfl, rfl⟩))
  | addMethod type name block =>
    exact hequal (changeWorld_twins (g := (fun w => ((), w.addMethod type name block)))
      (filing_declaration fun _ => ⟨rfl, rfl, rfl⟩))
  | addModule name members =>
    exact hequal (changeWorld_twins (g := (·.addModule name members))
      (filing_declaration fun _ => ⟨rfl, rfl, rfl⟩))

/-- **Patient scripts do not see notes**, as far as runs do not. -/
theorem Script.perform_twins {lax : Fault → Prop} (hlax : ∀ e, ¬lax (.raised e)) {ρ : Matching}
    {resume₁ resume₂ : Action Outcome}
    (hresume : ∀ ρ, Mirrors lax Twinned ρ resume₁ resume₂ Equally) {α : Type} {script : Script α}
    (hscript : script.Patient) :
    Mirrors lax Twinned ρ (script.perform resume₁) (script.perform resume₂) Equally := by
  induction script generalizing ρ with
  | done r =>
    cases r with
    | ok a => exact .pure rfl
    | error e => exact .raise e
  | op o next ih =>
    obtain ⟨ho, hnext, hblur⟩ := hscript
    intro m₁ m₂ hm
    rw [perform, perform]
    refine (o.perform_twins hresume ho m₁ m₂ hm).attempt_bind (fun ρ' n₁ n₂ x y _ hn hxy => ?_)
      (fun ρ' n₁ n₂ e _ hn => ?_) fun n₁ e r he => ?_
    · -- both answers look the same to the script
      have hsame : next (.ok x) = next (.ok y) := by rw [← hblur x, hxy, hblur y]
      dsimp only
      rw [hsame]
      exact ih (.ok y) (hnext _) n₁ n₂ hn
    · cases e with
      | raised e => exact ih (.error e) (hnext _) n₁ n₂ hn
      | crashed => exact .error le_rfl hn
      | outOfFuel => exact .error le_rfl hn
    · cases e with
      | raised e => exact absurd he (hlax e)
      | crashed => exact .pass he
      | outOfFuel => exact .pass he

namespace Machine

variable {lax : Fault → Prop} {ρ : Matching} {m m₁ m₂ : Machine}

/-! ### Instructions -/

section

variable (hlax : ∀ e, ¬lax (.raised e)) {host : Embedder} (hhost : host.Patient)
  {resume₁ resume₂ : Action Outcome}
  (hresume : ∀ ρ, Mirrors lax Twinned ρ resume₁ resume₂ Equally)
include hlax hhost hresume

/-- A native that leaves blocks alone does not see notes. -/
theorem invoke_twins {f : Native} (hf : f.keepsBlocks = true) :
    Mirrors lax Twinned ρ (invoke host resume₁ f) (invoke host resume₂ f) Anyhow := by
  cases f with
  | host f =>
    rw [invoke, invoke, invokeHost_eq, invokeHost_eq]
    exact (Script.perform_twins hlax hresume (HostFunction.script_patient hf)).imp
      fun _ _ _ _ _ => trivial
  | installed code =>
    exact (Script.perform_twins hlax hresume (hhost code)).imp fun _ _ _ _ _ => trivial
  | _ => exact invoke_default_mirrors twinned_serving host rfl

/-- The instruction that calls a native does not see notes. -/
theorem callNative_twins (index : UInt16) :
    Mirrors lax Twinned ρ (callNative host resume₁ index) (callNative host resume₂ index) Anyhow := by
  refine .get_bind fun m₁ m₂ hm => ?_
  rw [hm.world]
  cases hentry : m₁.world.natives.get? index with
  | none => exact .error le_rfl hm
  | some entry =>
    have hf := hm.anchored.natives entry (Array.mem_of_getElem? hentry)
    refine Mirrors.bind (invoke_twins hlax hhost hresume hf) (fun ρ' _ _ _ _ => ?_) m₁ m₂ hm
    refine .getStack_bind fun n₁ n₂ hn => ?_
    have herror : n₂.stack.error = n₁.stack.error := by
      obtain ⟨-, -, -⟩ := hn
      rfl
    rw [herror]
    cases n₁.stack.error with
    | none => exact .ok le_rfl hn trivial
    | some e => exact .error le_rfl hn

/-- **Instructions do not see notes.** -/
theorem step_twins (program : Program) (next : Nat) (i : Instruction) :
    Mirrors lax Twinned ρ (step host resume₁ program next i) (step host resume₂ program next i)
      Equally := by
  have hperform : ∀ i : Instruction, Mirrors lax Twinned ρ
      (do perform host resume₁ program next i; return if i.leavesFrame then .reload else .next)
      (do perform host resume₂ program next i; return if i.leavesFrame then .reload else .next)
      (Equally : Matching → Flow → Flow → Prop) := by
    intro i
    refine .bind (V := Anyhow) ?_ fun _ _ _ _ _ => .pure rfl
    by_cases hi : ∃ index, i = .native index
    · obtain ⟨index, rfl⟩ := hi
      exact callNative_twins hlax hhost hresume index
    · exact perform_twins next fun index h => hi ⟨index, h⟩
  cases i with
  | pause => exact .pure rfl
  | ret =>
    refine .bind (leave_twins program) fun ρ' _ x y hxy => ?_
    obtain rfl := hxy
    exact .pure rfl
  | _ => exact hperform _

end

/-! ### Going on with the active frame -/

/-- The active frame runs a program, which is filed for its block. -/
def Executing (p : Program) (m : Machine) : Prop :=
  ∃ f rest, m.stack.frames = f :: rest ∧ m.world.slotProgram? f.program = some p ∧
    p.version = f.version

/-- Machines that differ in notes only and run a program. -/
def Following (p : Program) : Matching → Machine → Machine → Prop :=
  fun ρ m₁ m₂ => Twinned ρ m₁ m₂ ∧ m₁.Executing p

/-- The active frames of machines that follow each other may compute. -/
theorem mirroring_following (p : Program) : Mirroring (Following p) where
  fresh := by
    rintro ρ m₁ m₂ ⟨hm, hp⟩
    obtain ⟨ρ', hle, hlink, hnext⟩ := twinned_mirroring.fresh hm
    exact ⟨ρ', hle, hlink, hnext, hp⟩
  frames := fun h => twinned_mirroring.frames h.1
  update := by
    rintro ρ m₁ m₂ f₁ f₂ f₁' f₂' rest₁ rest₂ ⟨hm, f, rest, hframes, hslot, hversion⟩ h₁ h₂ hrole₁
      hrole₂ hregisters hoffset hretain
    obtain ⟨rfl, rfl⟩ := List.cons.inj (hframes.symm.trans h₁)
    have hprogram : f₁'.program = f.program :=
      show f₁'.role.program = f.role.program from congrArg Frame.program hrole₁
    have hversion' : f₁'.version = f.version :=
      show f₁'.role.version = f.role.version from congrArg Frame.version hrole₁
    refine ⟨twinned_mirroring.update hm h₁ h₂ hrole₁ hrole₂ hregisters hoffset hretain, f₁', rest,
      rfl, ?_, ?_⟩
    · rw [hprogram]
      exact hslot
    · rw [hversion']
      exact hversion

/-- Saving state does not end the frame. -/
theorem saveState_executing {p : Program} (h : m.Executing p) (name : String) (v : Value) :
    (saveState name v m).2.Executing p := by
  obtain ⟨f, rest, hframes, hslot, hversion⟩ := h
  have htail : m.stack.frames.tail = rest := by rw [hframes, List.tail_cons]
  have hrun : saveState name v m = (.ok (), m.withFrames ((if f.isStateful then
      { f with outgoing := StateTree.save f.outgoing name v } else f) :: rest)) := by
    simp only [saveState, modifyActive, active, getStack, Failing.bind_apply, Failing.get_apply,
      Failing.pure_apply, hframes]
    rw [← htail]
    rfl
  rw [hrun]
  refine ⟨_, rest, rfl, ?_⟩
  split
  · exact ⟨hslot, hversion⟩
  · exact ⟨hslot, hversion⟩

/-- Saving a value goes on with the same program. -/
theorem saveState_following {p : Program} (name : String) (v : Value) :
    Mirrors lax (Following p) ρ (saveState name v) (saveState name v) Anyhow := by
  rintro m₁ m₂ ⟨hm, hp⟩
  have htwins : Mirrored lax Twinned Twinned ρ Anyhow _ _ := saveState_twins name v m₁ m₂ hm
  have hkept := saveState_executing hp name v
  generalize saveState name v m₁ = r₁ at htwins hkept
  generalize saveState name v m₂ = r₂ at htwins
  cases htwins with
  | ok hle hn _ => exact .ok hle ⟨hn, hkept⟩ trivial
  | error hle hn => exact .error hle ⟨hn, hkept⟩
  | pass h => exact .pass h

/-- An instruction that does not leave its frame goes on with the same program. -/
theorem perform_following {host₁ host₂ : Embedder} {resume₁ resume₂ : Action Outcome}
    {program p : Program} (next : Nat) {i : Instruction} (hi : i.leavesFrame = false) :
    Mirrors lax (Following p) ρ (perform host₁ resume₁ program next i)
      (perform host₂ resume₂ program next i) Anyhow := by
  have hsame : ∀ {ρ m₁ m₂}, Following p ρ m₁ m₂ → ρ = .same := by
    rintro ρ m₁ m₂ ⟨⟨-, -, -⟩, -⟩
    rfl
  by_cases hinside : i.staysInside = true
  · intro m₁ m₂ hm
    obtain rfl := hsame hm
    exact perform_inside_mirrors (mirroring_following p) (.refl program) next hinside m₁ m₂ hm
  · cases i with
    | saveState name src =>
      refine .bind (entry_mirrors _ _ name) fun ρ₁ _ s s' hs => ?_
      rw [← hs.1]
      refine .bind (register_mirrors (mirroring_following p).toReading src)
        fun ρ₂ _ v w hvw n₁ n₂ hn => ?_
      obtain rfl := hsame hn
      obtain rfl := Value.like_same.1 hvw
      exact saveState_following s v n₁ n₂ hn
    | _ => exact absurd (by simp [Instruction.staysInside, hi]) hinside

/-- When a step goes on with the same program, the active frame still runs it. -/
theorem Stepped.executing {host : Embedder} {resume : Action Outcome} {program p : Program}
    {next : Nat} {i : Instruction} {m' : Machine} (hanchored : m.Anchored) (hp : m.Executing p)
    (h : Stepped host resume program next m m' i .next) : m'.Executing p := by
  generalize hflow : Flow.next = flow at h
  cases h with
  | pause => exact nomatch hflow
  | finish => exact nomatch hflow
  | back => exact nomatch hflow
  | perform hpause hret hperform =>
    cases hi : i.leavesFrame with
    | true =>
      rw [hi] at hflow
      exact nomatch hflow
    | false =>
      have hfollowing : Mirrored (fun _ => False) (Following p) (Following p) .same Anyhow
          (Machine.perform host resume program next i m)
          (Machine.perform host resume program next i m) :=
        perform_following next hi m m ⟨hanchored.twinned, hp⟩
      rw [hperform] at hfollowing
      cases hfollowing with
      | ok _ hn _ => exact hn.2

/-! ### Fetching programs -/

/-- A frame that runs what is filed for its block is up to date. -/
theorem isCurrent_of_held {f : Frame} (h : f.Held m.world) : isCurrent f m = (.ok true, m) := by
  obtain ⟨p, hp, hversion⟩ := h
  have hfetch : tryWorld (World.program f.program) m = (.ok (.ok p), m) := by
    show (Except.ok (World.program f.program m.world).1,
      ({ m with world := (World.program f.program m.world).2 } : Machine)) = _
    rw [World.program_of_slot hp]
  rw [isCurrent, Failing.bind_apply, hfetch]
  dsimp only
  rw [hversion]
  simp [Failing.pure_apply]

/-- Frames that all run what is filed for their blocks are up to date. -/
theorem allCurrent_of_held {frames : List Frame} (h : ∀ f ∈ frames, f.Held m.world) :
    allCurrent frames m = (.ok true, m) := by
  induction frames with
  | nil => rfl
  | cons f rest ih =>
    obtain ⟨hf, hrest⟩ := List.forall_mem_cons.1 h
    rw [allCurrent, Failing.bind_apply, isCurrent_of_held hf]
    exact ih hrest

/-- No run starts over where all frames are up to date. -/
theorem restartIfStale_of_held (h : ∀ f ∈ m.stack.frames, f.Held m.world) :
    restartIfStale m = (.ok (), m) := by
  have hcurrent : allCurrent m.stack.frames.reverse m = (.ok true, m) :=
    allCurrent_of_held fun f hf => h f (List.mem_reverse.1 hf)
  rw [restartIfStale, getStack, Failing.bind_apply]
  simp only [Failing.bind_apply, Failing.get_apply, Failing.pure_apply, hcurrent]
  rfl

/-- **Nothing is out of date** in an anchored machine, so no run starts over. -/
theorem Anchored.restartIfStale (h : m.Anchored) : restartIfStale m = (.ok (), m) :=
  restartIfStale_of_held h.held

/-- The program of the active frame is fetched as it is filed. -/
theorem Executing.currentProgram {p : Program} (h : m.Executing p) :
    currentProgram m = (.ok p, m) := by
  obtain ⟨f, rest, hframes, hslot, hversion⟩ := h
  have hfetch : onWorld (World.program f.program) m = (.ok p, m) := by
    simp only [onWorld, Failing.bind_apply, Failing.get_apply, World.program_of_slot hslot]
    rfl
  simp only [Machine.currentProgram, active, getStack, Failing.bind_apply, Failing.get_apply,
    Failing.pure_apply, hframes, hfetch]
  rw [if_pos hversion]
  rfl

/-- The active frame of an anchored machine runs some program. -/
theorem Anchored.exists_executing (h : m.Anchored) (hframes : m.stack.frames ≠ []) :
    ∃ p, m.Executing p := by
  obtain ⟨f, rest, hf⟩ := List.exists_cons_of_ne_nil hframes
  obtain ⟨p, hp, hversion⟩ := h.held f (hf ▸ List.mem_cons_self)
  exact ⟨p, f, rest, hf, hp, hversion⟩

end Machine

end BlockMachine
