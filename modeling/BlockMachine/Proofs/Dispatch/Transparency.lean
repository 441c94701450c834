import BlockMachine.Proofs.Machine.Running

namespace BlockMachine

/-!
# Caches are transparent

A session of a host gives the same answers and leaves the same machine whether caches are on or
off. The session is any honest script, and so are the natives that its runs call: both may run the
stack, declare types, methods and modules, and replace blocks, in any order.

* `Machine.caching` is a machine with caches turned on or off;
* `Machine.inlineCache_transparent` is the statement;
* `Machine.sound_new` and `World.coherent_new` say where sessions start.
-/

namespace Machine

variable {α : Type}

/-- The machine with caches turned on or off. -/
def caching (m : Machine) (on : Bool) : Machine :=
  { m with stack := { m.stack with config := { m.stack.config with inlineCache := on } } }

/-- A sound machine is sound with caches turned on or off. -/
theorem Sound.caching {m : Machine} (hm : m.Sound) (on : Bool) : (m.caching on).Sound :=
  ⟨⟨hm.world, ⟨hm.stack.frames, hm.stack.state, hm.stack.retained, hm.stack.env, hm.stack.messages⟩,
    hm.caches⟩, hm.ended, hm.runs⟩

/-- What does not depend on caches does the same without them, and leaves the same machine but for
    caches. -/
theorem Agrees.same {a : Action α} {m : Machine} {Q : α → Machine → Prop} {E : Machine → Prop}
    (h : Agrees a m Q E) : a m.uncached = ((a m).1, (a m).2.uncached) := by
  cases h with
  | ok run uncached _ => rw [uncached, run]
  | raised run uncached _ => rw [uncached, run]
  | fatal run uncached _ => rw [uncached, run]

/-- **Caches are transparent.** From any sound machine, such as a new stack on any coherent world,
    an honest session under an embedder with honest natives ends in the same way with caches on
    and off, and leaves the same machine but for caches: the same world, frames, registers, state
    tree, messages, errors and printed text. -/
theorem inlineCache_transparent {m : Machine} (hm : m.Sound) {host : Embedder}
    (hhost : host.Honest m.world.registry) {session : Script α}
    (hsession : session.Honest m.world.registry) (fuel : Nat) :
    (session.perform (runBy host fuel) (m.caching true)).1 =
        (session.perform (runBy host fuel) (m.caching false)).1 ∧
      (session.perform (runBy host fuel) (m.caching true)).2.uncached =
        (session.perform (runBy host fuel) (m.caching false)).2.uncached := by
  have hsame : ∀ on, session.perform (runBy host fuel) m.uncached =
      ((session.perform (runBy host fuel) (m.caching on)).1,
        (session.perform (runBy host fuel) (m.caching on)).2.uncached) := by
    intro on
    have hagrees := session.perform_agrees (resumes_runBy hhost fuel) (hm.caching on)
      (Registry.Within.refl _) hsession
    exact hagrees.same
  exact Prod.mk.inj ((hsame true).symm.trans (hsame false))

end Machine

/-! ### A session with sends -/

namespace Script

/-- Takes an integer and gives one. -/
def unary (name : String) : Signature where
  name := name
  inputs := [⟨"x", .basic .int, false⟩]
  outputs := [⟨⟨"y", .basic .int, false⟩, 0⟩]

/-- A session that sends a method to an integer, gives the method a new definition, and sends it
    from the same call site again. -/
def resend : Script (List Value) :=
  .op (.addBlock (unary "step") [.code (.emit .ret)]) fun _ =>
  .op (.addBlock (unary "main") [.send "step" 0 1 0, .code (.emit .ret)]) fun _ =>
  .op (.addMethod Builtin.int.id "step" 0) fun _ =>
  .op (.call 1 [.int 3]) fun _ =>
  .op (.replaceBlock 0 (unary "step") [.code (.emit (.increment 0)), .code (.emit .ret)]) fun _ =>
  .op (.call 1 [.int 3]) fun outputs => .done outputs

/-- A script is honest if its first operation is and it goes on honestly whatever the answer. -/
theorem honest_op {α β : Type} {o : HostOp β} {next : Except RuntimeError β → Script α}
    {reg : Registry} (ho : o.Honest reg) (hnext : ∀ r reg', (next r).Honest reg') :
    (op o next).Honest reg :=
  ⟨ho, fun reg' _ _ => ⟨fun b _ => hnext (.ok b) reg', fun e => hnext (.error e) reg'⟩⟩

/-- A signature of built-in types is known to every registry. -/
theorem unary_known (name : String) (reg : Registry) : (unary name).Known reg :=
  ⟨List.forall_mem_singleton.2 (.basic _), List.forall_mem_singleton.2 (.basic _)⟩

/-- The session hands over known values, and bodies with one name per site. -/
theorem honest_resend (reg : Registry) : resend.Honest reg := by
  have hbody : ∀ {body : List Directive}, body.all Directive.isStraight = true →
      OneNamePerSite body :=
    fun h => oneNamePerSite_of_straight (List.all_eq_true.1 h)
  have hinputs : ∀ reg, ∀ v ∈ [Value.int 3], v.Known reg :=
    fun _ => List.forall_mem_singleton.2 (Value.known_atom rfl rfl)
  refine honest_op ⟨unary_known _ _, hbody rfl⟩ fun _ reg => ?_
  refine honest_op ⟨unary_known _ _, hbody rfl⟩ fun _ reg => ?_
  refine honest_op trivial fun _ reg => ?_
  refine honest_op (hinputs reg) fun _ reg => ?_
  refine honest_op ⟨unary_known _ _, hbody rfl⟩ fun _ reg => ?_
  exact honest_op (hinputs reg) fun _ _ => trivial

end Script

/-- An embedder without natives of its own is honest. -/
theorem Embedder.honest_idle {libraries : Libraries} (reg : Registry) :
    (Embedder.idle libraries).Honest reg :=
  fun _ _ _ _ => trivial

/-- The session that sends again after the method got another definition gives the same answers with caches
    and without. -/
theorem Machine.inlineCache_transparent_resend :
    Sound ⟨{}, .new {}, ""⟩ ∧ Script.resend.Honest {} ∧
      (Script.resend.perform (runBy .idle 100) (caching ⟨{}, .new {}, ""⟩ true)).1 =
        (Script.resend.perform (runBy .idle 100) (caching ⟨{}, .new {}, ""⟩ false)).1 ∧
      (Script.resend.perform (runBy .idle 100) (caching ⟨{}, .new {}, ""⟩ true)).2.uncached =
        (Script.resend.perform (runBy .idle 100) (caching ⟨{}, .new {}, ""⟩ false)).2.uncached :=
  ⟨sound_new World.coherent_new {} "", Script.honest_resend {},
    inlineCache_transparent (sound_new World.coherent_new {} "") (Embedder.honest_idle _)
      (Script.honest_resend _) 100⟩

end BlockMachine
