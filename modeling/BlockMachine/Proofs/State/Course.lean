import BlockMachine.Proofs.Machine.Loop
import BlockMachine.Proofs.Machine.Scripts
import BlockMachine.Proofs.State.Ledger

namespace BlockMachine

/-!
# The course of a run

A run goes through many machines. Its course lists them, one mark after every instruction and every
operation of the host or of a native, with what happened to frames and state on the way. Runs that
natives start inside a run are part of its course.

* `Mark` is a machine with the events that led to it;
* `Machine.stepCourse`, `Machine.executeCourse` and `Machine.runCourse` follow instructions, the loop
  and a run, `HostOp.course` and `Script.course` follow a host;
* `Ledger.Describes` says that a stack is what a ledger tells.
-/

/-- A machine that a run came by, and what happened to frames and state since the mark before. -/
structure Mark where
  events : List Event
  machine : Machine

/-- The history of a course. -/
def Mark.log (course : List Mark) : List Event :=
  course.flatMap (·.events)

@[simp]
theorem Mark.log_nil : Mark.log [] = [] := rfl

@[simp]
theorem Mark.log_cons (mark : Mark) (course : List Mark) :
    Mark.log (mark :: course) = mark.events ++ Mark.log course := rfl

@[simp]
theorem Mark.log_append (course course' : List Mark) :
    Mark.log (course ++ course') = Mark.log course ++ Mark.log course' :=
  List.flatMap_append

namespace Machine

/-! ### Events of single operations -/

/-- The frame that was pushed between two machines, if one was. -/
def entered (m m' : Machine) : List Event :=
  if m.stack.depth < m'.stack.depth then [.entered (m'.stack.frames.head?.bind (·.key))] else []

/-- What a change of the main block does: the stack starts over. -/
def startedOver (m m' : Machine) : List Event :=
  .cleared :: entered { m with stack := m.stack.startOver } m'

/-- What a push does: a finished stack starts over. -/
def pushed (m m' : Machine) : List Event :=
  if m.stack.phase = .finished then startedOver m m' else entered m m'

/-- What a return does. -/
def left (program : Program) (m : Machine) : List Event :=
  match m.stack.frames, (leave program m).1 with
  | f :: _, .ok isRoot =>
    -- state is stored after the outputs were cast
    let cast := castOutputs program f.registers 0 program.signature.outputs m
    if isRoot then [.finished cast.2.world.supply] else [.returned cast.2.world.supply]
  | _, _ => []

/-- What a save does. -/
def saved (program : Program) (name : UInt16) (src : Reg) (m : Machine) : List Event :=
  match program.names[name.toNat]?, (register src m).1 with
  | some s, .ok v => [.saved s v]
  | _, _ => []

/-- What is done to a stack with frames that run old programs. -/
def restarting (m : Machine) : List Event :=
  match (allCurrent m.stack.frames.reverse m).1 with
  | .ok false =>
    match (restartIfStale m).1 with
    | .ok _ => [.unwound, .restarted]
    | .error _ => [.unwound]
  | _ => []

end Machine

open Machine

/-! ### Hosts -/

/-- What an operation other than a run or a call does, told from the machines before and after. -/
def HostOp.events {β : Type} (m m' : Machine) : HostOp β → List Event
  | .push .. => pushed m m'
  | .pop => [.dropped]
  | .reset discardState => if discardState then [.cleared, .replaced .null] else [.cleared]
  | .migrateTo .. => startedOver m m'
  | .migrateToFunc func _ => if func.func?.isSome then startedOver m m' else []
  | .migrate old _ =>
    .replaced m'.stack.state ::
      match m.stack.frames.getLast? with
      | some root => if root.block = old then startedOver m m' else []
      | none => []
  | .setState tree => [.replaced tree]
  | .loadState _ => [.replaced m'.stack.state]
  | _ => []

/-- The course of an operation, where runs have the course `running`. -/
def HostOp.course (resume : Action Outcome) (running : Machine → List Mark) {β : Type} :
    HostOp β → Machine → List Mark
  | .run, m => running m
  | .call block inputs, m =>
    let start := Machine.push block inputs m
    let done := callWith resume block inputs m
    ⟨pushed m start.2, start.2⟩ ::
      match start.1 with
      | .ok _ => running start.2 ++ [⟨if done.1.isOk then [.cleared] else [], done.2⟩]
      | .error _ => []
  | o, m => [⟨o.events m (o.perform resume m).2, (o.perform resume m).2⟩]

/-- The course of a script. -/
def Script.course (resume : Action Outcome) (running : Machine → List Mark) {α : Type} :
    Script α → Machine → List Mark
  | .done _, _ => []
  | .op o next, m =>
    o.course resume running m ++
      match o.perform resume m with
      | (.ok b, m') => (next (.ok b)).course resume running m'
      | (.error (.raised e), m') => (next (.error e)).course resume running m'
      | (.error _, _) => []

/-- The course of a native. The default ones stay clear of frames and state. -/
def Native.course (host : Embedder) (resume : Action Outcome) (running : Machine → List Mark) :
    Native → Machine → List Mark
  | .host f, m => f.script.course resume running m
  | .installed code, m => (host.script code).course resume running m
  | f, m => [⟨[], (invoke host resume f m).2⟩]

namespace Machine

/-! ### Runs -/

/-- The course of an instruction. -/
def stepCourse (host : Embedder) (resume : Action Outcome) (running : Machine → List Mark)
    (program : Program) (next : Nat) (i : Instruction) (m : Machine) : List Mark :=
  let m' := (step host resume program next i m).2
  match i with
  | .native index =>
    match m.world.natives.get? index with
    | some (_, f) => f.course host resume running m
    | none => []
  | .saveState name src => [⟨saved program name src m, m'⟩]
  | .ret => [⟨left program m, m'⟩]
  | _ => [⟨entered m m', m'⟩]

/-- The course of a call of a native is that of the native. -/
theorem stepCourse_native (host : Embedder) (resume : Action Outcome) (running : Machine → List Mark)
    (program : Program) (next : Nat) (index : UInt16) (m : Machine) :
    stepCourse host resume running program next (.native index) m =
      match m.world.natives.get? index with
      | some (_, f) => f.course host resume running m
      | none => [] := rfl

/-- The course of a run whose program has the course `executing`. -/
def runCourse (exec : Program → Action Outcome) (executing : Program → Machine → List Mark)
    (m : Machine) : List Mark :=
  if m.stack.phase = .ready ∧ m.stack.frames ≠ [] then
    ⟨restarting m.started, (restartIfStale m.started).2⟩ ::
      (match (restartIfStale >>= fun _ => currentProgram) m.started with
        | (.ok program, m₂) => executing program m₂
        | (.error _, _) => []) ++
      [⟨[], (runWith exec m).2⟩]
  else []

/-- The course of the loop. -/
def executeCourse (host : Embedder) : Nat → Program → Machine → List Mark
  | 0, _, _ => []
  | fuel + 1, program, m =>
    match m.stack.cancelled, m.stack.frames with
    | false, f :: rest =>
      match program.instructionAt f.pc.offset with
      | .ok (i, next) =>
        let m₁ := m.advanced f rest next
        let resume := runWith (execute host fuel)
        let running := runCourse (execute host fuel) (executeCourse host fuel)
        stepCourse host resume running program next i m₁ ++
          match step host resume program next i m₁ with
          | (.ok .next, m₂) => executeCourse host fuel program m₂
          | (.ok .reload, m₂) =>
            match currentProgram m₂ with
            | (.ok program, m₃) => executeCourse host fuel program m₃
            | (.error _, _) => []
          | _ => []
      | .error _ => []
    | _, _ => []

/-- The course of a run under an embedder. -/
def runByCourse (host : Embedder) (fuel : Nat) : Machine → List Mark :=
  runCourse (execute host fuel) (executeCourse host fuel)

end Machine

/-! ### Described stacks -/

/-- What a ledger tells of a frame. -/
structure Strand where
  isRoot : Bool
  key : Option Key
  incoming : Value
  outgoing : List (Key × Value)

/-- How a frame hangs in the stack and what it reads and saves. -/
def Frame.strand (f : Frame) : Strand :=
  ⟨f.parent.isNone, f.key, f.incoming, f.outgoing⟩

namespace Ledger

/-- The strands of accounts; the last is the root's. -/
def strands : List Account → List Strand
  | [] => []
  | a :: rest => ⟨rest.isEmpty, a.key, a.incoming, a.outgoing⟩ :: strands rest

/-- A stack has the tree of a ledger, and its frames are the ledger's accounts. -/
structure Describes (l : Ledger) (s : Stack) : Prop where
  tree : s.state = l.tree
  frames : s.frames.map Frame.strand = strands l.accounts

/-- A course stays with a ledger: every machine on it is described by the ledger after the events
    up to there. -/
def Follows (l : Ledger) : List Mark → Prop
  | [] => True
  | mark :: course =>
    (l.replay mark.events).Describes mark.machine.stack ∧ (l.replay mark.events).Follows course

end Ledger

end BlockMachine
