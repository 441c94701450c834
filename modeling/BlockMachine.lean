import BlockMachine.Block.Signature
import BlockMachine.Bytecode.Assembler
import BlockMachine.Bytecode.Decode
import BlockMachine.Bytecode.Encode
import BlockMachine.Bytecode.Instruction
import BlockMachine.Bytecode.Listing
import BlockMachine.Bytecode.Op
import BlockMachine.Bytecode.SourceMap
import BlockMachine.CommandLine.Directory
import BlockMachine.CommandLine.Options
import BlockMachine.CommandLine.Session
import BlockMachine.Demo
import BlockMachine.Dispatch.Cache
import BlockMachine.Dispatch.Resolve
import BlockMachine.Json.Number
import BlockMachine.Json.Tree
import BlockMachine.Machine.Basic
import BlockMachine.Machine.Call
import BlockMachine.Machine.Compute
import BlockMachine.Machine.Embedder
import BlockMachine.Machine.Error
import BlockMachine.Machine.Frame
import BlockMachine.Machine.Host
import BlockMachine.Machine.Natives
import BlockMachine.Machine.Random
import BlockMachine.Machine.Run
import BlockMachine.Machine.Send
import BlockMachine.Machine.Stack
import BlockMachine.Machine.Step
import BlockMachine.Main
import BlockMachine.Native.Basic
import BlockMachine.Native.Table
import BlockMachine.Number.Layout
import BlockMachine.Program.Basic
import BlockMachine.Program.Error
import BlockMachine.Program.Lowering
import BlockMachine.Sharing.Cells
import BlockMachine.Sharing.Plain
import BlockMachine.Sharing.Rebinding
import BlockMachine.Sharing.Store
import BlockMachine.State.Format
import BlockMachine.State.Saved
import BlockMachine.State.Tree
import BlockMachine.Text.Hex
import BlockMachine.Text.Quoted
import BlockMachine.Value.Basic
import BlockMachine.Value.Cast
import BlockMachine.Value.Census
import BlockMachine.Value.Equality
import BlockMachine.Value.Fingerprint
import BlockMachine.Value.Key
import BlockMachine.Value.Literal
import BlockMachine.Value.Registry
import BlockMachine.Value.Text
import BlockMachine.Value.Type
import BlockMachine.World
import BlockMachine.Proofs.Bytecode.Encoding
import BlockMachine.Proofs.Bytecode.Assembly
import BlockMachine.Proofs.Bytecode.VariableLength
import BlockMachine.Proofs.Bytecode.SourceMap
import BlockMachine.Proofs.Bytecode.Decoding
import BlockMachine.Proofs.Bytecode.Labels
import BlockMachine.Proofs.Program.Listing
import BlockMachine.Proofs.Value.Parts
import BlockMachine.Proofs.Sharing.Counting
import BlockMachine.Proofs.Sharing.Adoption
import BlockMachine.Proofs.Sharing.Refinement
import BlockMachine.Proofs.Sharing.Modules
import BlockMachine.Proofs.Value.Cast
import BlockMachine.Proofs.Value.Known
import BlockMachine.Proofs.Failing
import BlockMachine.Proofs.Program.Sites
import BlockMachine.Proofs.Program.Table
import BlockMachine.Proofs.Program.StraightLine
import BlockMachine.Proofs.Dispatch.Caching
import BlockMachine.Proofs.Machine.Invariant
import BlockMachine.Proofs.Machine.Agreement
import BlockMachine.Proofs.Machine.Frames
import BlockMachine.Proofs.Machine.Instructions
import BlockMachine.Proofs.Machine.Hosting
import BlockMachine.Proofs.Machine.Running
import BlockMachine.Proofs.Dispatch.Transparency
import BlockMachine.Proofs.Value.Floats
import BlockMachine.Proofs.Value.Equality
import BlockMachine.Proofs.Value.Likeness
import BlockMachine.Proofs.Value.Literals
import BlockMachine.Proofs.Value.KeptAlike
import BlockMachine.Proofs.Machine.Mirror
import BlockMachine.Proofs.Machine.MirrorSteps
import BlockMachine.Proofs.Machine.Scripts
import BlockMachine.Proofs.Machine.Loop
import BlockMachine.Proofs.Program.Filing
import BlockMachine.Proofs.State.Ledger
import BlockMachine.Proofs.State.Course
import BlockMachine.Proofs.State.Outline
import BlockMachine.Proofs.State.Bookkeeping
import BlockMachine.Proofs.State.Tracking
import BlockMachine.Proofs.State.Paths
import BlockMachine.Proofs.State.Commit
import BlockMachine.Proofs.Machine.Lockstep
import BlockMachine.Proofs.Machine.Pauses
import BlockMachine.Proofs.Program.Succession
import BlockMachine.Proofs.Value.Typing
import BlockMachine.Proofs.Value.Hereditary
import BlockMachine.Proofs.Machine.Ensuring
import BlockMachine.Proofs.Machine.Moments
import BlockMachine.Proofs.Machine.Footing
import BlockMachine.Proofs.Machine.HotReload
import BlockMachine.Proofs.Json.Numerals
import BlockMachine.Proofs.Json.Text
import BlockMachine.Proofs.State.Format
import BlockMachine.Proofs.State.Persistence
import BlockMachine.Proofs.Machine.Holding
import BlockMachine.Proofs.Machine.Containment
import BlockMachine.Proofs.Machine.Exposure
import BlockMachine.Proofs.Machine.Tenure
import BlockMachine.Proofs.Machine.Kinship
import BlockMachine.Proofs.Machine.Restart
import BlockMachine.Proofs.Program.Upkeep
import BlockMachine.Proofs.Machine.Deeds
import BlockMachine.Proofs.Machine.Faults
import BlockMachine.Proofs.Machine.Calls
import BlockMachine.Proofs.Machine.Reframing
import BlockMachine.Proofs.Machine.Framing
import BlockMachine.Proofs.Machine.Isolation
import BlockMachine.Proofs.Machine.Typing
import BlockMachine.Proofs.Program.Recompiling
import BlockMachine.Proofs.Program.Alongside
import BlockMachine.Proofs.Program.Constants
import BlockMachine.Proofs.Machine.Phases
import BlockMachine.Proofs.Machine.Outputs
import BlockMachine.Proofs.Machine.Stepping
import BlockMachine.Proofs.CommandLine.Counter
import BlockMachine.Proofs.CommandLine.Restarts
import BlockMachine.Proofs.Value.Transitivity
import BlockMachine.Proofs.Machine.Migration
import BlockMachine.Proofs.Machine.FailedRuns
import BlockMachine.Proofs.Machine.Jumps
import BlockMachine.Proofs.Value.Casting
import BlockMachine.Proofs.Bytecode.Reassembly
import BlockMachine.Proofs.Dispatch.Recency
import BlockMachine.Proofs.State.Rebinding
import BlockMachine.Proofs.Sharing.Rebinding
import BlockMachine.Proofs.Machine.Entry
import BlockMachine.Proofs.Bytecode.Truncation
import BlockMachine.Proofs.Native.Registration
import BlockMachine.Proofs.CommandLine.Summing
import BlockMachine.Proofs.Value.Copies
import BlockMachine.Proofs.Program.Wrapping
import BlockMachine.Proofs.Machine.Nesting
import BlockMachine.Proofs.Machine.Handover
import BlockMachine.Proofs.Machine.Wrapped
