import BlockMachine.Proofs.State.Tracking

namespace BlockMachine

/-!
# Reading state along paths

The incoming tree of a frame is copied when the frame is pushed, from its caller. Whatever happens to
a stack, it is what the keys of the frame and its callers select in the tree that the root reads.

* `Frame.statePath` are the keys that lead from the root to a frame;
* `Machine.Reached.reads_along_path` is the law for incoming trees and for reads of state.
-/

/-! ### Paths of frames -/

namespace Frame

/-- The keys that lead from the root to the first of some frames; `none` when a frame on the way was
    pushed without a key. -/
def statePath : List Frame → Option (List Key)
  | f :: caller :: rest => do
    let path ← statePath (caller :: rest)
    let k ← f.key
    return path ++ [k]
  | _ => some []

/-- The tree that the root of some frames reads. -/
def rootTree : List Frame → Value
  | [] => .null
  | [root] => root.incoming
  | _ :: caller :: rest => rootTree (caller :: rest)

end Frame

namespace Ledger

variable {l : Ledger} {s : Stack}

theorem statePath_eq {frames : List Frame} {accounts : List Account}
    (h : frames.map Frame.strand = strands accounts) : Frame.statePath frames = path? accounts := by
  induction frames generalizing accounts with
  | nil =>
    cases accounts with
    | nil => rfl
    | cons => exact nomatch h
  | cons f frames ih =>
    cases accounts with
    | nil => exact nomatch h
    | cons a accounts =>
      obtain ⟨hf, hrest⟩ := List.cons.inj h
      have hkey : f.key = a.key := congrArg Strand.key hf
      have hpath := ih hrest
      cases frames with
      | nil =>
        cases accounts with
        | nil => rfl
        | cons => exact nomatch hrest
      | cons =>
        cases accounts with
        | nil => exact nomatch hrest
        | cons => rw [Frame.statePath, path?, hpath, hkey]

theorem rootTree_eq {frames : List Frame} {accounts : List Account}
    (h : frames.map Frame.strand = strands accounts) :
    Frame.rootTree frames = rootIncoming accounts := by
  induction frames generalizing accounts with
  | nil =>
    cases accounts with
    | nil => rfl
    | cons => exact nomatch h
  | cons f frames ih =>
    cases accounts with
    | nil => exact nomatch h
    | cons a accounts =>
      obtain ⟨hf, hrest⟩ := List.cons.inj h
      cases frames with
      | nil =>
        cases accounts with
        | nil => exact congrArg Strand.incoming hf
        | cons => exact nomatch hrest
      | cons =>
        cases accounts with
        | nil => exact nomatch hrest
        | cons =>
          rw [Frame.rootTree, rootIncoming]
          exact ih hrest

/-- The accounts of a part of the frames that has the root. -/
theorem Describes.below (h : l.Describes s) {above below : List Frame}
    (hframes : s.frames = above ++ below) :
    below.map Frame.strand = strands (l.accounts.drop above.length) := by
  rw [strands_drop, ← h.frames, hframes, List.map_append, List.drop_left' (List.length_map _)]

/-- A threaded ledger is the path law of the frames it describes. -/
theorem Describes.incoming (h : l.Describes s) (hl : Threaded l.accounts) {above below : List Frame}
    {f : Frame} (hframes : s.frames = above ++ f :: below) :
    f.incoming = reached (Frame.rootTree (f :: below)) (Frame.statePath (f :: below)) := by
  have hbelow := h.below hframes
  have hthreaded := hl.drop above.length
  generalize l.accounts.drop above.length = accounts at hbelow hthreaded
  cases accounts with
  | nil => exact nomatch hbelow
  | cons a accounts =>
    rw [statePath_eq hbelow, rootTree_eq hbelow, ← hthreaded.incoming]
    exact congrArg Strand.incoming (List.cons.inj hbelow).1

end Ledger

/-! ### Reads -/

namespace Machine

open Ledger

variable {m : Machine} {log : List Event}

/-- What a read of state gives, by the path of the frame that reads. -/
theorem readState_apply {f : Frame} {rest : List Frame} (hframes : m.stack.frames = f :: rest)
    (hroot : f.parent.isNone = rest.isEmpty)
    (hincoming : f.incoming = reached (Frame.rootTree (f :: rest)) (Frame.statePath (f :: rest)))
    (name : String) :
    readState name m = (.ok (reached (Frame.rootTree (f :: rest))
      ((Frame.statePath (f :: rest)).map (· ++ [.name name]))), m) := by
  rw [readState, Failing.bind_apply, active_apply hframes]
  show (Except.ok _, m) = _
  congr 2
  have hread : StateTree.read f.incoming name = reached (Frame.rootTree (f :: rest))
      ((Frame.statePath (f :: rest)).map (· ++ [.name name])) := by
    rw [hincoming, StateTree.read]
    cases Frame.statePath (f :: rest) with
    | none => rfl
    | some path => exact child_reached _ path _
  cases hstateful : f.isStateful with
  | true => exact hread
  | false =>
    -- a frame without state has no path, so there is nothing to read for it
    rw [Frame.isStateful, Bool.or_eq_false_iff, hroot] at hstateful
    cases rest with
    | nil => cases hstateful.1
    | cons caller rest =>
      have hkey : f.key = none :=
        Option.isNone_iff_eq_none.1 (Option.isSome_eq_false_iff.1 hstateful.2)
      have hpath : Frame.statePath (f :: caller :: rest) = none := by
        rw [Frame.statePath, hkey]
        cases Frame.statePath (caller :: rest) <;> rfl
      rw [hpath]
      rfl

/-- **Structural state paths.** In every machine that a stack comes by each frame reads what its path selects in
    the tree that the root reads, and nothing when it has no path; so a read of state finds what is
    at the end of the path. The tree that the root reads stays the same whatever happens, until the
    root is taken away or starts over. -/
theorem Reached.reads_along_path {worlds : World → Prop} (h : Reached worlds log m) :
    (∀ above f below, m.stack.frames = above ++ f :: below →
      f.incoming = reached (Frame.rootTree (f :: below)) (Frame.statePath (f :: below))) ∧
    (∀ host resume program next dst index name f rest, m.stack.frames = f :: rest →
      program.names[index.toNat]? = some name →
      step host resume program next (.getState dst index) m =
        (do
          setRegister dst (reached (Frame.rootTree (f :: rest))
            ((Frame.statePath (f :: rest)).map (· ++ [.name name])))
          return .next : Action Flow) m) ∧
    ∀ (α : Type) (host : Embedder) (fuel : Nat) (session : Script α) (past future : List Mark)
      (mark : Mark), m.stack.frames ≠ [] →
      session.course (runBy host fuel) (runByCourse host fuel) m = past ++ mark :: future →
      Event.spareRoot m.stack.depth (Mark.log (past ++ [mark])) = true →
      Frame.rootTree mark.machine.stack.frames = Frame.rootTree m.stack.frames := by
  have hl := h.describes
  have hthreaded : Threaded (({} : Ledger).replay log).accounts :=
    Threaded.replay (l := {}) trivial log
  generalize ({} : Ledger).replay log = l at hl hthreaded
  refine ⟨fun above f below hframes => hl.incoming hthreaded hframes, ?_, ?_⟩
  · intro host resume program next dst index name f rest hframes hname
    obtain ⟨a, as, -, hf, hrest⟩ := hl.cons hframes
    have hroot : f.parent.isNone = rest.isEmpty := by
      rw [show f.parent.isNone = as.isEmpty from congrArg Strand.isRoot hf, ← strands_isEmpty,
        ← hrest, List.isEmpty_map]
    have hincoming := hl.incoming hthreaded (show m.stack.frames = [] ++ f :: rest from hframes)
    have hread := readState_apply hframes hroot hincoming name
    generalize reached (Frame.rootTree (f :: rest)) _ = v at hread ⊢
    have hperform : perform host resume program next (.getState dst index) m =
        setRegister dst v m := by
      rw [perform, entry, hname]
      show (readState name >>= fun v => setRegister dst v) m = _
      rw [Failing.bind_apply, hread]
    rw [step.eq_3 _ _ _ _ _ (by simp) (by simp), Failing.bind_apply, hperform, Failing.bind_apply]
    rfl
  · intro α host fuel session past future mark hroot hcourse hspare
    have hfollows := (session.tracks (runBy_tracks host fuel) l m hl).1
    rw [hcourse] at hfollows
    have hmark := hfollows.describes
    have hdepth : m.stack.depth = l.accounts.length := by
      rw [Stack.depth, ← strands_length, ← hl.frames, List.length_map]
    have haccounts : l.accounts ≠ [] := by
      intro hnil
      rw [hnil, Stack.depth, List.length_nil, List.length_eq_zero_iff] at hdepth
      exact hroot hdepth
    rw [hdepth] at hspare
    rw [rootTree_eq hmark.frames, rootTree_eq hl.frames, rootIncoming_replay haccounts hspare]

end Machine

/-! ### A counter under a key -/

/-- A session with a counter that a child keeps under a key. It pauses after a save, the host takes
    the tree away, and the child reads its count again. -/
def Script.recount : Script Outcome :=
  .op (.addBlock { name := "counter", locals := 1 }
    [.getState 0 "n", .code (.emit (.increment 0)), .saveState "n" 0, .code (.emit .pause),
      .getState 0 "n", .code (.emit .ret)]) fun _ =>
  .op (.addBlock { name := "main", locals := 1 }
    [.load 0 (.str "left"), .callKeyed 0 0 0 0 0, .code (.emit .ret)]) fun _ =>
  .op (.setState (.map 0 [(.name "left", .map 1 [(.name "n", .int 3)])])) fun _ =>
  .op (.push 1 []) fun _ =>
  .op .run fun _ =>
  .op (.setState .null) fun _ =>
  .op .run fun outcome => .done outcome

open Machine Ledger in
theorem Machine.Reached.reads_along_path_recount :
    Reached World.Filed (Mark.log (Script.recount.course (runBy .idle 100) (runByCourse .idle 100)
        ⟨{}, .new {}, ""⟩)) (Script.recount.perform (runBy .idle 100) ⟨{}, .new {}, ""⟩).2 ∧
      ∀ above f below,
        (Script.recount.perform (runBy .idle 100) ⟨{}, .new {}, ""⟩).2.stack.frames =
          above ++ f :: below →
        f.incoming = reached (Frame.rootTree (f :: below)) (Frame.statePath (f :: below)) :=
  have hreached := Reached.after (.new World.filed_new {} "") .idle 100 Script.recount
  ⟨hreached, hreached.reads_along_path.1⟩

end BlockMachine
