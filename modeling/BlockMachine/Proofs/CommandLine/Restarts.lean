import BlockMachine.CommandLine.Directory
import BlockMachine.Proofs.CommandLine.Counter
import BlockMachine.Proofs.State.Persistence
import Mathlib.Algebra.GroupWithZero.Nat

namespace BlockMachine

/-!
# The counter through restarts

The command may be run again and again on one state file. The counter goes on where the last run left
off, so that it makes no difference into how many runs its work is split.

* `Counter.text` is what the state file holds at a count, `Counter.ofJsonText_text` reads it back;
* `Counter.session_counts` is a session of the counter, `Counter.parse?_arguments` are its arguments;
* `Directory.run_counts` is one run of the command, `Directory.runAll` are runs one after the other;
* `Directory.counter_survives_restarts` compares them with a single one.
-/

namespace Counter

open Machine

/-! ### The state file -/

/-- What is saved at a count. -/
def saved : Nat → Saved
  | 0 => .null
  | n + 1 => .map [(.name "tick", .map [(.name "count", .int (Int64.ofNat (n + 1)))])]

/-- The text of the state file at a count. -/
def text (n : Nat) : String :=
  (saved n).toJson.pretty

theorem Tally.ofValue {n : Nat} {v : Value} (h : Tally n v) : Saved.ofValue v = .ok (saved n) := by
  cases n with
  | zero =>
    obtain rfl := h
    rfl
  | succ n =>
    obtain ⟨a, b, rfl⟩ := h
    rfl

/-- The text of a count is that count again, in new buffers. -/
theorem ofJsonText_text (types : Registry) (n : Nat) (supply : BufferId) :
    ∃ v supply', ofJsonText types (text n) supply = .ok (v, supply') ∧ Tally n v := by
  have hfloats : ∀ x ∈ (saved n).floats, Legible x := by cases n <;> exact nofun
  have hnesting : (saved n).toJson.nesting ≤ maxNesting := by
    cases n <;> exact Nat.le_of_ble_eq_true rfl
  rw [text, ofJsonText_pretty types (Saved.ofJson?_toJson maxNesting (saved n) hfloats hnesting)]
  cases n with
  | zero => exact ⟨_, _, rfl, rfl⟩
  | succ n => exact ⟨_, _, rfl, _, _, rfl⟩

/-- The state file at a count; without one there is no count. -/
inductive Keeps : Nat → StateFile → Prop where
  | absent : Keeps 0 .absent
  | text (n : Nat) : Keeps n (.text (text n))

/-! ### A session -/

/-- Nothing is compiled when a session starts. -/
theorem stocked_new (supply : BufferId) : Stocked { Demo.counterSetup.world with supply := supply } :=
  ⟨.of_empty rfl, rfl, rfl⟩

/-- A session finds the count in its state file. -/
theorem loadState_counts {n : Nat} {file : StateFile} (hfile : Keeps n file) (path : String) :
    ∃ m, Session.loadState path file ⟨Demo.counterSetup.world, .new {}, ""⟩ = (.ok (), m) ∧
      Rests n "" m := by
  cases hfile with
  | absent => exact ⟨_, rfl, _, _, stocked_new 0, rfl, rfl⟩
  | text n =>
    obtain ⟨v, supply, hread, hv⟩ :=
      ofJsonText_text Demo.counterSetup.world.registry n Demo.counterSetup.world.supply
    refine ⟨resting { Demo.counterSetup.world with supply := supply } v "", ?_, _, v,
      stocked_new supply, hv, rfl⟩
    have hload : Machine.loadState (text n) ⟨Demo.counterSetup.world, .new {}, ""⟩ =
        (.ok (.ok ()), resting { Demo.counterSetup.world with supply := supply } v "") := by
      rw [Machine.loadState, Failing.bind_apply, Failing.get_apply]
      dsimp only
      rw [hread]
      rfl
    rw [Session.loadState, Failing.bind_apply, Session.perform, hload]
    rfl

/-- A session leaves the count for its state file. -/
theorem stateText_counts {n : Nat} {printed : String} {m : Machine} (h : Rests n printed m)
    (path : String) : Session.stateText path m = (.ok (text n), m) := by
  obtain ⟨w, v, -, hv, rfl⟩ := h
  have htext : toJsonText (resting w v printed).stack.state = .ok (text n) := toJsonText_eq hv.ofValue
  rw [Session.stateText, Failing.bind_apply, Failing.get_apply]
  dsimp only
  rw [htext]
  rfl

/-- The options of a run of the counter. -/
def options (path : String) (count : Nat) : Options :=
  { demo := .counter, stateFile := some path, iterations := count }

/-- What a session reports whose script goes well. -/
theorem run_of_script {libraries : Libraries} {o : Options} {file : StateFile} {saved : Option String}
    {m : Machine} (h : Session.script libraries o file o.demo.setup
      ⟨o.demo.setup.world, .new { inlineCache := o.inlineCache }, ""⟩ = (.ok saved, m)) :
    Session.run libraries o file = ⟨0, m.printed, "", saved⟩ := by
  rw [Session.run, h]

/-- **A session of the counter** goes on from the count it finds. -/
theorem session_counts (libraries : Libraries) {n : Nat} {file : StateFile} (hfile : Keeps n file)
    (path : String) (count : Nat) :
    Session.run libraries (options path count) file = ⟨0, lines n count, "", some (text (n + count))⟩ := by
  obtain ⟨m₁, hload, hrests₁⟩ := loadState_counts hfile path
  obtain ⟨m₂, hiterate, hrests₂⟩ := iterate_counts libraries hrests₁ count
  have hscript : Session.script libraries (options path count) file Demo.counterSetup
      ⟨Demo.counterSetup.world, .new {}, ""⟩ = (.ok (some (text (n + count))), m₂) := by
    rw [Session.script]
    show (Session.loadState path file >>= fun _ => Session.iterate libraries 1 [] count >>= fun _ =>
      Session.stateText path >>= fun t => pure (some t)) _ = _
    rw [Failing.bind_apply, hload]
    dsimp only
    rw [Failing.bind_apply, hiterate]
    dsimp only
    rw [Failing.bind_apply, stateText_counts hrests₂]
    rfl
  obtain ⟨w, v, -, -, rfl⟩ := hrests₂
  rw [run_of_script hscript]
  exact congrArg (fun out => (⟨0, out, "", _⟩ : Report)) String.empty_append

/-! ### The arguments -/

/-- The arguments of a run of the counter. -/
def arguments (path : String) (count : Nat) : List String :=
  ["--demo", "counter", "--state-file", path, "--iterations", toString count]

theorem toList_toString_nat (n : Nat) : (toString n).toList = Nat.toDigits 10 n := by
  rw [Nat.toString_eq_repr, Nat.toList_repr]

/-- A written number is no option. -/
theorem isOption_toString (n : Nat) : Options.isOption (toString n) = false := by
  have hdigits := isDigits_toDigits n
  rw [Options.isOption, toList_toString_nat]
  split
  next hlist => exact absurd (hdigits.digits '-' (hlist ▸ List.mem_cons_self)) (by decide)
  next => rfl

/-- A written number is read back as a count, as long as it fits 64 bits. -/
theorem count?_toString {n : Nat} (h : n < UInt64.size) : Options.count? (toString n) = some n := by
  have hdigits := isDigits_toDigits n
  -- without a plus sign, all characters are digits
  have hplus : ∀ rest, Nat.toDigits 10 n ≠ '+' :: rest := fun rest h =>
    absurd (hdigits.digits '+' (h ▸ List.mem_cons_self)) (by decide)
  have hempty : (Nat.toDigits 10 n).isEmpty = false := List.isEmpty_eq_false_iff.2 hdigits.nonempty
  have hall : (Nat.toDigits 10 n).all Char.isDigit = true := List.all_eq_true.2 hdigits.digits
  have hvalue : (Nat.toDigits 10 n).foldl (fun n c => 10 * n + (c.toNat - 48)) 0 = n :=
    Nat.ofDigitChars_toDigits (by decide) (by decide)
  simp only [Options.count?, toList_toString_nat, hempty, hall, hvalue, h, Bool.not_true,
    Bool.or_self, Bool.false_eq_true, if_false, if_true]

theorem parse?_arguments {path : String} (hpath : Options.isOption path = false)
    (hempty : path.isEmpty = false) {count : Nat} (hcount : count < UInt64.size) :
    Options.parse? (arguments path count) = some (options path count) := by
  have hiterations : Options.read? ["--iterations", toString count] =
      if Options.isOption (toString count) then none else some [(.iterations, toString count)] := rfl
  have hfile : Options.read? ["--state-file", path, "--iterations", toString count] =
      if Options.isOption path then none
      else (Options.read? ["--iterations", toString count]).map ((.stateFile, path) :: ·) := rfl
  have hread : Options.read? (arguments path count) =
      (Options.read? ["--state-file", path, "--iterations", toString count]).map
        ((.demo, "counter") :: ·) := rfl
  have hsettings : Options.read? (arguments path count) =
      some [(.demo, "counter"), (.stateFile, path), (.iterations, toString count)] := by
    rw [hread, hfile, hpath, hiterations, isOption_toString]
    rfl
  have hdistinct : [OptionName.demo, .stateFile, .iterations].Nodup := by decide
  rw [Options.parse?, hsettings, Option.bind_eq_bind, Option.bind_some]
  simp only [List.map_cons, List.map_nil]
  rw [if_pos hdistinct]
  show ((Options.apply { demo := .counter } (.stateFile, path)).bind fun o =>
    (o.apply (.iterations, toString count)).bind fun o => some o) = _
  simp only [Options.apply, hempty, count?_toString hcount]
  rfl

end Counter

namespace Directory

/-! ### The directory -/

/-- Only its location matters for where a path leads. -/
theorem place_files (d : Directory) (files : List (String × String)) (path : String) :
    { d with files := files }.place path = d.place path := by
  have hfollow : ∀ parts location,
      { d with files := files }.follow location parts = d.follow location parts := by
    intro parts
    induction parts with
    | nil => exact fun _ => rfl
    | cons part rest ih =>
      intro location
      simp only [follow, ih]
      rfl
  simp only [place, hfollow]

/-- A path that leads to a file is not empty. -/
theorem isEmpty_of_place {d : Directory} {path name : String} (h : d.place path = .file name) :
    path.isEmpty = false := by
  cases hempty : path.isEmpty with
  | false => rfl
  | true =>
    obtain rfl := String.isEmpty_iff.1 hempty
    exact nomatch h

/-- Runs the command with one list of arguments after the other. -/
def runAll (libraries : Libraries) (d : Directory) : List (List String) → List Report × Directory
  | [] => ([], d)
  | args :: rest =>
    let (r, d) := d.run args libraries
    let (rs, d) := d.runAll libraries rest
    (r :: rs, d)

section

open Counter

variable (libraries : Libraries) {d : Directory} {path name : String} (hplace : d.place path = .file name)
  (hpath : Options.isOption path = false)

include hplace hpath

/-- **A run of the command** with the counter goes on from the count in the state file, and leaves the new
    count there. -/
theorem run_counts {n count : Nat} (hfile : Keeps n (d.stateFile path)) (hcount : count < UInt64.size) :
    d.run (arguments path count) libraries = (⟨0, lines n count, "", some (text (n + count))⟩,
      { d with files := (name, text (n + count)) :: d.files }) := by
  have hsave : d.save? path (text (n + count)) =
      some { d with files := (name, text (n + count)) :: d.files } := by
    rw [save?, hplace]
  rw [run, parse?_arguments hpath (isEmpty_of_place hplace) hcount]
  dsimp only [options]
  rw [← options, session_counts libraries hfile path count]
  dsimp only
  rw [hsave]

/-- Runs of the command with the counter, one after the other. -/
theorem runAll_counts {n : Nat} (hfile : Keeps n (d.stateFile path)) {counts : List Nat}
    (hcounts : ∀ count ∈ counts, count < UInt64.size) :
    (∀ r ∈ (d.runAll libraries (counts.map (arguments path))).1, r.code = 0 ∧ r.err = "") ∧
      String.join ((d.runAll libraries (counts.map (arguments path))).1.map (·.out)) = lines n counts.sum ∧
      (counts ≠ [] →
        (d.runAll libraries (counts.map (arguments path))).2.text? name = some (text (n + counts.sum))) := by
  induction counts generalizing d n with
  | nil => exact ⟨nofun, rfl, fun h => absurd rfl h⟩
  | cons count counts ih =>
    obtain ⟨hcount, hrest⟩ := List.forall_mem_cons.1 hcounts
    have hrun := run_counts libraries hplace hpath hfile hcount
    -- the next run finds what this one has saved
    have hplace' : { d with files := (name, text (n + count)) :: d.files }.place path = .file name :=
      (place_files d _ path).trans hplace
    have hfile' : Keeps (n + count)
        ({ d with files := (name, text (n + count)) :: d.files }.stateFile path) := by
      simp only [stateFile, hplace', text?, List.lookup_cons_self]
      exact .text (n + count)
    obtain ⟨hcodes, hlines, htext⟩ := ih hplace' hfile' hrest
    simp only [List.map_cons, runAll, hrun, List.sum_cons]
    refine ⟨List.forall_mem_cons.2 ⟨⟨rfl, rfl⟩, hcodes⟩, ?_, fun _ => ?_⟩
    · rw [String.join_cons, hlines, lines_add]
    · cases counts with
      | nil => exact List.lookup_cons_self
      | cons => rw [htext (List.cons_ne_nil _ _), Nat.add_assoc]

end

open Counter in
/-- **The counter survives restarts.** In a directory without the state file, runs of the command one after
    the other all succeed, print the numbers from one on and leave the last one in the state file, however
    many they are and however often each of them counts. A single run that counts as often as all of them
    together prints the same and leaves the same text. The number of iterations is given in 64 bits; the
    numbers themselves wrap around as they are 64-bit integers with a sign. -/
theorem counter_survives_restarts (libraries : Libraries) (d : Directory) (path name : String)
    (counts : List Nat) (hplace : d.place path = .file name) (hpath : Options.isOption path = false)
    (hnew : d.text? name = none) (hcounts : counts ≠ [])
    (hsizes : ∀ count ∈ counts, count < UInt64.size) :
    (∀ r ∈ (d.runAll libraries (counts.map (arguments path))).1, r.code = 0 ∧ r.err = "") ∧
      String.join ((d.runAll libraries (counts.map (arguments path))).1.map (·.out)) =
        String.join ((List.range' 1 counts.sum).map line) ∧
      (d.runAll libraries (counts.map (arguments path))).2.text? name = some (text counts.sum) ∧
      (counts.sum < UInt64.size →
        (d.run (arguments path counts.sum) libraries).1.code = 0 ∧
        (d.run (arguments path counts.sum) libraries).1.out =
          String.join ((d.runAll libraries (counts.map (arguments path))).1.map (·.out)) ∧
        (d.run (arguments path counts.sum) libraries).2.text? name =
          (d.runAll libraries (counts.map (arguments path))).2.text? name) := by
  have hfile : Keeps 0 (d.stateFile path) := by
    simp only [stateFile, hplace, hnew]
    exact .absent
  obtain ⟨hcodes, hlines, htext⟩ := runAll_counts libraries hplace hpath hfile hsizes
  have hlast := htext hcounts
  rw [Nat.zero_add] at hlast
  refine ⟨hcodes, hlines, hlast, fun hsum => ?_⟩
  have hrun := run_counts libraries hplace hpath hfile hsum
  rw [Nat.zero_add] at hrun
  rw [hrun]
  exact ⟨rfl, hlines.symm, hlast.symm ▸ List.lookup_cons_self⟩

open Counter in
/-- Five counts in three runs, one of which does not count at all. -/
theorem counter_survives_restarts_five :
    (∀ r ∈ (({} : Directory).runAll .simple ([2, 0, 3].map (arguments "count.json"))).1,
        r.code = 0 ∧ r.err = "") ∧
      String.join ((({} : Directory).runAll .simple ([2, 0, 3].map (arguments "count.json"))).1.map (·.out)) =
        "1\n2\n3\n4\n5\n" ∧
      (({} : Directory).run (arguments "count.json" 5)).1.out = "1\n2\n3\n4\n5\n" ∧
      (({} : Directory).run (arguments "count.json" 5)).2.text? "count.json" =
        (({} : Directory).runAll .simple ([2, 0, 3].map (arguments "count.json"))).2.text? "count.json" := by
  have hlines : String.join ((List.range' 1 5).map line) = "1\n2\n3\n4\n5\n" := by decide +kernel
  obtain ⟨hcodes, hprinted, -, hsingle⟩ := counter_survives_restarts .simple {} "count.json" "count.json"
    [2, 0, 3] (by decide +kernel) (by decide +kernel) (by decide) (by decide) (by decide)
  obtain ⟨-, hsame, htext⟩ := hsingle (by decide)
  exact ⟨hcodes, hprinted.trans hlines, hsame.trans (hprinted.trans hlines), htext⟩

end Directory

end BlockMachine
