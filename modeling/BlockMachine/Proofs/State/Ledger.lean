import BlockMachine.Proofs.Value.Known

namespace BlockMachine

/-!
# A ledger of saved state

What persists of a run can be told from a short history: frames were entered under keys, values
were saved, frames returned. A ledger keeps an account of every live frame, with the list of all
that was saved into it in the order it happened, and derives outgoing maps and the state tree from
these lists alone.

* `Account.outgoing` is the fold of an account's savings, `Ledger.replay` the ledger after a history;
* `Ledger.post_tree` says which events touch the tree;
* `Ledger.Threaded` is the path law for incoming trees, kept by every event;
* `Ledger.replay_audible`: what is saved at or below an account without key never reaches the tree.
-/

/-! ### Accounts and events -/

/-- One contribution to what a frame saved: a write of its own, or the outgoing map of a child that
    returned under a key, together with the buffer number that the map got. -/
inductive Saving where
  | own (name : String) (v : Value)
  | child (k : Key) (entries : List (Key × Value)) (number : BufferId)

/-- An outgoing map with one more contribution. -/
def Saving.collect (outgoing : List (Key × Value)) : Saving → List (Key × Value)
  | own name v => StateTree.save outgoing name v
  | child k entries number => (StateTree.merge outgoing k entries number).1

/-- The account of a live frame: its key, the tree it reads, and what was saved into it since it was
    pushed or restarted. -/
structure Account where
  key : Option Key
  incoming : Value
  savings : List Saving := []

namespace Account

/-- What an account saved so far, from nothing and in order. -/
def outgoing (a : Account) : List (Key × Value) :=
  a.savings.foldl Saving.collect []

/-- The account with one more contribution. -/
def record (a : Account) (s : Saving) : Account :=
  { a with savings := a.savings ++ [s] }

/-- One more contribution is collected after the others. -/
theorem outgoing_record (a : Account) (s : Saving) :
    (a.record s).outgoing = s.collect a.outgoing := by
  rw [outgoing, record, List.foldl_append]
  rfl

/-- Null is never stored: saving it deletes, and a child that saved nothing deletes its entry. -/
theorem outgoing_ne_null (a : Account) : Entries.All (fun v => v.isNull = false) a.outgoing := by
  have hcollect : ∀ (s : Saving) (entries : List (Key × Value)),
      Entries.All (fun v => v.isNull = false) entries →
      Entries.All (fun v => v.isNull = false) (s.collect entries) := by
    intro s entries h
    cases s with
    | own name v =>
      rw [Saving.collect, StateTree.save]
      split
      · exact h.erase
      next hv => exact h.insert (Bool.eq_false_iff.2 hv)
    | child k child number =>
      cases child with
      | nil => exact h.erase
      | cons e rest => exact h.insert rfl
  have hfold : ∀ (savings : List Saving) (entries : List (Key × Value)),
      Entries.All (fun v => v.isNull = false) entries →
      Entries.All (fun v => v.isNull = false) (savings.foldl Saving.collect entries) := by
    intro savings
    induction savings with
    | nil => exact fun _ h => h
    | cons s savings ih => exact fun entries h => ih _ (hcollect s entries h)
  exact hfold a.savings [] (List.forall_mem_nil _)

end Account

/-- What happened to frames and state. -/
inductive Event where
  /-- A frame was pushed, under a key or without one. -/
  | entered (key : Option Key)
  /-- The innermost frame saved a value. -/
  | saved (name : String) (v : Value)
  /-- The innermost frame returned to its caller; a map for its state would get this number. -/
  | returned (number : BufferId)
  /-- The root returned; a map for the tree would get this number. -/
  | finished (number : BufferId)
  /-- The innermost frame was taken away. -/
  | dropped
  /-- All frames were taken away. -/
  | cleared
  /-- All frames but the root were taken away. -/
  | unwound
  /-- The root started over. -/
  | restarted
  /-- The tree was replaced from outside. -/
  | replaced (tree : Value)

namespace Event

/-- Whether an event leaves the tree alone. -/
def keepsTree : Event → Bool
  | finished _ | replaced _ => false
  | _ => true

/-- How many frames there are after an event, given how many there were. -/
def depth (d : Nat) : Event → Nat
  | entered _ => d + 1
  | returned _ => if 2 ≤ d then d - 1 else d
  | dropped => d - 1
  | cleared => 0
  | unwound => min d 1
  | _ => d

/-- Whether an event leaves the root of so many frames in place: nobody takes it away or starts it
    over. -/
def sparesRoot (d : Nat) : Event → Bool
  | cleared | restarted => false
  | dropped => decide (d ≠ 1)
  | _ => true

/-- Whether a history leaves the root in place. -/
def spareRoot : Nat → List Event → Bool
  | _, [] => true
  | d, e :: events => e.sparesRoot d && spareRoot (e.depth d) events

/-- Where the root is left in place, frames are not cleared away. -/
theorem cleared_notMem {d : Nat} {events : List Event} (h : spareRoot d events = true) :
    .cleared ∉ events := by
  induction events generalizing d with
  | nil => exact List.not_mem_nil
  | cons e events ih =>
    obtain ⟨he, hevents⟩ := Bool.and_eq_true_iff.1 h
    rw [List.mem_cons, not_or]
    refine ⟨?_, ih hevents⟩
    rintro rfl
    cases he

end Event

/-- The state tree and the accounts of the live frames, the innermost first. -/
structure Ledger where
  tree : Value := .null
  accounts : List Account := []

namespace Ledger

/-- What a new frame reads: the tree for a root, the entry under its key in its parent's tree for a
    keyed child, nothing for others. -/
def incomingFor (l : Ledger) (key : Option Key) : Value :=
  match l.accounts, key with
  | [], _ => l.tree
  | parent :: _, some k => StateTree.child parent.incoming k
  | _ :: _, none => .null

/-- The accounts after the innermost saved something: it counts for a root and under a key. -/
def saveTop (s : Saving) : List Account → List Account
  | [] => []
  | [root] => [root.record s]
  | a :: rest => (if a.key.isSome then a.record s else a) :: rest

/-- What the innermost account saves counts if it is the root or has a key. -/
theorem saveTop_cons (s : Saving) (a : Account) (rest : List Account) :
    saveTop s (a :: rest) = (if rest.isEmpty || a.key.isSome then a.record s else a) :: rest := by
  cases rest <;> rfl

/-- The accounts after the innermost returned to its caller. -/
def returnTop (number : BufferId) : List Account → List Account
  | a :: parent :: rest =>
    (match a.key with
      | some k => parent.record (.child k a.outgoing number)
      | none => parent) :: rest
  | accounts => accounts

/-- The ledger after an event. -/
def post (l : Ledger) : Event → Ledger
  | .entered key => { l with accounts := ⟨key, l.incomingFor key, []⟩ :: l.accounts }
  | .saved name v => { l with accounts := saveTop (.own name v) l.accounts }
  | .returned number => { l with accounts := returnTop number l.accounts }
  | .finished number =>
    match l.accounts with
    | [root] => ⟨(StateTree.ofOutgoing root.outgoing number).1, [{ root with savings := [] }]⟩
    | _ => l
  | .dropped => { l with accounts := l.accounts.tail }
  | .cleared => { l with accounts := [] }
  | .unwound => { l with accounts := l.accounts.drop (l.accounts.length - 1) }
  | .restarted =>
    match l.accounts with
    | [root] => { l with accounts := [{ root with incoming := l.tree, savings := [] }] }
    | _ => l
  | .replaced tree => { l with tree := tree }

/-- The ledger after a history. -/
def replay (l : Ledger) (events : List Event) : Ledger :=
  events.foldl post l

variable {l : Ledger}

/-- An empty history changes nothing. -/
@[simp]
theorem replay_nil : l.replay [] = l := rfl

/-- A history is told event by event. -/
@[simp]
theorem replay_cons (e : Event) (events : List Event) :
    l.replay (e :: events) = (l.post e).replay events := rfl

/-- A history in two parts is told part by part. -/
theorem replay_append (past future : List Event) :
    l.replay (past ++ future) = (l.replay past).replay future :=
  List.foldl_append

/-- An event changes the number of accounts as it changes that of frames. -/
theorem post_length (l : Ledger) (e : Event) :
    (l.post e).accounts.length = e.depth l.accounts.length := by
  obtain ⟨tree, accounts⟩ := l
  cases e with
  | saved | returned | finished | restarted =>
    match accounts with
    | [] => rfl
    | [_] => rfl
    | _ :: _ :: _ => rfl
  | dropped => exact List.length_tail
  | unwound =>
    simp only [post, Event.depth, List.length_drop]
    omega
  | entered | cleared | replaced => rfl

/-! ### The tree -/

/-- **Only two events touch the tree.** A root that returns makes it of what the root saved, and a
    host may replace it. -/
theorem post_tree (l : Ledger) (e : Event) :
    (l.post e).tree = l.tree ∨
      (∃ number root, e = .finished number ∧ l.accounts = [root] ∧
        (l.post e).tree = (StateTree.ofOutgoing root.outgoing number).1) ∨
      ∃ tree, e = .replaced tree ∧ (l.post e).tree = tree := by
  cases e with
  | finished number =>
    rw [post]
    split
    next root haccounts => exact .inr (.inl ⟨number, root, rfl, haccounts, rfl⟩)
    next => exact .inl rfl
  | replaced tree => exact .inr (.inr ⟨tree, rfl, rfl⟩)
  | restarted =>
    rw [post]
    split <;> exact .inl rfl
  | _ => exact .inl rfl

/-- A history without such events leaves the tree alone. -/
theorem replay_tree {events : List Event} (h : ∀ e ∈ events, e.keepsTree = true) :
    (l.replay events).tree = l.tree := by
  induction events generalizing l with
  | nil => rfl
  | cons e events ih =>
    obtain ⟨he, hevents⟩ := List.forall_mem_cons.1 h
    rw [replay_cons, ih hevents]
    rcases l.post_tree e with hkeep | ⟨number, _, rfl, _⟩ | ⟨tree, rfl, _⟩
    · exact hkeep
    · exact nomatch he
    · exact nomatch he

/-! ### Paths -/

/-- The keys that lead from the root to the first of some accounts; `none` when an account on the
    way has no key. -/
def path? : List Account → Option (List Key)
  | a :: parent :: rest => do
    let path ← path? (parent :: rest)
    let k ← a.key
    return path ++ [k]
  | _ => some []

/-- The tree that the root of some accounts reads. -/
def rootIncoming : List Account → Value
  | [] => .null
  | [root] => root.incoming
  | _ :: parent :: rest => rootIncoming (parent :: rest)

/-- Every account but the root reads what its key selects in its parent's tree. -/
def Threaded : List Account → Prop
  | a :: parent :: rest =>
    a.incoming = (match a.key with
      | some k => StateTree.child parent.incoming k
      | none => .null) ∧ Threaded (parent :: rest)
  | _ => True

/-- What a path leads to, null when it leads nowhere. -/
def reached (tree : Value) : Option (List Key) → Value
  | some path => (StateTree.lookup tree path).getD .null
  | none => .null

/-- The tree under a key is one step further along a path. -/
theorem child_reached (tree : Value) (path : List Key) (k : Key) :
    StateTree.child ((StateTree.lookup tree path).getD .null) k =
      (StateTree.lookup tree (path ++ [k])).getD .null := by
  induction path generalizing tree with
  | nil =>
    cases tree with
    | map id entries =>
      simp only [StateTree.lookup, StateTree.child, List.nil_append, Option.getD_some]
      cases Entries.get? k entries <;> rfl
    | _ => rfl
  | cons k' path ih =>
    cases tree with
    | map id entries =>
      simp only [StateTree.lookup, List.cons_append]
      cases Entries.get? k' entries with
      | none => rfl
      | some node => exact ih node
    | _ => rfl

/-- **Accounts read along their paths.** In a threaded ledger an account reads what its path leads
    to in the tree that the root reads. -/
theorem Threaded.incoming {a : Account} {rest : List Account} (h : Threaded (a :: rest)) :
    a.incoming = reached (rootIncoming (a :: rest)) (path? (a :: rest)) := by
  induction rest generalizing a with
  | nil => rfl
  | cons parent rest ih =>
    obtain ⟨hincoming, hrest⟩ := h
    have hparent := ih hrest
    rw [hincoming, path?, rootIncoming]
    cases hpath : path? (parent :: rest) with
    | none =>
      -- a parent that reads nothing has nothing for its children
      rw [hpath] at hparent
      rw [hparent]
      cases a.key <;> rfl
    | some path =>
      rw [hpath] at hparent
      rw [hparent]
      cases a.key with
      | none => rfl
      | some k => exact child_reached _ path k

/-- The callers of an account read along their paths as well. -/
theorem Threaded.tail {accounts : List Account} (h : Threaded accounts) :
    Threaded accounts.tail := by
  match accounts, h with
  | [], _ => trivial
  | [_], _ => trivial
  | _ :: _ :: _, h => exact h.2

/-- Callers further down read along their paths as well. -/
theorem Threaded.drop {accounts : List Account} (h : Threaded accounts) (n : Nat) :
    Threaded (accounts.drop n) := by
  induction n with
  | zero => exact h
  | succ n ih =>
    rw [← List.tail_drop]
    exact ih.tail

/-- Only keys and incoming trees matter. -/
theorem Threaded.congr {a b : Account} {rest : List Account} (h : Threaded (a :: rest))
    (hkey : b.key = a.key) (hincoming : b.incoming = a.incoming) : Threaded (b :: rest) := by
  cases rest with
  | nil => trivial
  | cons parent rest =>
    refine ⟨?_, h.2⟩
    rw [hincoming, hkey]
    exact h.1

/-- No event breaks the path law. -/
theorem Threaded.post (h : Threaded l.accounts) (e : Event) : Threaded (l.post e).accounts := by
  obtain ⟨tree, accounts⟩ := l
  cases e with
  | entered key =>
    match accounts, h with
    | [], _ => trivial
    | parent :: rest, h => cases key <;> exact ⟨rfl, h⟩
  | saved name v =>
    match accounts, h with
    | [], _ => trivial
    | [_], _ => trivial
    | a :: parent :: rest, h =>
      refine h.congr ?_ ?_ <;> split <;> rfl
  | returned number =>
    match accounts, h with
    | [], _ => trivial
    | [_], _ => trivial
    | a :: parent :: rest, h =>
      refine h.2.congr ?_ ?_ <;> split <;> rfl
  | finished number =>
    rw [Ledger.post]
    split
    · trivial
    · exact h
  | dropped => exact h.tail
  | cleared => trivial
  | unwound => exact h.drop _
  | restarted =>
    rw [Ledger.post]
    split
    · trivial
    · exact h
  | replaced tree => exact h

/-- **No history breaks the path law.** -/
theorem Threaded.replay (h : Threaded l.accounts) (events : List Event) :
    Threaded (l.replay events).accounts := by
  induction events generalizing l with
  | nil => exact h
  | cons e events ih => exact ih (h.post e)

/-- An event that spares the root leaves the tree that it reads alone. -/
theorem rootIncoming_post {e : Event} (hroot : l.accounts ≠ [])
    (he : e.sparesRoot l.accounts.length = true) :
    (l.post e).accounts ≠ [] ∧ rootIncoming (l.post e).accounts = rootIncoming l.accounts := by
  have hlast : ∀ (accounts : List Account), accounts ≠ [] →
      accounts.drop (accounts.length - 1) ≠ [] ∧
        rootIncoming (accounts.drop (accounts.length - 1)) = rootIncoming accounts := by
    intro accounts
    induction accounts with
    | nil => exact fun h => absurd rfl h
    | cons a accounts ih =>
      intro _
      cases accounts with
      | nil => exact ⟨nofun, rfl⟩
      | cons b accounts => exact ih nofun
  obtain ⟨tree, accounts⟩ := l
  cases e with
  | entered key =>
    match accounts, hroot with
    | [], hroot => exact absurd rfl hroot
    | _ :: _, _ => exact ⟨nofun, rfl⟩
  | saved name v =>
    match accounts, hroot with
    | [], hroot => exact absurd rfl hroot
    | [_], _ => exact ⟨nofun, rfl⟩
    | _ :: _ :: _, _ => exact ⟨nofun, rfl⟩
  | returned number =>
    match accounts, hroot with
    | [], hroot => exact absurd rfl hroot
    | [_], _ => exact ⟨nofun, rfl⟩
    | a :: [parent], _ =>
      refine ⟨nofun, ?_⟩
      simp only [Ledger.post, returnTop, rootIncoming]
      split <;> rfl
    | _ :: _ :: _ :: _, _ => exact ⟨nofun, rfl⟩
  | finished number =>
    match accounts, hroot with
    | [], hroot => exact absurd rfl hroot
    | [_], _ => exact ⟨nofun, rfl⟩
    | _ :: _ :: _, _ => exact ⟨nofun, rfl⟩
  | dropped =>
    match accounts, hroot, he with
    | [], hroot, _ => exact absurd rfl hroot
    | _ :: _ :: _, _, _ => exact ⟨nofun, rfl⟩
  | unwound => exact hlast accounts hroot
  | replaced tree => exact ⟨hroot, rfl⟩
  | cleared | restarted => exact nomatch he

/-- **The root reads one tree.** As long as the root stays and does not start over, nothing that
    happens changes the tree that it reads, and so the trees that all others read. -/
theorem rootIncoming_replay {events : List Event} (hroot : l.accounts ≠ [])
    (h : Event.spareRoot l.accounts.length events = true) :
    rootIncoming (l.replay events).accounts = rootIncoming l.accounts := by
  induction events generalizing l with
  | nil => rfl
  | cons e events ih =>
    obtain ⟨he, hevents⟩ := (Bool.and_eq_true _ _).mp h
    obtain ⟨hroot', hsame⟩ := rootIncoming_post hroot he
    rw [← post_length] at hevents
    exact (ih hroot' hevents).trans hsame

/-! ### What stays without effect -/

/-- Whether the first of some accounts, or one of its callers, is no root and has no key. -/
def hidden : List Account → Bool
  | a :: parent :: rest => a.key.isNone || hidden (parent :: rest)
  | _ => false

/-- A history without the writes of hidden accounts. -/
def audible (l : Ledger) : List Event → List Event
  | [] => []
  | .saved name v :: events =>
    if hidden l.accounts then audible (l.post (.saved name v)) events
    else .saved name v :: audible (l.post (.saved name v)) events
  | e :: events => e :: audible (l.post e) events

/-- Two stacks of accounts that differ only in what hidden accounts saved. -/
inductive Agree : List Account → List Account → Prop where
  | nil : Agree [] []
  | cons {a b : Account} {as bs : List Account} (key : a.key = b.key)
    (incoming : a.incoming = b.incoming)
    (savings : hidden (a :: as) = true ∨ a.savings = b.savings) (rest : Agree as bs) :
    Agree (a :: as) (b :: bs)

namespace Agree

variable {as bs : List Account}

/-- Accounts agree with themselves. -/
theorem refl : ∀ as : List Account, Agree as as
  | [] => .nil
  | _ :: rest => .cons rfl rfl (.inr rfl) (refl rest)

/-- The callers of accounts that agree do so, too. -/
theorem tail (h : Agree as bs) : Agree as.tail bs.tail := by
  cases h with
  | nil => exact .nil
  | cons _ _ _ rest => exact rest

/-- There are as many accounts on both sides. -/
theorem length_eq (h : Agree as bs) : as.length = bs.length := by
  induction h with
  | nil => rfl
  | cons _ _ _ _ ih => rw [List.length_cons, List.length_cons, ih]

/-- Callers further down agree, too. -/
theorem drop (h : Agree as bs) (n : Nat) : Agree (as.drop n) (bs.drop n) := by
  induction n with
  | zero => exact h
  | succ n ih =>
    rw [← List.tail_drop, ← List.tail_drop]
    exact ih.tail

/-- Accounts that are not hidden saved the same. -/
theorem outgoing_eq {a b : Account} (h : Agree (a :: as) (b :: bs)) (hhidden : hidden (a :: as) = false) :
    a.outgoing = b.outgoing := by
  cases h with
  | cons _ _ savings _ =>
    rcases savings with hyes | heq
    · rw [hhidden] at hyes
      exact nomatch hyes
    · rw [Account.outgoing, Account.outgoing, heq]

/-- One and the same contribution keeps two accounts in agreement. -/
theorem record {a b : Account} (h : Agree (a :: as) (b :: bs)) (s : Saving) :
    Agree (a.record s :: as) (b.record s :: bs) := by
  cases h with
  | cons key incoming savings rest =>
    refine .cons key incoming ?_ rest
    rcases savings with hyes | heq
    · left
      cases as <;> exact hyes
    · right
      rw [Account.record, Account.record, heq]

/-- Whatever hidden accounts save, they stay in agreement. -/
theorem record_hidden {a b : Account} (h : Agree (a :: as) (b :: bs))
    (hhidden : hidden (a :: as) = true) (s : Saving) : Agree (a.record s :: as) (b :: bs) := by
  cases h with
  | cons key incoming _ rest =>
    refine .cons key incoming (.inl ?_) rest
    cases as <;> exact hhidden

end Agree

/-- Two ledgers with the same tree that agree on all accounts but hidden ones. -/
def Similar (l l' : Ledger) : Prop :=
  l.tree = l'.tree ∧ Agree l.accounts l'.accounts

/-- Similar ledgers stay similar when the same happens. -/
theorem Similar.post {l l' : Ledger} (h : Similar l l') (e : Event) :
    Similar (l.post e) (l'.post e) := by
  obtain ⟨tree, accounts⟩ := l
  obtain ⟨tree', accounts'⟩ := l'
  obtain ⟨rfl, h⟩ := h
  dsimp only at h
  cases e with
  | entered key =>
    refine ⟨rfl, .cons rfl ?_ (.inr rfl) h⟩
    cases h with
    | nil => rfl
    | cons _ hincoming _ _ =>
      cases key with
      | none => rfl
      | some k => exact congrArg (StateTree.child · k) hincoming
  | saved name v =>
    refine ⟨rfl, ?_⟩
    cases h with
    | nil => exact .nil
    | cons key incoming savings rest =>
      have h := Agree.cons key incoming savings rest
      cases rest with
      | nil => exact h.record _
      | cons key' incoming' savings' rest' =>
        simp only [Ledger.post, saveTop, key]
        split
        · exact h.record _
        · exact h
  | returned number =>
    refine ⟨rfl, ?_⟩
    cases h with
    | nil => exact .nil
    | @cons a b as bs key incoming savings rest =>
      have h := Agree.cons key incoming savings rest
      cases rest with
      | nil => exact h
      | @cons parent parent' as bs key' incoming' savings' rest' =>
        have hparent := h.tail
        simp only [Ledger.post, returnTop, key]
        cases hkey : b.key with
        | none => exact hparent
        | some k =>
          -- a keyed child of a visible parent is visible, so its outgoing map is the same
          dsimp only
          cases hhidden : hidden (parent :: as) with
          | true =>
            cases hparent with
            | cons key' incoming' _ rest' =>
              refine .cons key' incoming' (.inl ?_) rest'
              cases as <;> exact hhidden
          | false =>
            have hvisible : hidden (a :: parent :: as) = false := by
              rw [hidden, key, hkey, hhidden]
              rfl
            rw [h.outgoing_eq hvisible]
            exact hparent.record _
  | finished number =>
    cases h with
    | nil => exact ⟨rfl, .nil⟩
    | cons key incoming savings rest =>
      have h := Agree.cons key incoming savings rest
      cases rest with
      | nil =>
        -- a root is never hidden
        refine ⟨?_, .cons key incoming (.inr rfl) .nil⟩
        simp only [Ledger.post]
        rw [h.outgoing_eq rfl]
      | cons => exact ⟨rfl, h⟩
  | dropped => exact ⟨rfl, h.tail⟩
  | cleared => exact ⟨rfl, .nil⟩
  | unwound =>
    refine ⟨rfl, ?_⟩
    simp only [Ledger.post, h.length_eq]
    exact h.drop _
  | restarted =>
    cases h with
    | nil => exact ⟨rfl, .nil⟩
    | cons key incoming savings rest =>
      have h := Agree.cons key incoming savings rest
      cases rest with
      | nil => exact ⟨rfl, .cons key rfl (.inr rfl) .nil⟩
      | cons => exact ⟨rfl, h⟩
  | replaced tree => exact ⟨rfl, h⟩

/-- A write of a hidden account changes nothing that others see. -/
theorem Similar.post_hidden {l l' : Ledger} (h : Similar l l') (hhidden : hidden l.accounts = true)
    (name : String) (v : Value) : Similar (l.post (.saved name v)) l' := by
  refine ⟨h.1, ?_⟩
  have hagree := h.2
  show Agree (saveTop (.own name v) l.accounts) l'.accounts
  revert hagree hhidden
  generalize l.accounts = as
  generalize l'.accounts = bs
  intro hhidden hagree
  cases hagree with
  | nil => exact .nil
  | cons key incoming savings rest =>
    have hagree := Agree.cons key incoming savings rest
    cases rest with
    | nil => exact nomatch hhidden
    | cons key' incoming' savings' rest' =>
      rw [saveTop]
      split
      · exact hagree.record_hidden hhidden _
      · exact hagree
      · exact nofun

/-- **What is saved at or below an account without key never reaches the tree.** A history gives the
    same tree without these writes. -/
theorem replay_audible (l : Ledger) (events : List Event) :
    (l.replay (l.audible events)).tree = (l.replay events).tree := by
  have hsimilar : ∀ (events : List Event) (l l' : Ledger), Similar l l' →
      Similar (l.replay events) (l'.replay (l.audible events)) := by
    intro events
    induction events with
    | nil => exact fun _ _ h => h
    | cons e events ih =>
      intro l l' h
      cases e with
      | saved name v =>
        rw [audible]
        cases hhidden : hidden l.accounts with
        | true => exact ih _ _ (h.post_hidden hhidden name v)
        | false => exact ih _ _ (h.post _)
      | _ => exact ih _ _ (h.post _)
  exact (hsimilar events l l ⟨rfl, .refl _⟩).1.symm

end Ledger

end BlockMachine
