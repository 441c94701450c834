import BlockMachine.Proofs.Json.Numerals

namespace BlockMachine

namespace JsonTree

/-!
# Reading written JSON

A tree can be written if its numbers are numerals and all its strings have a text. What is
written for such a tree reads back as that tree.

* `JsonTree.Writable` says which trees can be written;
* `JsonTree.string?_quote`, `JsonTree.items?_write` and `JsonTree.members?_write` read parts of a
  text;
* `JsonTree.parse?_pretty` reads the whole text.
-/

/-! ### Strings -/

/-- A piece of a written string that stands for a character: the character itself, or the unit of
    a control character. -/
def Piece.Names (c : Char) (p : Piece) : Prop :=
  p = .char c ∨ p = .unit c.toNat ∧ c.toNat < 32

/-- A piece that names a character adds it to the string. -/
theorem join?_cons {c : Char} {p : Piece} (h : p.Names c) (ps : List Piece) :
    join? (p :: ps) = (join? ps).map (c :: ·) := by
  obtain rfl | ⟨rfl, hc⟩ := h
  · rfl
  · have hlow : c.toNat < 0xD800 := Nat.lt_trans hc (by decide)
    rw [join?.eq_def]
    simp [hlow]

/-- The digits of a control character in a written string. -/
theorem hex4?_control {n : Nat} (hn : n < 32) :
    hex4? '0' '0' (Hex.digit (n / 16)) (Hex.digit (n % 16)) = some n := by
  revert n
  decide

/-- A character that needs no escape is a piece. -/
theorem pieces?_char {c : Char} (hquote : c ≠ '"') (hslash : c ≠ '\\') (hc : 32 ≤ c.toNat)
    (rest : List Char) :
    pieces? (c :: rest) = (pieces? rest).map fun r => (.char c :: r.1, r.2) := by
  rw [pieces?.eq_def]
  simp [hquote, hslash, Nat.not_lt.2 hc, Option.map_eq_bind, Function.comp_def]

/-- A short escape is a piece. -/
theorem pieces?_short {e c : Char} (he : e ≠ 'u') (hc : shortEscape? e = some c)
    (rest : List Char) :
    pieces? ('\\' :: e :: rest) = (pieces? rest).map fun r => (.char c :: r.1, r.2) := by
  rw [pieces?.eq_def]
  simp [hc, he, Option.map_eq_bind, Function.comp_def]

/-- An escape by four digits is a piece. -/
theorem pieces?_unit {a b c d : Char} {n : Nat} (hn : hex4? a b c d = some n) (rest : List Char) :
    pieces? ('\\' :: 'u' :: a :: b :: c :: d :: rest) =
      (pieces? rest).map fun r => (.unit n :: r.1, r.2) := by
  rw [pieces?.eq_def]
  simp [hn, Option.map_eq_bind, Function.comp_def]

/-- An escaped character is read as one piece that stands for it. -/
theorem pieces?_escape (c : Char) (rest : List Char) :
    ∃ p : Piece, p.Names c ∧
      pieces? ((escape c).toList ++ rest) = (pieces? rest).map fun r => (p :: r.1, r.2) := by
  have short {e : Char} (he : e ≠ 'u') (hc : shortEscape? e = some c) :
      ∃ p : Piece, p.Names c ∧
        pieces? ('\\' :: e :: rest) = (pieces? rest).map fun r => (p :: r.1, r.2) :=
    ⟨.char c, .inl rfl, pieces?_short he hc rest⟩
  have named {n : Nat} (h : c.toNat = n) : Char.ofNat n = c := by
    rw [← h, Char.ofNat_toNat]
  unfold escape
  by_cases hquote : c = '"'
  · subst hquote
    exact short (by decide) rfl
  by_cases hslash : c = '\\'
  · subst hslash
    exact short (by decide) rfl
  by_cases hback : c.toNat = 8
  · simpa [hquote, hslash, hback] using @short 'b' (by decide) (congrArg some (named hback))
  by_cases htab : c = '\t'
  · subst htab
    exact short (by decide) rfl
  by_cases hline : c = '\n'
  · subst hline
    exact short (by decide) rfl
  by_cases hfeed : c.toNat = 12
  · simpa [hquote, hslash, htab, hline, hfeed] using
      @short 'f' (by decide) (congrArg some (named hfeed))
  by_cases hreturn : c = '\r'
  · subst hreturn
    exact short (by decide) rfl
  by_cases hcontrol : c.toNat < 32
  · refine ⟨.unit c.toNat, .inr ⟨rfl, hcontrol⟩, ?_⟩
    have hbyte : (UInt8.ofNat c.toNat).toNat = c.toNat :=
      UInt8.toNat_ofNat_of_lt (Nat.lt_trans hcontrol (by decide))
    have := pieces?_unit (hex4?_control hcontrol) rest
    simpa [hquote, hslash, hback, htab, hline, hfeed, hreturn, hcontrol, Hex.encode, Hex.digits, hbyte] using this
  · refine ⟨.char c, .inl rfl, ?_⟩
    have := pieces?_char hquote hslash (Nat.le_of_not_lt hcontrol) rest
    simpa [hquote, hslash, hback, htab, hline, hfeed, hreturn, hcontrol] using this

/-- The characters of a string between quotes. -/
theorem toList_quote (s : String) :
    (quote s).toList = '"' :: (s.toList.flatMap fun c => (escape c).toList) ++ ['"'] := by
  have hfold (cs : List Char) (acc : String) :
      (cs.foldl (fun acc c => acc ++ escape c) acc).toList =
        acc.toList ++ cs.flatMap fun c => (escape c).toList := by
    induction cs generalizing acc with
    | nil => simp
    | cons c cs ih => simp [ih]
  simp [quote, String.foldl_eq_foldl_toList, hfold]

/-- The text of a string is read in pieces that name its characters. -/
theorem pieces?_quote (cs rest : List Char) :
    ∃ ps, pieces? ((cs.flatMap fun c => (escape c).toList) ++ '"' :: rest) = some (ps, rest) ∧
      join? ps = some cs := by
  induction cs with
  | nil => exact ⟨[], by simp [pieces?.eq_def], rfl⟩
  | cons c cs ih =>
    obtain ⟨ps, hps, hjoin⟩ := ih
    obtain ⟨p, hp, hread⟩ :=
      pieces?_escape c ((cs.flatMap fun c => (escape c).toList) ++ '"' :: rest)
    refine ⟨p :: ps, ?_, ?_⟩
    · simp [hread, hps]
    · simp [join?_cons hp, hjoin]

/-- A written string is read as its text. -/
theorem string?_quote (s : String) :
    ∃ body, (quote s).toList = '"' :: body ∧
      ∀ rest, string? (body ++ rest) = some (some s, rest) := by
  refine ⟨_, toList_quote s, fun rest => ?_⟩
  obtain ⟨ps, hps, hjoin⟩ := pieces?_quote s.toList rest
  simp [string?, hps, hjoin]

/-! ### Blanks -/

/-- A new line is followed by two blanks for each level. -/
theorem toList_newline (level : Nat) :
    (newline level).toList = '\n' :: List.replicate (2 * level) ' ' := by
  simp [newline, toList_pushn]

/-- A new line takes one character and two for each level. -/
theorem length_newline (level : Nat) : (newline level).length = 2 * level + 1 := by
  simp [← String.length_toList, toList_newline]

/-- A new line and its blanks are skipped. -/
theorem skipBlanks_newline (level : Nat) (cs : List Char) :
    skipBlanks ((newline level).toList ++ cs) = skipBlanks cs := by
  have hblank : ∀ c ∈ (newline level).toList,
      (c = ' ' || c = '\n' || c = '\t' || c = '\r') = true := by
    simp [toList_newline, List.mem_replicate]
  exact List.dropWhile_append_of_pos hblank

/-- Nothing is dropped in front of a character that is not a blank. -/
theorem skipBlanks_cons {c : Char} (hc : (c = ' ' || c = '\n' || c = '\t' || c = '\r') = false)
    (cs : List Char) : skipBlanks (c :: cs) = c :: cs := by
  simp [skipBlanks, hc]

/-- A new line is skipped before a value. -/
theorem value?_newline (fuel level : Nat) (cs : List Char) :
    value? fuel ((newline level).toList ++ cs) = value? fuel cs := by
  cases fuel with
  | zero => simp [value?]
  | succ fuel => simp only [value?, skipBlanks_newline]

/-- A blank is skipped before a value. -/
theorem value?_space (fuel : Nat) (cs : List Char) : value? fuel (' ' :: cs) = value? fuel cs := by
  cases fuel with
  | zero => simp [value?]
  | succ fuel => simp [value?, skipBlanks]

/-- A new line is skipped before an item. -/
theorem items?_newline (fuel level : Nat) (cs : List Char) :
    items? fuel ((newline level).toList ++ cs) = items? fuel cs := by
  cases fuel with
  | zero => simp [items?]
  | succ fuel => simp only [items?, value?_newline]

/-- A new line is skipped before a member. -/
theorem members?_newline (fuel level : Nat) (cs : List Char) :
    members? fuel ((newline level).toList ++ cs) = members? fuel cs := by
  cases fuel with
  | zero => simp [members?]
  | succ fuel => simp only [members?, skipBlanks_newline]

/-! ### Trees -/

/-- A tree whose numbers are numerals and whose strings all have a text. -/
inductive Writable : JsonTree → Prop where
  | null : Writable null
  | bool (b : Bool) : Writable (bool b)
  | number {spelling : String} (h : Numeral spelling.toList) : Writable (number spelling)
  | text (s : String) : Writable (text s)
  | array {items : List JsonTree} (h : ∀ v ∈ items, Writable v) : Writable (array items)
  | object {members : List (Option String × JsonTree)} (names : ∀ m ∈ members, m.1.isSome = true)
    (h : ∀ m ∈ members, Writable m.2) : Writable (object members)

/-- A tree is read from its text with fuel for two steps a character. -/
def ReadsBack (j : JsonTree) : Prop :=
  ∀ (level : Nat) {fuel : Nat} {rest : List Char}, AtBreak rest →
    2 * (write level j).length ≤ fuel → value? fuel ((write level j).toList ++ rest) = some (j, rest)

/-- A numeral ends before a new line. -/
theorem atBreak_newline (level : Nat) (cs : List Char) : AtBreak ((newline level).toList ++ cs) := by
  simp [AtBreak, toList_newline]

/-- The items of an array are read up to its closing bracket. -/
theorem items?_write {level : Nat} (outer : Nat) {v : JsonTree} {vs : List JsonTree}
    (h : ∀ w ∈ v :: vs, ReadsBack w) {fuel : Nat} (rest : List Char)
    (hfuel : 2 * (write level v).length + 2 * (writeItems level vs).length + 1 ≤ fuel) :
    items? fuel ((write level v).toList ++ ((writeItems level vs).toList ++
      ((newline outer).toList ++ ']' :: rest))) = some (v :: vs, rest) := by
  obtain ⟨fuel, rfl⟩ : ∃ n, fuel = n + 1 := ⟨fuel - 1, by omega⟩
  induction vs generalizing v fuel with
  | nil =>
    have hread := h v List.mem_cons_self level (atBreak_newline outer (']' :: rest))
      (by omega : _ ≤ fuel)
    simp only [writeItems, items?]
    simp [hread, skipBlanks_newline, skipBlanks_cons]
  | cons w ws ih =>
    have hlength : (writeItems level (w :: ws)).length =
        1 + (newline level).length + (write level w).length + (writeItems level ws).length := by
      simp only [writeItems, String.length_append]
      rfl
    have hbreak : AtBreak ((writeItems level (w :: ws)).toList ++
        ((newline outer).toList ++ ']' :: rest)) := by
      simp [AtBreak, writeItems]
    have hread := h v List.mem_cons_self level hbreak (by omega : _ ≤ fuel)
    obtain ⟨fuel, rfl⟩ : ∃ n, fuel = n + 1 := ⟨fuel - 1, by omega⟩
    have hrest := ih (fun x hx => h x (List.mem_cons_of_mem _ hx)) fuel (by omega)
    rw [items?, hread]
    simp [writeItems, skipBlanks_cons, items?_newline, hrest]

/-- A member in front of a comma is read, and then the others. -/
theorem members?_more (name : String) {fuel : Nat} {cs rest : List Char} {v : JsonTree}
    (h : value? fuel cs = some (v, ',' :: rest)) :
    members? (fuel + 1) ((quote name).toList ++ ':' :: ' ' :: cs) =
      (members? fuel rest).map fun r => ((some name, v) :: r.1, r.2) := by
  obtain ⟨body, hbody, hname⟩ := string?_quote name
  simp [members?, hbody, hname, skipBlanks_cons, value?_space, h, Option.map_eq_bind,
    Function.comp_def]

/-- A member in front of the closing brace is the last. -/
theorem members?_last (name : String) {fuel outer : Nat} {cs rest : List Char} {v : JsonTree}
    (h : value? fuel cs = some (v, (newline outer).toList ++ '\x7d' :: rest)) :
    members? (fuel + 1) ((quote name).toList ++ ':' :: ' ' :: cs) =
      some ([(some name, v)], rest) := by
  obtain ⟨body, hbody, hname⟩ := string?_quote name
  simp [members?, hbody, hname, skipBlanks_cons, value?_space, h, skipBlanks_newline]

/-- The members of an object are read up to its closing brace. -/
theorem members?_write {level : Nat} (outer : Nat) {name : String} {v : JsonTree}
    {ms : List (Option String × JsonTree)} (names : ∀ m ∈ ms, m.1.isSome = true)
    (h : ∀ m ∈ (some name, v) :: ms, ReadsBack m.2) {fuel : Nat} (rest : List Char)
    (hfuel : 2 * (write level v).length + 2 * (writeMembers level ms).length + 1 ≤ fuel) :
    members? fuel ((quote name).toList ++ ':' :: ' ' :: ((write level v).toList ++
      ((writeMembers level ms).toList ++ ((newline outer).toList ++ '\x7d' :: rest)))) =
        some ((some name, v) :: ms, rest) := by
  obtain ⟨fuel, rfl⟩ : ∃ n, fuel = n + 1 := ⟨fuel - 1, by omega⟩
  induction ms generalizing name v fuel with
  | nil =>
    have hread := h (some name, v) List.mem_cons_self level
      (atBreak_newline outer ('\x7d' :: rest)) (by simp only; omega : _ ≤ fuel)
    simpa [writeMembers] using members?_last name hread
  | cons m ms ih =>
    obtain ⟨name', w⟩ := m
    obtain ⟨next, rfl⟩ := Option.isSome_iff_exists.1 (names _ List.mem_cons_self)
    have hlength : 1 + (write level w).length + (writeMembers level ms).length ≤
        (writeMembers level ((some next, w) :: ms)).length := by
      simp only [writeMembers, String.length_append]
      have : ",".length = 1 := rfl
      omega
    have hbreak : AtBreak ((writeMembers level ((some next, w) :: ms)).toList ++
        ((newline outer).toList ++ '\x7d' :: rest)) := by
      simp [AtBreak, writeMembers]
    have hread := h (some name, v) List.mem_cons_self level hbreak (by simp only; omega : _ ≤ fuel)
    obtain ⟨fuel, rfl⟩ : ∃ n, fuel = n + 1 := ⟨fuel - 1, by omega⟩
    have hrest := ih (fun x hx => names x (List.mem_cons_of_mem _ hx))
      (fun x hx => h x (List.mem_cons_of_mem _ hx)) fuel (by omega)
    simp only [writeMembers, String.toList_append, List.append_assoc, Option.getD_some] at hread ⊢
    rw [members?_more name hread]
    simp [members?_newline, hrest]

/-- A numeral starts with a sign or a digit. -/
theorem front_numeral {cs : List Char} (h : Numeral cs) :
    ∃ c tail, cs = c :: tail ∧ (c = '-' ∨ c.isDigit = true) := by
  obtain ⟨hsign, ⟨hwhole, -, -⟩⟩ := h
  obtain rfl | rfl := hsign
  · obtain ⟨d, ds, rfl⟩ := List.exists_cons_of_ne_nil hwhole.nonempty
    exact ⟨d, _, rfl, .inr (hwhole.digits d List.mem_cons_self)⟩
  · exact ⟨'-', _, rfl, .inl rfl⟩

/-- A numeral is read up to where it ends. -/
theorem value?_number {cs rest : List Char} (h : Numeral cs) (hrest : AtBreak rest) (fuel : Nat) :
    value? (fuel + 1) (cs ++ rest) = some (number (String.ofList cs), rest) := by
  have hread := number?_append h hrest
  obtain ⟨c, tail, rfl, hc⟩ := front_numeral h
  have hother {d : Char} (hd : d ≠ '-' ∧ d.isDigit = false) : c ≠ d := by
    rintro rfl
    simp_all
  have hblank : (c = ' ' || c = '\n' || c = '\t' || c = '\r') = false := by
    simp [hother]
  simp only [value?, List.cons_append, skipBlanks_cons hblank]
  rw [List.cons_append] at hread
  simp [hother, hread]

/-- A written tree starts with a character that is neither a blank nor a closing bracket. -/
theorem Writable.front {j : JsonTree} (h : j.Writable) (level : Nat) :
    ∃ c ∈ (write level j).toList.head?, c ∉ [']', ' ', '\n', '\t', '\r'] := by
  cases h with
  | null => exact ⟨'n', by simp [write], by decide⟩
  | bool b =>
    cases b with
    | false => exact ⟨'f', by simp [write], by decide⟩
    | true => exact ⟨'t', by simp [write], by decide⟩
  | number hs =>
    obtain ⟨c, tail, hcs, hc⟩ := front_numeral hs
    refine ⟨c, by simp [write, hcs], ?_⟩
    obtain rfl | hc := hc
    · decide
    · intro hmem
      simp only [List.mem_cons, List.not_mem_nil, or_false] at hmem
      obtain rfl | rfl | rfl | rfl | rfl := hmem <;> exact absurd hc (by decide)
  | text s => exact ⟨'"', by simp [write, toList_quote], by decide⟩
  | @array items _ =>
    cases items with
    | nil => exact ⟨'[', by simp [write], by decide⟩
    | cons v vs => exact ⟨'[', by simp [write], by decide⟩
  | @object members _ _ =>
    cases members with
    | nil => exact ⟨'\x7b', by simp [write], by decide⟩
    | cons m ms => exact ⟨'\x7b', by simp [write], by decide⟩

/-- The text of a tree is not empty, so there is fuel for a first step. -/
theorem ReadsBack.of_succ {j : JsonTree} (hj : j.Writable)
    (h : ∀ (level fuel : Nat) (rest : List Char), AtBreak rest →
      2 * (write level j).length ≤ fuel + 1 →
        value? (fuel + 1) ((write level j).toList ++ rest) = some (j, rest)) : ReadsBack j := by
  intro level fuel rest hrest hfuel
  obtain ⟨c, hc, -⟩ := hj.front level
  have hlength : 0 < (write level j).length := by
    rw [← String.length_toList]
    exact List.length_pos_of_mem (List.mem_of_head? hc)
  obtain ⟨fuel, rfl⟩ : ∃ n, fuel = n + 1 := ⟨fuel - 1, by omega⟩
  exact h level fuel rest hrest hfuel

/-- The items behind an opening bracket are read. -/
theorem value?_array {v : JsonTree} {vs : List JsonTree} (hv : v.Writable) {level fuel : Nat}
    {cs rest : List Char} (h : items? fuel ((write level v).toList ++ cs) = some (v :: vs, rest)) :
    value? (fuel + 1) ('[' :: ((newline level).toList ++ ((write level v).toList ++ cs))) =
      some (array (v :: vs), rest) := by
  obtain ⟨c, hc, hfront⟩ := hv.front level
  obtain ⟨tail, htail⟩ := List.head?_eq_some_iff.1 hc
  simp only [List.mem_cons, List.not_mem_nil, not_or] at hfront
  rw [htail, List.cons_append] at h
  simp [value?, htail, skipBlanks_cons, skipBlanks_newline, hfront, h]

/-- The members behind an opening brace are read. -/
theorem value?_object {name : String} {level fuel : Nat} {cs rest : List Char}
    {ms : List (Option String × JsonTree)}
    (h : members? fuel ((quote name).toList ++ cs) = some (ms, rest)) :
    value? (fuel + 1) ('\x7b' :: ((newline level).toList ++ ((quote name).toList ++ cs))) =
      some (object ms, rest) := by
  obtain ⟨body, hbody, -⟩ := string?_quote name
  rw [hbody, List.cons_append] at h
  simp [value?, hbody, skipBlanks_cons, skipBlanks_newline, h]

/-- A tree that can be written is read from its text. -/
theorem Writable.readsBack {j : JsonTree} (h : j.Writable) : ReadsBack j := by
  induction h with
  | null =>
    refine .of_succ .null fun level fuel rest _ _ => ?_
    simp [write, value?, skipBlanks_cons, word?]
  | bool b =>
    refine .of_succ (.bool b) fun level fuel rest _ _ => ?_
    cases b <;> simp [write, value?, skipBlanks_cons, word?]
  | number hs =>
    refine .of_succ (.number hs) fun level fuel rest hrest _ => ?_
    simpa [write] using value?_number hs hrest fuel
  | text s =>
    refine .of_succ (.text s) fun level fuel rest _ _ => ?_
    obtain ⟨body, hbody, hs⟩ := string?_quote s
    simp [write, value?, skipBlanks_cons, hbody, hs]
  | @array items hitems ih =>
    refine .of_succ (.array hitems) fun level fuel rest _ hfuel => ?_
    cases items with
    | nil => simp [write, value?, skipBlanks_cons]
    | cons v vs =>
      have hitemsFuel : 2 * (write (level + 1) v).length +
          2 * (writeItems (level + 1) vs).length + 1 ≤ fuel := by
        simp only [write, String.length_append, length_newline] at hfuel
        omega
      have hread := items?_write level ih rest hitemsFuel
      simpa [write] using value?_array (hitems v List.mem_cons_self) hread
  | @object members names hmembers ih =>
    refine .of_succ (.object names hmembers) fun level fuel rest _ hfuel => ?_
    cases members with
    | nil => simp [write, value?, skipBlanks_cons]
    | cons m ms =>
      obtain ⟨name?, v⟩ := m
      obtain ⟨name, rfl⟩ := Option.isSome_iff_exists.1 (names _ List.mem_cons_self)
      have hmembersFuel : 2 * (write (level + 1) v).length +
          2 * (writeMembers (level + 1) ms).length + 1 ≤ fuel := by
        simp only [write, String.length_append, length_newline] at hfuel
        omega
      have hread := members?_write level (fun m hm => names m (List.mem_cons_of_mem _ hm)) ih rest
        hmembersFuel
      simpa [write] using value?_object hread

/-- A written tree reads back as that tree. -/
theorem parse?_pretty {j : JsonTree} (h : j.Writable) : parse? (pretty j) = some j := by
  have hend : AtBreak [] := by simp [AtBreak]
  have hfuel : 2 * (write 0 j).length ≤ 2 * (write 0 j).toList.length + 2 := by
    rw [String.length_toList]
    omega
  have hread := h.readsBack 0 hend hfuel
  rw [List.append_nil] at hread
  simp only [parse?, pretty]
  rw [hread]
  rfl

end JsonTree

end BlockMachine
