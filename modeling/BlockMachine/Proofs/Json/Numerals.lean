import BlockMachine.State.Format

namespace BlockMachine

/-!
# Numbers in JSON texts

A numeral is a number as JSON spells it: a whole part without needless zeros, then perhaps a
fraction and an exponent. What is written for an integer or a finite float is a numeral, and a
numeral is read to its last character whatever ends it.

* `Numeral` is the grammar;
* `JsonTree.number?_append`: a numeral in front of a break is read as it stands;
* `numeral_toString` and `FloatLayout.numeral_write`: what is written is a numeral;
* `JsonNumber.int?_toString`: the digits of a 64-bit integer stand for that integer.
-/

/-! ### The grammar -/

/-- One or more decimal digits. -/
structure IsDigits (cs : List Char) : Prop where
  nonempty : cs ≠ []
  digits : ∀ c ∈ cs, c.isDigit = true

/-- Digits without a needless zero in front. -/
structure IsWhole (cs : List Char) : Prop extends IsDigits cs where
  lean : cs.head? = some '0' → cs.length = 1

/-- Nothing, or a minus sign. -/
def IsSign (cs : List Char) : Prop :=
  cs = [] ∨ cs = ['-']

/-- Nothing, or a point and digits. -/
def IsFraction (cs : List Char) : Prop :=
  cs = [] ∨ ∃ ds, IsDigits ds ∧ cs = '.' :: ds

/-- Nothing, or an exponent with an optional sign. -/
def IsExponent (cs : List Char) : Prop :=
  cs = [] ∨ ∃ sign ds, (sign = [] ∨ sign = ['+'] ∨ sign = ['-']) ∧ IsDigits ds ∧
    cs = 'e' :: (sign ++ ds)

/-- A number without a sign. -/
inductive Magnitude : List Char → Prop where
  | intro {whole fraction exponent : List Char} (hwhole : IsWhole whole)
    (hfraction : IsFraction fraction) (hexponent : IsExponent exponent) :
    Magnitude (whole ++ (fraction ++ exponent))

/-- A number as JSON spells it. -/
inductive Numeral : List Char → Prop where
  | intro {sign magnitude : List Char} (hsign : IsSign sign) (hmagnitude : Magnitude magnitude) :
    Numeral (sign ++ magnitude)

/-- A text that is at its end, at a comma or at the end of a line. -/
def AtBreak (cs : List Char) : Prop :=
  ∀ c ∈ cs.head?, c = ',' ∨ c = '\n'

/-! ### Reading numerals -/

namespace JsonTree

/-- Digits end at the first character that is none. -/
theorem span_digits {ds rest : List Char} (hds : IsDigits ds)
    (hrest : ∀ c ∈ rest.head?, c.isDigit = false) :
    (ds ++ rest).takeWhile Char.isDigit = ds ∧ (ds ++ rest).dropWhile Char.isDigit = rest := by
  rw [List.takeWhile_append_of_pos hds.digits, List.dropWhile_append_of_pos hds.digits]
  cases rest with
  | nil => simp
  | cons c cs => simp [hrest c rfl]

/-- Digits are read as far as they go. -/
theorem digits?_append {ds rest : List Char} (hds : IsDigits ds)
    (hrest : ∀ c ∈ rest.head?, c.isDigit = false) : digits? (ds ++ rest) = some (ds, rest) := by
  obtain ⟨htake, hdrop⟩ := span_digits hds hrest
  simp [digits?, htake, hdrop, hds.nonempty]

/-- No digit follows a break. -/
theorem not_isDigit_of_atBreak {rest : List Char} (h : AtBreak rest) :
    ∀ c ∈ rest.head?, c.isDigit = false := by
  intro c hc
  obtain rfl | rfl := h c hc <;> rfl

/-- A sign is read, and no other one behind it. -/
theorem sign_append {cs tail : List Char} (hcs : IsSign cs) (htail : tail.head? ≠ some '-') :
    sign (cs ++ tail) = (cs, tail) := by
  obtain rfl | rfl := hcs
  · unfold sign
    split <;> simp_all
  · rfl

/-- A fraction is read up to the first character that is not a digit. -/
theorem fraction?_append {cs tail : List Char} (hcs : IsFraction cs)
    (htail : ∀ c ∈ tail.head?, c.isDigit = false ∧ c ≠ '.') :
    fraction? (cs ++ tail) = some (cs, tail) := by
  obtain rfl | ⟨ds, hds, rfl⟩ := hcs
  · unfold fraction?
    split <;> simp_all
  · simp [fraction?, digits?_append hds fun c hc => (htail c hc).1]

/-- An exponent in front of a break is read as it stands. -/
theorem exponent?_append {cs rest : List Char} (hcs : IsExponent cs) (hrest : AtBreak rest) :
    exponent? (cs ++ rest) = some (cs, rest) := by
  obtain rfl | ⟨sign, ds, hsign, hds, rfl⟩ := hcs
  · cases rest with
    | nil => rfl
    | cons c tail => obtain rfl | rfl := hrest c rfl <;> rfl
  · have hdigits := digits?_append hds (not_isDigit_of_atBreak hrest)
    obtain rfl | rfl | rfl := hsign
    · obtain ⟨d, ds, rfl⟩ := List.exists_cons_of_ne_nil hds.nonempty
      have hd := hds.digits d List.mem_cons_self
      unfold exponent?
      simp
      split <;> simp_all
    · simp [exponent?, hdigits]
    · simp [exponent?, hdigits]

/-- A numeral in front of a break is read as it stands. -/
theorem number?_append {cs rest : List Char} (hcs : Numeral cs) (hrest : AtBreak rest) :
    number? (cs ++ rest) = some (cs, rest) := by
  obtain ⟨hsign, @⟨whole, fraction, exponent, hwhole, hfraction, hexponent⟩⟩ := hcs
  -- what can stand at the front of the text after each part
  have hlast : ∀ c ∈ (exponent ++ rest).head?, c = 'e' ∨ c = ',' ∨ c = '\n' := by
    obtain rfl | ⟨sign, ds, _, _, rfl⟩ := hexponent
    · exact fun c hc => .inr (hrest c hc)
    · simp
  have hinner : ∀ c ∈ (fraction ++ (exponent ++ rest)).head?, c.isDigit = false := by
    obtain rfl | ⟨ds, _, rfl⟩ := hfraction
    · intro c hc
      obtain rfl | rfl | rfl := hlast c hc <;> rfl
    · simp
  have hfront : (whole ++ (fraction ++ (exponent ++ rest))).head? ≠ some '-' := by
    obtain ⟨d, ds, rfl⟩ := List.exists_cons_of_ne_nil hwhole.nonempty
    rintro hd
    obtain rfl : d = '-' := by simpa using hd
    simpa using hwhole.digits '-'
  have hlean : ¬(whole.head? = some '0' ∧ 1 < whole.length) := fun h => by
    have := hwhole.lean h.1
    omega
  have htail : ∀ c ∈ (exponent ++ rest).head?, c.isDigit = false ∧ c ≠ '.' := by
    intro c hc
    obtain rfl | rfl | rfl := hlast c hc <;> decide
  simp [number?, sign_append hsign hfront, digits?_append hwhole.toIsDigits hinner, hlean,
    fraction?_append hfraction htail, exponent?_append hexponent hrest]

end JsonTree

/-! ### Writing numerals -/

/-- The decimal digits of a positive number do not start with a zero. -/
theorem head?_toDigits_ne {n : Nat} (hn : 0 < n) : (Nat.toDigits 10 n).head? ≠ some '0' := by
  induction n using Nat.strongRecOn with
  | _ n ih =>
    rw [Nat.toDigits_eq_if (by decide)]
    split
    · simp
      omega
    · have hrest := ih (n / 10) (by omega) (by omega)
      obtain ⟨c, cs, hcs⟩ := List.exists_cons_of_ne_nil (Nat.toDigits_ne_nil (n := n / 10) (b := 10))
      rw [hcs] at hrest ⊢
      exact hrest

/-- A whole part alone is a magnitude. -/
theorem IsWhole.magnitude {cs : List Char} (h : IsWhole cs) : Magnitude cs := by
  simpa using Magnitude.intro h (.inl rfl) (.inl rfl)

/-- A number is written in digits. -/
theorem isDigits_toDigits (n : Nat) : IsDigits (Nat.toDigits 10 n) where
  nonempty := Nat.toDigits_ne_nil
  digits _ hc := Nat.isDigit_of_mem_toDigits (by decide) (by decide) hc

/-- The digits of a number begin with zero only if the number is zero. -/
theorem isWhole_toDigits (n : Nat) : IsWhole (Nat.toDigits 10 n) where
  toIsDigits := isDigits_toDigits n
  lean h := by
    obtain rfl | hn := Nat.eq_zero_or_pos n
    · rfl
    · exact absurd h (head?_toDigits_ne hn)

/-- The characters of a written integer: a sign if it is negative, and its digits. -/
theorem toList_toString_int (i : Int) :
    (toString i).toList = (if i < 0 then ['-'] else []) ++ Nat.toDigits 10 i.natAbs := by
  cases i with
  | ofNat n => simp [Int.toString_eq_repr, Int.repr, Nat.repr_eq_ofList_toDigits]
  | negSucc n => simp [Int.toString_eq_repr, Int.repr, Nat.repr_eq_ofList_toDigits]

/-- A written integer is a numeral. -/
theorem numeral_toString (i : Int) : Numeral (toString i).toList := by
  have hsign : IsSign (if i < 0 then ['-'] else []) := by
    unfold IsSign
    split <;> simp
  rw [toList_toString_int]
  exact .intro hsign (isWhole_toDigits i.natAbs).magnitude

/-- A character that is pushed several times stands there so often. -/
theorem toList_pushn (c : Char) (n : Nat) : ("".pushn c n).toList = List.replicate n c := by
  rw [String.pushn_eq_repeat_push]
  induction n with
  | zero => rfl
  | succ n ih => simp [Nat.repeat, ih, List.replicate_succ']

namespace IsDigits

variable {ds es : List Char}

/-- Digits that do not start with a zero are a whole part. -/
theorem whole (h : IsDigits ds) (hhead : ds.head? ≠ some '0') : IsWhole ds :=
  ⟨h, fun h0 => absurd h0 hhead⟩

/-- A part of a run of digits that is not empty. -/
theorem sublist (h : IsDigits ds) (hes : es ≠ []) (hsub : es.Sublist ds) : IsDigits es where
  nonempty := hes
  digits c hc := h.digits c (hsub.subset hc)

/-- Zeros are digits. -/
theorem isDigit_zeros {n : Nat} : ∀ c ∈ List.replicate n '0', c.isDigit = true := by
  intro c hc
  rw [List.eq_of_mem_replicate hc]
  rfl

/-- Zeros may stand in front of digits. -/
theorem zeros_append (n : Nat) (h : IsDigits ds) : IsDigits (List.replicate n '0' ++ ds) where
  nonempty := by simp [h.nonempty]
  digits c hc := (List.mem_append.1 hc).elim (isDigit_zeros c) (h.digits c)

/-- Zeros may stand behind digits. -/
theorem append_zeros (n : Nat) (h : IsDigits ds) : IsDigits (ds ++ List.replicate n '0') where
  nonempty := by simp [h.nonempty]
  digits c hc := (List.mem_append.1 hc).elim (h.digits c) (isDigit_zeros c)

end IsDigits

namespace FloatLayout

section Parts

variable {digits : String} (h : IsDigits digits.toList) (hhead : digits.toList.head? ≠ some '0')
include h hhead

/-- Digits with a point among them or beside them are a number. -/
theorem magnitude_positional (point : Int) : Magnitude (positional digits point).toList := by
  have hlen := String.length_toList (s := digits)
  obtain ⟨d, ds, hds⟩ := List.exists_cons_of_ne_nil h.nonempty
  simp only [positional]
  by_cases hpoint : point ≤ 0
  · have hzero : IsWhole ['0'] := ⟨⟨by simp, by simp⟩, fun _ => rfl⟩
    have hbehind := h.zeros_append (-point).toNat
    simpa [hpoint, toList_pushn] using Magnitude.intro hzero (.inr ⟨_, hbehind, rfl⟩) (.inl rfl)
  by_cases hn : (digits.length : Int) ≤ point
  · have hzero : IsDigits ['0'] := ⟨by simp, by simp⟩
    have hfront : IsWhole (digits.toList ++ List.replicate (point - digits.length).toNat '0') := by
      refine (h.append_zeros _).whole ?_
      rw [hds] at hhead ⊢
      exact hhead
    simpa [hpoint, hn, toList_pushn] using
      Magnitude.intro hfront (.inr ⟨['0'], hzero, rfl⟩) (.inl rfl)
  · have hfront : IsWhole (digits.toList.take point.toNat) := by
      refine (h.sublist ?_ (List.take_sublist ..)).whole ?_
      · simp only [ne_eq, List.take_eq_nil_iff]
        grind
      · simp only [List.head?_take]
        grind
    have hbehind : IsDigits (digits.toList.drop point.toNat) := by
      refine h.sublist ?_ (List.drop_sublist ..)
      simp only [ne_eq, List.drop_eq_nil_iff]
      omega
    simpa [hpoint, hn] using Magnitude.intro hfront (.inr ⟨_, hbehind, rfl⟩) (.inl rfl)

/-- Digits in front of an exponent are a number. -/
theorem magnitude_scientific (plusSign : Bool) (exponent : Int) :
    Magnitude (scientific plusSign digits exponent).toList := by
  obtain ⟨d, ds, hds⟩ := List.exists_cons_of_ne_nil h.nonempty
  let fraction := if ds.isEmpty then [] else '.' :: ds
  let sign := if 0 ≤ exponent then (if plusSign then ['+'] else []) else ['-']
  have hwhole : IsWhole [d] := (h.sublist (by simp) (by simp [hds])).whole (by simpa [hds] using hhead)
  have hfraction : IsFraction fraction := by
    cases ds with
    | nil => exact .inl rfl
    | cons e es => exact .inr ⟨e :: es, h.sublist (by simp) (by simp [hds]), rfl⟩
  have hsign : sign = [] ∨ sign = ['+'] ∨ sign = ['-'] := by
    simp only [sign]
    grind
  have hfractionText :
      (if (String.ofList ds).isEmpty then "" else "." ++ String.ofList ds).toList = fraction := by
    cases ds <;> simp [fraction]
  have hsignText : (if plusSign && decide (0 ≤ exponent) then "+" else "").toList ++
      (if exponent < 0 then ['-'] else []) = sign := by
    cases plusSign <;> by_cases he : 0 ≤ exponent <;> simp [sign, he, Int.not_lt.2]
  simp only [scientific, hds, String.toList_append, toList_toString_int, List.drop_one,
    List.tail_cons, hfractionText]
  have := Magnitude.intro hwhole hfraction
    (.inr ⟨sign, _, hsign, isDigits_toDigits exponent.natAbs, rfl⟩)
  simpa [← hsignText] using this

end Parts

end FloatLayout

/-! ### Floats -/

namespace Shortest

/-- A decimal on a grid that reads back as a positive number is positive. -/
theorem onGrid_pos {tie : Tie} {m : Nat} {q k : Int} {n : Nat} (hm : 0 < m)
    (h : onGrid tie m q k = some n) : 0 < n := by
  have hup : 0 < Nat.pow 2 (q - 2).toNat * Nat.pow 10 (-k).toNat :=
    Nat.mul_pos (Nat.pow_pos (by decide)) (Nat.pow_pos (by decide))
  simp only [onGrid] at h
  generalize Nat.pow 2 (q - 2).toNat * Nat.pow 10 (-k).toNat = up at h hup
  generalize Nat.pow 2 (2 - q).toNat * Nat.pow 10 k.toNat = down at h
  have hlow : 0 < (if m = Nat.pow 2 52 ∧ -1074 < q then 4 * m - 1 else 4 * m - 2) * up := by
    apply Nat.mul_pos _ hup
    split <;> omega
  generalize (if m = Nat.pow 2 52 ∧ -1074 < q then 4 * m - 1 else 4 * m - 2) * up = low at h hlow
  generalize 4 * m * up / down = below at h
  obtain rfl | hbelow := Nat.eq_zero_or_pos below
  · -- zero is less than all reals that read back, so it is not taken
    have houtside : (if m % 2 = 0 then decide (low ≤ 0 * down) && decide (0 * down ≤ (4 * m + 2) * up)
        else decide (low < 0 * down) && decide (0 * down < (4 * m + 2) * up)) = false := by
      simp [Nat.ne_of_gt hlow]
    rw [houtside] at h
    split at h <;> simp_all
    omega
  · grind

/-- Taking zeros off the end of a number that is not zero leaves one. -/
theorem trim_pos (fuel : Nat) {d : Decimal} (hd : 0 < d.digits) : 0 < (trim fuel d).digits := by
  induction fuel generalizing d with
  | zero => exact hd
  | succ fuel ih =>
    unfold trim
    split
    · exact ih (by simp only; omega)
    · exact hd

/-- The shortest decimal of a number that is not zero is not zero. -/
theorem search_pos {tie : Tie} {m : Nat} {q top : Int} (hm : 0 < m) (fuel count : Nat) :
    0 < (search tie m q top fuel count).digits := by
  induction fuel generalizing count with
  | zero => exact hm
  | succ fuel ih =>
    simp only [search]
    split
    · next n hn => exact trim_pos 20 (onGrid_pos hm hn)
    · exact ih (count + 1)

/-- A positive number has positive digits. -/
theorem digits_pos (tie : Tie) {m : Nat} (q : Int) (hm : 0 < m) : 0 < (digits tie m q).digits :=
  search_pos hm 17 1

end Shortest

namespace Binary64

/-- The exponent of a float is in the eleven bits behind its sign. -/
theorem toNat_unpackExponent (bits : BitVec 64) :
    (@Float.Model.UnpackedFloat.unpackExponent .binary64 bits).toNat =
      bits.toNat / Nat.pow 2 52 % Nat.pow 2 11 := by
  simp [Float.Model.UnpackedFloat.unpackExponent, Nat.shiftRight_eq_div_pow]

/-- The greatest exponent belongs to infinities and to what is not a number. -/
theorem exponent_ne_of_isFinite {x : Float} (h : x.isFinite = true) :
    x.toBits.toNat / Nat.pow 2 52 % Nat.pow 2 11 ≠ 2047 := by
  intro he
  have hmax : @Float.Model.UnpackedFloat.unpackExponent .binary64 x.toModel.toBits.toBitVec =
      -1#11 := by
    apply BitVec.eq_of_toNat_eq
    rw [toNat_unpackExponent]
    exact he
  have hunpack : x.toModel.unpack.isFinite = true := h
  rw [show x.toModel.unpack = ite _ (ite _ (.infinity _) .notANumber) _ from rfl, if_pos hmax] at hunpack
  split at hunpack <;> exact nomatch hunpack

/-- A finite float has a mantissa and an exponent. -/
theorem ofFloat_of_isFinite {x : Float} (h : x.isFinite = true) :
    ∃ negative m q, ofFloat x = .finite negative m q := by
  have hne := exponent_ne_of_isFinite h
  simp only [ofFloat, ofBits]
  rw [if_neg hne]
  split <;> exact ⟨_, _, _, rfl⟩

end Binary64

/-- A written finite float is a numeral. -/
theorem FloatLayout.numeral_write (f : FloatLayout) {x : Float} (h : x.isFinite = true) :
    Numeral (f.write x).toList := by
  obtain ⟨negative, m, q, hx⟩ := Binary64.ofFloat_of_isFinite h
  have hsign : IsSign (if negative then "-" else "").toList := by
    cases negative
    · exact .inl rfl
    · exact .inr rfl
  simp only [write, hx]
  by_cases hm : m = 0
  · rw [if_pos hm, String.toList_append]
    have hzero : IsWhole ['0'] := ⟨⟨by simp, by simp⟩, fun _ => rfl⟩
    exact .intro hsign (.intro hzero (.inr ⟨['0'], hzero.toIsDigits, rfl⟩) (.inl rfl))
  · rw [if_neg hm, String.toList_append]
    refine .intro hsign ?_
    have hpos := Shortest.digits_pos f.tie q (Nat.pos_of_ne_zero hm)
    generalize Shortest.digits f.tie m q = d at hpos ⊢
    have htext : (toString d.digits).toList = Nat.toDigits 10 d.digits := by simp
    have hdigits : IsDigits (toString d.digits).toList := htext ▸ isDigits_toDigits _
    have hhead : (toString d.digits).toList.head? ≠ some '0' := htext ▸ head?_toDigits_ne hpos
    split
    · exact magnitude_positional hdigits hhead _
    · exact magnitude_scientific hdigits hhead _ _

/-! ### Integers -/

namespace JsonNumber

/-- Digits of a number that fits 64 bits are gathered into that number. -/
theorem wholePart_eq {ds : List Char} {acc : Nat} (h : Nat.ofDigitChars 10 ds acc < UInt64.size) :
    wholePart ds acc = (Nat.ofDigitChars 10 ds acc, 0) := by
  induction ds generalizing acc with
  | nil => simp [wholePart]
  | cons d ds ih =>
    have hcons : Nat.ofDigitChars 10 (d :: ds) acc = Nat.ofDigitChars 10 ds (acc * 10 + digit d) := by
      simp [Nat.ofDigitChars_eq_foldl, digit, Nat.mul_comm]
    rw [hcons] at h ⊢
    have hgrows : acc * 10 + digit d ≤ Nat.ofDigitChars 10 ds (acc * 10 + digit d) := by
      rw [Nat.ofDigitChars_eq_ofDigitChars_zero]
      exact Nat.le_add_right_of_le (Nat.le_mul_of_pos_left _ (Nat.pow_pos (by decide)))
    simp [wholePart, Nat.lt_of_le_of_lt hgrows h, ih h]

/-- What digits behind a sign stand for. -/
theorem ofSpelling_digits (isNegative : Bool) {n : Nat} {s : String} (hn : n < UInt64.size)
    (hs : s.toList = (if isNegative then ['-'] else []) ++ Nat.toDigits 10 n) :
    ofSpelling s =
      if !isNegative then natural n
      else if 0 < n && Int64.minValue.toInt ≤ -(n : Int) then negative n
      else float (-(UInt64.toFloat (UInt64.ofNat n))) := by
  have hdigits := isDigits_toDigits n
  have hhead : (Nat.toDigits 10 n).head? ≠ some '-' := fun h => by
    simpa using hdigits.digits '-' (List.mem_of_head? h)
  have hwhole : wholePart (Nat.toDigits 10 n) 0 = (n, 0) := by
    rw [wholePart_eq] <;> simp [Nat.ofDigitChars_ten_toDigits, hn]
  obtain ⟨htake, hdrop⟩ := @JsonTree.span_digits _ [] hdigits (by simp)
  rw [List.append_nil] at htake hdrop
  cases isNegative <;> simp [ofSpelling, hs, htake, hdrop, hwhole, hhead]

/-- The digits of a 64-bit integer stand for that integer. -/
theorem int?_toString (i : Int64) : (ofSpelling (toString i.toInt)).int? = some i := by
  have hlow : -2 ^ 63 ≤ i.toInt := Int64.le_toInt i
  have hhigh : i.toInt < 2 ^ 63 := Int64.toInt_lt i
  have hsize : i.toInt.natAbs < UInt64.size := by
    have : UInt64.size = 2 ^ 64 := rfl
    omega
  rw [ofSpelling_digits (i.toInt < 0) hsize (by simpa using toList_toString_int i.toInt)]
  by_cases hi : i.toInt < 0
  · have hval : -(i.toInt.natAbs : Int) = i.toInt := by omega
    have hpos : 0 < i.toInt.natAbs := by omega
    have hfits : Int64.minValue.toInt ≤ i.toInt := hlow
    simp only [hi, hpos, hval, hfits, decide_true, Bool.not_true, Bool.and_true,
      Bool.false_eq_true, if_false, if_true, int?, Int64.ofInt_toInt]
  · have hval : (i.toInt.natAbs : Int) = i.toInt := by omega
    have hfits : i.toInt ≤ Int64.maxValue.toInt := Int.le_of_lt_add_one hhigh
    have hofNat : Int64.ofNat i.toInt.natAbs = i := by
      rw [← Int64.ofInt_eq_ofNat, hval, Int64.ofInt_toInt]
    simp [hi, hval, hfits, int?, hofNat]

end JsonNumber

end BlockMachine
