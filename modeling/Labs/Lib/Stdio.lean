import Labs.Lib.CInt
import Labs.Lib.CString
import Mathlib.Data.Nat.Digits.Lemmas

/-!
# Reading an input stream

Standard input is the list of the bytes not read yet. `fgets` takes a line, or as much of it
as the buffer holds; `scanInt` is the `%d` of `scanf`, and answers `none` where `scanf`
returns `0` or `EOF`; `skipLine` reads up to and with the next newline, and answers `none`
where there is none left, for a loop that waits for one and does not look for the end of the
input.

## What is left of the input

Every function here returns what it has not read, and the lengths go down with it
(`fgets_rest_length`, `skipLine_length_lt`). A loop that reads is then a recursion on the rest of
its input, and needs no other measure.

Nothing is pushed back and nothing blocks. The end of the input is the empty list, for ever: a call
that is made there answers the same as before, which is how a terminal behaves that was closed, and
a file.

`scanInt` leaves what it could not use, so a caller that does not throw the line away meets it
again. The number it gives may be larger than an `int`; `scannedInt` is what `%d` stores then.
-/

namespace Labs
namespace Lib

def isspace (b : UInt8) : Bool := b == 32 || (9 ≤ b && b ≤ 13)

def isdigit (b : UInt8) : Bool := 48 ≤ b && b ≤ 57

/-- At most `n` bytes, none after a newline. -/
def takeLine : Nat → List UInt8 → List UInt8
  | 0, _ => []
  | _, [] => []
  | n + 1, b :: inp => if b = NEWLINE then [b] else b :: takeLine n inp

/-- `fgets(…, size, stdin)`: what it stores before the terminator, and what is left. -/
def fgets (size : Nat) (inp : List UInt8) : Option (List UInt8 × List UInt8) :=
  if inp = [] then none
  else
    let line := takeLine (size - 1) inp
    some (line, inp.drop line.length)

def digitsValue (ds : List UInt8) : Nat :=
  ds.foldl (fun acc d => 10 * acc + (d.toNat - 48)) 0

/-- `%d` without the white space that may stand before it. -/
def scanSigned (inp : List UInt8) : Option Int × List UInt8 :=
  let neg := inp.head? == some 45
  let body := if neg || inp.head? == some 43 then inp.tail else inp
  let ds := body.takeWhile isdigit
  let rest := body.drop ds.length
  if ds = [] then (none, rest)
  else (some (if neg then -(digitsValue ds : Int) else digitsValue ds), rest)

def scanInt (inp : List UInt8) : Option Int × List UInt8 := scanSigned (inp.dropWhile isspace)

/-- The `int` that `%d` stores for a decimal numeral: the value as a `long`, cut to 32 bits. -/
def scannedInt (x : Int) : Int :=
  wrap32 (max (-9223372036854775808) (min x 9223372036854775807))

def atoi (s : List UInt8) : Int := scannedInt ((scanInt s).1.getD 0)

def skipLine (inp : List UInt8) : Option (List UInt8) :=
  (memchr inp NEWLINE).map fun k => inp.drop (k + 1)

/-- The byte is white space, or the line behind it ends. -/
def LineEnds (c : UInt8) (inp : List UInt8) : Prop := isspace c = true ∨ NEWLINE ∈ inp

/-- The four bytes of an `int`. -/
def encode32 (x : Int) : List UInt8 :=
  let u := (x % 4294967296).toNat
  [UInt8.ofNat (u % 256), UInt8.ofNat (u / 256 % 256), UInt8.ofNat (u / 65536 % 256),
    UInt8.ofNat (u / 16777216 % 256)]

def decode32 (bs : List UInt8) : Int :=
  wrap32 (bs.foldr (fun b acc => b.toNat + 256 * acc) 0)

theorem decode32_encode32 (x : Int) : decode32 (encode32 x) = wrap32 x := by
  have hbytes : (encode32 x).foldr (fun b acc => (b.toNat : Int) + 256 * acc) 0 =
      x % 4294967296 := by
    simp only [encode32, List.foldr_cons, List.foldr_nil, UInt8.toNat_ofNat']
    omega
  rw [decode32, hbytes]
  exact Int.emod_bmod x 4294967296

/-- The last byte of an `int` has its sign. -/
theorem decode32_neg_iff (a b c d : UInt8) : decode32 [a, b, c, d] < 0 ↔ 128 ≤ d.toNat := by
  have ha := a.toNat_lt
  have hb := b.toNat_lt
  have hc := c.toNat_lt
  have hd := d.toNat_lt
  simp only [decode32, wrap32, List.foldr_cons, List.foldr_nil, Int.bmod_def]
  omega

/-- A numeral that is an `int` is read as its value. -/
theorem scannedInt_of_inRange {x : Int} (h : InRange32 x) : scannedInt x = x := by
  have hlo : (-2147483648 : Int) ≤ x := h.1
  have hhi : x ≤ 2147483647 := h.2
  rw [scannedInt, min_eq_left (by omega), max_eq_right (by omega), wrap32_of_inRange h]

/-- A numeral is read to its end. -/
theorem scanInt_digits {ds rest : List UInt8} (hne : ds ≠ []) (hds : ∀ b ∈ ds, isdigit b)
    (hrest : ∀ b ∈ rest.head?, isdigit b = false) :
    scanInt (ds ++ rest) = (some (digitsValue ds : Int), rest) := by
  obtain ⟨d, ds', rfl⟩ := List.exists_cons_of_ne_nil hne
  have hd : 48 ≤ d ∧ d ≤ 57 := by simpa [isdigit] using hds d List.mem_cons_self
  have hlo : (48 : Nat) ≤ d.toNat := hd.1
  have hspace : isspace d = false := by
    have h32 : d ≠ 32 := fun e => by simp [e] at hlo
    have h13 : ¬ d ≤ 13 := fun hle => by
      have hle' : d.toNat ≤ 13 := hle
      omega
    simp [isspace, h32, h13]
  have hsign : d ≠ 45 ∧ d ≠ 43 := by
    constructor <;> intro e <;> simp [e] at hlo
  have htake : (d :: ds' ++ rest).takeWhile isdigit = d :: ds' := by
    rw [List.takeWhile_append_of_pos hds]
    cases rest with
    | nil => simp
    | cons b rest => simp [hrest b (by simp)]
  have hskip : (d :: ds' ++ rest).dropWhile isspace = d :: ds' ++ rest := by
    simp [hspace]
  rw [scanInt, hskip, scanSigned]
  simp only [List.cons_append, List.head?_cons, Option.some_beq_some, beq_false_of_ne hsign.1,
    beq_false_of_ne hsign.2, Bool.or_self, Bool.false_eq_true, if_false]
  rw [← List.cons_append, htake, if_neg (List.cons_ne_nil _ _), List.drop_left]

/-- The decimal digits of a positive number. -/
theorem decimal_of_pos {n : Int} (h : 0 < n) :
    decimal n = (Nat.digits 10 n.natAbs).reverse.map fun d => UInt8.ofNat (48 + d) := by
  rw [decimal, if_neg (by omega), if_neg (by omega), List.nil_append]

theorem decimal_digits {n : Int} (h : 0 < n) :
    decimal n ≠ [] ∧ ∀ b ∈ decimal n, isdigit b := by
  rw [decimal_of_pos h]
  constructor
  · have hne : Nat.digits 10 n.natAbs ≠ [] := Nat.digits_ne_nil_iff_ne_zero.mpr (by omega)
    simpa using hne
  · intro b hb
    obtain ⟨d, hd, rfl⟩ := List.mem_map.mp hb
    have hlt : d < 10 := Nat.digits_lt_base (by decide) (List.mem_reverse.mp hd)
    have htable : ∀ d < 10, isdigit (UInt8.ofNat (48 + d)) = true := by decide
    exact htable d hlt

/-- An `int` has ten digits at most. -/
theorem length_decimal_le {n : Int} (hpos : 0 < n) (hrange : InRange32 n) :
    (decimal n).length ≤ 10 := by
  have hhi : n ≤ 2147483647 := hrange.2
  rw [decimal_of_pos hpos, List.length_map, List.length_reverse,
    Nat.digits_length_le_iff (by decide)]
  omega

theorem foldr_digits {ds : List Nat} (h : ∀ d ∈ ds, d < 10) :
    (ds.map fun d => UInt8.ofNat (48 + d)).foldr (fun b acc => 10 * acc + (b.toNat - 48)) 0 =
      Nat.ofDigits 10 ds := by
  induction ds with
  | nil => rfl
  | cons d ds ih =>
    have hd := h d List.mem_cons_self
    have hbyte : (UInt8.ofNat (48 + d)).toNat - 48 = d := by
      rw [UInt8.toNat_ofNat']
      omega
    rw [List.map_cons, List.foldr_cons, ih fun e he => h e (List.mem_cons_of_mem _ he), hbyte,
      Nat.ofDigits_cons, Nat.add_comm]

theorem digitsValue_decimal {n : Int} (h : 0 < n) : (digitsValue (decimal n) : Int) = n := by
  rw [decimal_of_pos h, digitsValue, List.map_reverse, List.foldl_reverse,
    foldr_digits fun d hd => Nat.digits_lt_base (by decide) hd, Nat.ofDigits_digits]
  omega

/-- A positive number is read back as it was printed. -/
theorem atoi_decimal {n : Int} (hpos : 0 < n) (hrange : InRange32 n) : atoi (decimal n) = n := by
  obtain ⟨hne, hdigits⟩ := decimal_digits hpos
  have hscan := @scanInt_digits _ [] hne hdigits (by simp)
  rw [List.append_nil] at hscan
  rw [atoi, hscan]
  show scannedInt (digitsValue (decimal n) : Int) = n
  rw [digitsValue_decimal hpos, scannedInt_of_inRange hrange]

theorem length_takeLine_le (n : Nat) (inp : List UInt8) : (takeLine n inp).length ≤ n := by
  induction n generalizing inp with
  | zero => exact Nat.le_refl 0
  | succ n ih =>
    cases inp with
    | nil => exact Nat.zero_le _
    | cons b inp =>
      unfold takeLine
      split
      · exact Nat.succ_le_succ (Nat.zero_le n)
      · exact Nat.succ_le_succ (ih inp)

theorem fgets_length {size : Nat} {inp line rest : List UInt8}
    (h : fgets size inp = some (line, rest)) : line.length ≤ size - 1 := by
  unfold fgets at h
  split at h
  · exact absurd h (by simp)
  · simp only [Option.some.injEq, Prod.mk.injEq] at h
    rw [← h.1]
    exact length_takeLine_le _ _

/-- What ends in a newline is a line. -/
theorem takeLine_of_mem {n : Nat} {inp : List UInt8} (h : NEWLINE ∈ takeLine n inp) :
    ∃ l rest, NEWLINE ∉ l ∧ takeLine n inp = l ++ [NEWLINE] ∧ inp = l ++ NEWLINE :: rest := by
  induction n generalizing inp with
  | zero => cases h
  | succ n ih =>
    cases inp with
    | nil => cases h
    | cons b inp =>
      rw [takeLine] at h ⊢
      split at h
      · rename_i hb
        rw [if_pos hb, hb]
        exact ⟨[], inp, List.not_mem_nil, rfl, rfl⟩
      · rename_i hb
        obtain ⟨l, rest, hl, hline, hinp⟩ := ih ((List.mem_cons.mp h).resolve_left (Ne.symm hb))
        refine ⟨b :: l, rest, ?_, ?_, ?_⟩
        · exact fun hm => (List.mem_cons.mp hm).elim (fun e => hb e.symm) hl
        · rw [if_neg hb, hline]
          rfl
        · rw [hinp]
          rfl

theorem skipLine_eq_none {inp : List UInt8} : skipLine inp = none ↔ NEWLINE ∉ inp := by
  rw [skipLine, Option.map_eq_none_iff, memchr_eq_none]

/-- A newline is read at least. -/
theorem skipLine_length_lt {inp rest : List UInt8} (h : skipLine inp = some rest) :
    rest.length < inp.length := by
  obtain ⟨k, hk, rfl⟩ := Option.map_eq_some_iff.mp h
  have hlt : k < inp.length := (List.findIdx?_eq_some_iff_getElem.mp hk).1
  rw [List.length_drop]
  omega

theorem skipLine_length {inp rest : List UInt8} (h : skipLine inp = some rest) :
    rest.length ≤ inp.length := (skipLine_length_lt h).le

theorem fgets_rest_length {size : Nat} {inp line rest : List UInt8}
    (h : fgets size inp = some (line, rest)) : rest.length ≤ inp.length := by
  unfold fgets at h
  split at h <;> cases h
  rw [List.length_drop]
  exact Nat.sub_le _ _

theorem takeLine_append_drop (n : Nat) (inp : List UInt8) :
    takeLine n inp ++ inp.drop (takeLine n inp).length = inp := by
  induction n generalizing inp with
  | zero => rfl
  | succ n ih =>
    cases inp with
    | nil => rfl
    | cons b inp =>
      rw [takeLine]
      split
      · rfl
      · exact congrArg (b :: ·) (ih inp)

/-- A line is taken with its newline, if there is room for them. -/
theorem takeLine_append {inp : List UInt8} (h : NEWLINE ∉ inp) (n : Nat) (rest : List UInt8) :
    takeLine n (inp ++ NEWLINE :: rest) = (inp ++ [NEWLINE]).take n := by
  induction inp generalizing n with
  | nil =>
    cases n with
    | zero => rfl
    | succ n => simp [takeLine]
  | cons b inp ih =>
    rw [List.mem_cons, not_or] at h
    cases n with
    | zero => rfl
    | succ n =>
      rw [List.cons_append, takeLine, if_neg (Ne.symm h.1), ih h.2, List.cons_append,
        List.take_succ_cons]

/-- The line and the rest are the input. -/
theorem fgets_append {size : Nat} {inp line rest : List UInt8}
    (h : fgets size inp = some (line, rest)) : line ++ rest = inp := by
  unfold fgets at h
  split at h
  · cases h
  · cases h
    exact takeLine_append_drop _ inp

/-- A buffer with room for a byte takes one at least. -/
theorem fgets_ne_nil {size : Nat} {inp line rest : List UInt8} (hsize : 1 < size)
    (h : fgets size inp = some (line, rest)) : line ≠ [] := by
  unfold fgets at h
  split at h
  · cases h
  · rename_i hne
    cases h
    obtain ⟨n, hn⟩ : ∃ n, size - 1 = n + 1 := ⟨size - 2, by omega⟩
    cases inp with
    | nil => exact absurd rfl hne
    | cons b inp =>
      rw [hn, takeLine]
      split <;> exact List.cons_ne_nil _ _

theorem fgets_rest_length_lt {size : Nat} {inp line rest : List UInt8} (hsize : 1 < size)
    (h : fgets size inp = some (line, rest)) : rest.length < inp.length := by
  have hpos := List.length_pos_iff.mpr (fgets_ne_nil hsize h)
  rw [← fgets_append h, List.length_append]
  omega

theorem skipLine_suffix {inp rest : List UInt8} (h : skipLine inp = some rest) : rest <:+ inp := by
  obtain ⟨k, -, rfl⟩ := Option.map_eq_some_iff.mp h
  exact List.drop_suffix _ _

theorem scanInt_length (inp : List UInt8) : (scanInt inp).2.length ≤ inp.length := by
  have hsigned : ∀ inp : List UInt8, (scanSigned inp).2.length ≤ inp.length := by
    intro inp
    simp only [scanSigned]
    split <;> split <;> simp only [List.length_drop, List.length_tail] <;> omega
  exact (hsigned _).trans (List.dropWhile_suffix _).length_le

end Lib
end Labs
