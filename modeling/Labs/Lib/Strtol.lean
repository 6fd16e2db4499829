import Labs.Lib.Stdio

/-!
# `strtol`

The decimal numerals of `strtol`: white space, a sign, and digits. The number is cut to the range of
`long`, and `errno` says so. Where there are no digits the answer is zero, and `errno` stays as it
is. What stands behind the digits is left to the caller, who may ask for it or not.

`Denotes` says what it is for a whole string to be a decimal number, without saying how a string is
read. A string is one if and only if reading it leaves nothing (`denotes_iff`).
-/

namespace Labs
namespace Lib

def ERANGE : Int := 34

/-- The answer, `errno`, and what `*endptr` points to. -/
structure Strtol where
  num : Int
  errno : Int
  rest : List UInt8

/-- `strtol(s, endptr, 10)`, with `errno` at zero before the call. -/
def strtol (s : List UInt8) : Strtol :=
  match scanInt s with
  | (none, _) => ⟨0, 0, s⟩
  | (some x, rest) =>
    ⟨max LONG_MIN (min x LONG_MAX), if LONG_MIN ≤ x ∧ x ≤ LONG_MAX then 0 else ERANGE, rest⟩

inductive Denotes : List UInt8 → Int → Prop
  | plain {blanks digits : List UInt8} (hblanks : ∀ b ∈ blanks, isspace b)
      (hne : digits ≠ []) (hdigits : ∀ d ∈ digits, isdigit d) :
      Denotes (blanks ++ digits) (digitsValue digits)
  | plus {blanks digits : List UInt8} (hblanks : ∀ b ∈ blanks, isspace b)
      (hne : digits ≠ []) (hdigits : ∀ d ∈ digits, isdigit d) :
      Denotes (blanks ++ 43 :: digits) (digitsValue digits)
  | minus {blanks digits : List UInt8} (hblanks : ∀ b ∈ blanks, isspace b)
      (hne : digits ≠ []) (hdigits : ∀ d ∈ digits, isdigit d) :
      Denotes (blanks ++ 45 :: digits) (-digitsValue digits)

/-! ## Reading a numeral -/

theorem scanInt_blanks {blanks : List UInt8} (h : ∀ b ∈ blanks, isspace b) (t : List UInt8) :
    scanInt (blanks ++ t) = scanInt t := by
  unfold scanInt
  rw [List.dropWhile_append_of_pos h]

theorem takeWhile_digits {ds : List UInt8} (h : ∀ d ∈ ds, isdigit d) :
    ds.takeWhile isdigit = ds := List.takeWhile_eq_self_iff.mpr h

/-- The digits behind a minus. -/
theorem scanSigned_minus (ds : List UInt8) :
    scanSigned (45 :: ds) =
      if ds.takeWhile isdigit = [] then (none, ds.drop (ds.takeWhile isdigit).length)
      else (some (-(digitsValue (ds.takeWhile isdigit) : Int)),
        ds.drop (ds.takeWhile isdigit).length) :=
  rfl

theorem scanInt_plus {ds : List UInt8} (hne : ds ≠ []) (h : ∀ d ∈ ds, isdigit d) :
    scanInt (43 :: ds) = (some (digitsValue ds : Int), []) := by
  have hskip : (43 :: ds).dropWhile isspace = 43 :: ds := rfl
  rw [scanInt, hskip, scanSigned]
  simp [takeWhile_digits h, hne]

theorem scanInt_minus {ds : List UInt8} (hne : ds ≠ []) (h : ∀ d ∈ ds, isdigit d) :
    scanInt (45 :: ds) = (some (-digitsValue ds : Int), []) := by
  have hskip : (45 :: ds).dropWhile isspace = 45 :: ds := rfl
  rw [scanInt, hskip, scanSigned]
  simp [takeWhile_digits h, hne]

/-- What is read to its end is digits. -/
theorem eq_takeWhile_of_drop {ds : List UInt8}
    (h : ds.drop (ds.takeWhile isdigit).length = []) : ds.takeWhile isdigit = ds :=
  (List.takeWhile_prefix isdigit).eq_of_length_le (List.drop_eq_nil_iff.mp h)

/-- A numeral without blanks before it, read to its end. -/
theorem denotes_of_scanSigned {blanks t : List UInt8} {v : Int}
    (hblanks : ∀ b ∈ blanks, isspace b) (h : scanSigned t = (some v, [])) :
    Denotes (blanks ++ t) v := by
  -- the digits behind the sign, if the rest of them is empty
  have hdigits : ∀ (ds : List UInt8) (w : Int),
      (if ds.takeWhile isdigit = [] then (none, ds.drop (ds.takeWhile isdigit).length)
        else (some w, ds.drop (ds.takeWhile isdigit).length)) = (some v, []) →
      ds ≠ [] ∧ (∀ d ∈ ds, isdigit d) ∧ ds.takeWhile isdigit = ds ∧ w = v := by
    intro ds w hds
    split at hds
    · cases hds
    · rename_i hne
      obtain ⟨hw, hrest⟩ := Prod.mk.inj hds
      have heq := eq_takeWhile_of_drop hrest
      rw [heq] at hne
      exact ⟨hne, List.takeWhile_eq_self_iff.mp heq, heq, Option.some.inj hw⟩
  unfold scanSigned at h
  cases t with
  | nil => cases h
  | cons b ds =>
    by_cases hminus : b = 45
    · subst hminus
      obtain ⟨hne, hall, heq, hw⟩ := hdigits ds (-digitsValue (ds.takeWhile isdigit)) h
      rw [← hw, heq]
      exact .minus hblanks hne hall
    · by_cases hplus : b = 43
      · subst hplus
        obtain ⟨hne, hall, heq, hw⟩ := hdigits ds (digitsValue (ds.takeWhile isdigit)) h
        rw [← hw, heq]
        exact .plus hblanks hne hall
      · simp only [List.head?_cons, Option.some_beq_some, beq_false_of_ne hminus,
          beq_false_of_ne hplus, Bool.or_self, Bool.false_eq_true, if_false] at h
        obtain ⟨hne, hall, heq, hw⟩ := hdigits (b :: ds) _ h
        rw [← hw, heq]
        exact .plain hblanks hne hall

theorem denotes_iff {s : List UInt8} {v : Int} : Denotes s v ↔ scanInt s = (some v, []) := by
  constructor
  · intro h
    cases h with
    | plain hblanks hne hdigits =>
      rename_i blanks digits
      have hscan := @scanInt_digits digits [] hne hdigits (by simp)
      rw [List.append_nil] at hscan
      rw [scanInt_blanks hblanks, hscan]
    | plus hblanks hne hdigits => rw [scanInt_blanks hblanks, scanInt_plus hne hdigits]
    | minus hblanks hne hdigits => rw [scanInt_blanks hblanks, scanInt_minus hne hdigits]
  · intro h
    rw [← List.takeWhile_append_dropWhile (p := isspace) (l := s)]
    exact denotes_of_scanSigned (fun b hb => List.mem_takeWhile_imp hb) h

end Lib
end Labs
