import Mathlib.Data.List.TakeWhile
import Mathlib.Data.Nat.Digits.Defs

/-!
# Bytes, C strings and formatted output

A C string is the bytes before the first NUL of a region of memory, so a string function is
a function of the bytes the pointer can see: `cstr` is what `strlen`, `printf("%s")` and
`strcmp` look at, `memchr` the offset of a byte, `snprintf` a truncation that always leaves
room for the terminator. `sent_snprintf` is the fact about the two of them together that a
sender relies on: of a NUL-free text, the `strlen + 1` bytes that leave the buffer are the
text cut to the buffer, and one NUL.
-/

namespace Labs
namespace Lib

/-- The characters of a literal, one byte each. -/
def ascii (s : String) : List UInt8 := s.toList.map fun c => UInt8.ofNat c.toNat

def NUL : UInt8 := 0
def NEWLINE : UInt8 := 10

/-- The string a pointer to these bytes denotes. -/
def cstr (bs : List UInt8) : List UInt8 := bs.takeWhile (· ≠ NUL)

def strlen (bs : List UInt8) : Nat := (cstr bs).length

/-- `memchr(p, c, n)` over the `n` bytes `bs` that `p` sees: the offset of the first `c`. -/
def memchr (bs : List UInt8) (c : UInt8) : Option Nat := bs.findIdx? (· == c)

/-- `strchr(s, c)`, for a `c` that is not NUL: the offset of the first `c` of the string. There is
    no answer if the bytes end before it and before the end of the string. -/
def strchr (bs : List UInt8) (c : UInt8) : Option (Option Nat) :=
  (bs.findIdx? fun b => b == c || b == NUL).map fun k => if bs[k]? = some c then some k else none

/-- `strstr(s, needle) != NULL`. -/
def strstr (s needle : List UInt8) : Bool := (cstr s).tails.any fun t => needle.isPrefixOf t

/-- `strncmp(s, t, n) == 0`. -/
def strncmpEq (s t : List UInt8) (n : Nat) : Bool := (cstr s).take n == (cstr t).take n

/-- What `snprintf(buf, size, …)` writes for a formatted text, `size` being positive. -/
def snprintf (size : Nat) (text : List UInt8) : List UInt8 := text.take (size - 1) ++ [NUL]

/-- `%.*s` with precision `prec`: at most `prec` bytes, and none from a NUL on. -/
def precStr (prec : Nat) (bs : List UInt8) : List UInt8 := cstr (bs.take prec)

/-- `%d`. -/
def decimal (n : Int) : List UInt8 :=
  (if n < 0 then ascii "-" else []) ++
    if n = 0 then ascii "0"
    else (Nat.digits 10 n.natAbs).reverse.map fun d => UInt8.ofNat (48 + d)

/-! ## NUL-free texts -/

theorem cstr_nul_free (bs : List UInt8) : NUL ∉ cstr bs := fun h => by
  simpa using List.mem_takeWhile_imp h

theorem cstr_eq_self {bs : List UInt8} (h : NUL ∉ bs) : cstr bs = bs :=
  List.takeWhile_eq_self_iff.mpr fun b hb => by simpa using fun e : b = NUL => h (e ▸ hb)

/-- A NUL ends the string, whatever follows it. -/
theorem cstr_nul (bs rest : List UInt8) : cstr (bs ++ NUL :: rest) = cstr bs := by
  induction bs with
  | nil => rfl
  | cons b bs ih =>
    unfold cstr at ih ⊢
    rw [List.cons_append, List.takeWhile_cons, List.takeWhile_cons, ih]

theorem cstr_append_nul {bs : List UInt8} (h : NUL ∉ bs) (rest : List UInt8) :
    cstr (bs ++ NUL :: rest) = bs := by
  rw [cstr_nul, cstr_eq_self h]

/-- What is written behind the end of a string does not change it. -/
theorem cstr_take_append {bs rest : List UInt8} {n : Nat} (h : (cstr bs).length < n)
    (hn : n ≤ bs.length) : cstr (bs.take n ++ rest) = cstr bs := by
  induction bs generalizing n with
  | nil =>
    exact absurd (Nat.lt_of_lt_of_le h hn) (Nat.not_lt_zero _)
  | cons b bs ih =>
    obtain ⟨m, rfl⟩ : ∃ m, n = m + 1 := Nat.exists_eq_add_one.mpr (Nat.zero_lt_of_lt h)
    unfold cstr at h ih ⊢
    rw [List.take_succ_cons, List.cons_append, List.takeWhile_cons, List.takeWhile_cons]
    rw [List.takeWhile_cons] at h
    split
    · rename_i hb
      rw [if_pos hb] at h
      rw [ih (Nat.lt_of_succ_lt_succ h) (Nat.le_of_succ_le_succ hn)]
    · rfl

/-- The string is the front of its bytes. -/
theorem take_length_cstr (bs : List UInt8) : bs.take (cstr bs).length = cstr bs :=
  (List.prefix_iff_eq_take.mp (List.takeWhile_prefix _)).symm

/-- At the end of a string there is the empty one. -/
theorem cstr_drop_length_cstr (bs : List UInt8) : cstr (bs.drop (cstr bs).length) = [] := by
  induction bs with
  | nil => rfl
  | cons b bs ih =>
    unfold cstr at ih ⊢
    by_cases hb : b = NUL
    · simp [hb]
    · simpa [hb] using ih

/-- What is terminated is a string and its terminator, and what is behind them. -/
theorem exists_eq_cstr_append {bs : List UInt8} (h : NUL ∈ bs) :
    ∃ rest, bs = cstr bs ++ NUL :: rest := by
  induction bs with
  | nil => cases h
  | cons b bs ih =>
    unfold cstr at ih ⊢
    by_cases hb : b = NUL
    · exact ⟨bs, by simp [hb]⟩
    · obtain ⟨rest, hrest⟩ := ih ((List.mem_cons.mp h).resolve_left (Ne.symm hb))
      refine ⟨rest, ?_⟩
      rw [List.takeWhile_cons_of_pos (by simpa using hb), List.cons_append, ← hrest]

theorem decimal_nul_free (n : Int) : NUL ∉ decimal n := by
  unfold decimal
  intro h
  rcases List.mem_append.mp h with h | h
  · split at h
    · exact absurd h (by decide)
    · exact absurd h (by simp)
  · split at h
    · exact absurd h (by decide)
    · obtain ⟨d, hd, he⟩ := List.mem_map.mp h
      have hlt : d < 10 := Nat.digits_lt_base (by omega) (List.mem_reverse.mp hd)
      have := congrArg UInt8.toNat he
      simp only [UInt8.toNat_ofNat', NUL] at this
      simp at this
      omega

/-- **The bytes a sender takes from a formatted buffer**: the text, cut to what the buffer
    holds, and the terminator. -/
theorem sent_snprintf {size : Nat} {text : List UInt8} (h : NUL ∉ text) :
    (snprintf size text).take (strlen (snprintf size text) + 1) =
      text.take (size - 1) ++ [NUL] := by
  have hcut : NUL ∉ text.take (size - 1) := fun hm => h (List.mem_of_mem_take hm)
  have hlen : strlen (snprintf size text) = (text.take (size - 1)).length := by
    rw [strlen, snprintf, cstr_append_nul hcut]
  rw [hlen]
  exact List.take_of_length_le (by simp [snprintf])

/-! ## `memchr` -/

theorem memchr_eq_none {bs : List UInt8} {c : UInt8} : memchr bs c = none ↔ c ∉ bs := by
  unfold memchr
  rw [List.findIdx?_eq_none_iff]
  exact ⟨fun h hm => by simpa using h c hm, fun h x hx => by
    simpa using fun e : x = c => h (e ▸ hx)⟩

/-- A hit at `k` splits the bytes at the first occurrence of the byte. -/
theorem memchr_eq_some {bs : List UInt8} {c : UInt8} {k : Nat} (h : memchr bs c = some k) :
    bs = bs.take k ++ c :: bs.drop (k + 1) ∧ c ∉ bs.take k := by
  unfold memchr at h
  obtain ⟨hk, hc, hfirst⟩ := List.findIdx?_eq_some_iff_getElem.mp h
  have hck : bs[k] = c := by simpa using hc
  refine ⟨?_, fun hm => ?_⟩
  · rw [← hck, ← List.drop_eq_getElem_cons hk, List.take_append_drop]
  · obtain ⟨j, hj, he⟩ := List.mem_iff_getElem.mp hm
    rw [List.length_take] at hj
    have := hfirst j (by omega)
    rw [List.getElem_take] at he
    simp [he] at this

/-! ## `strchr` -/

/-- `strchr` runs over the end of what is neither ended nor contains the byte. -/
theorem strchr_eq_none {bs : List UInt8} {c : UInt8} : strchr bs c = none ↔ c ∉ bs ∧ NUL ∉ bs := by
  unfold strchr
  rw [Option.map_eq_none_iff, List.findIdx?_eq_none_iff]
  constructor
  · intro h
    exact ⟨fun hm => by simpa using h c hm, fun hm => by simpa using h NUL hm⟩
  · intro h b hb
    have hc : b ≠ c := fun e => h.1 (e ▸ hb)
    have hnul : b ≠ NUL := fun e => h.2 (e ▸ hb)
    simp [hc, hnul]

/-- It stops at the first of the two. -/
theorem strchr_eq_some {bs : List UInt8} {c : UInt8} {found : Option Nat}
    (h : strchr bs c = some found) :
    ∃ front b back, bs = front ++ b :: back ∧ c ∉ front ∧ NUL ∉ front ∧
      (b = c ∧ found = some front.length ∨ b = NUL ∧ found = none) := by
  obtain ⟨k, hk, hfound⟩ := Option.map_eq_some_iff.mp h
  obtain ⟨hlt, hstop, hfirst⟩ := List.findIdx?_eq_some_iff_getElem.mp hk
  have hfront : ∀ b ∈ bs.take k, b ≠ c ∧ b ≠ NUL := by
    intro b hb
    obtain ⟨j, hj, he⟩ := List.mem_iff_getElem.mp hb
    rw [List.length_take] at hj
    rw [List.getElem_take] at he
    simpa [he] using hfirst j (by omega)
  refine ⟨bs.take k, bs[k], bs.drop (k + 1), ?_, ?_, ?_, ?_⟩
  · rw [← List.drop_eq_getElem_cons hlt, List.take_append_drop]
  · exact fun hm => (hfront c hm).1 rfl
  · exact fun hm => (hfront NUL hm).2 rfl
  · rw [List.getElem?_eq_getElem hlt] at hfound
    by_cases hc : bs[k] = c
    · rw [if_pos (congrArg some hc)] at hfound
      have hlength : (bs.take k).length = k := by
        rw [List.length_take]
        omega
      exact .inl ⟨hc, by rw [hlength, hfound]⟩
    · rw [if_neg fun he => hc (Option.some.inj he)] at hfound
      have hnul : bs[k] = NUL := by simpa [hc] using hstop
      exact .inr ⟨hnul, hfound.symm⟩

theorem strchr_append {front back : List UInt8} {b c : UInt8} (hc : c ∉ front) (hnul : NUL ∉ front)
    (hb : b = c ∨ b = NUL) :
    strchr (front ++ b :: back) c = some (if b = c then some front.length else none) := by
  have hfront : front.findIdx? (fun b => b == c || b == NUL) = none := by
    rw [List.findIdx?_eq_none_iff]
    intro x hx
    have hxc : x ≠ c := fun e => hc (e ▸ hx)
    have hxnul : x ≠ NUL := fun e => hnul (e ▸ hx)
    simp [hxc, hxnul]
  have hstop : (b == c || b == NUL) = true := by simpa using hb
  simp [strchr, List.findIdx?_append, hfront, List.findIdx?_cons, hstop]

end Lib
end Labs
