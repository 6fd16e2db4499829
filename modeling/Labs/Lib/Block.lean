import Mathlib.Data.List.Basic

/-!
# Blocks of memory

A `Block n` is an object of `n` bytes: an array, a `struct`, an allocation. Its length is a
field, so no access has to re-establish it. A write past the end of the object is the one
thing that can go wrong, and `Block.write` answers `none` there: a model that stays inside
`some` has shown that it stays inside its memory.
-/

namespace Labs
namespace Lib

/-- An object of `n` bytes. -/
structure Block (n : Nat) where
  bytes : List UInt8
  size_eq : bytes.length = n
deriving DecidableEq

namespace Block

variable {n : Nat}

/-- The object after `memset(…, 0, n)`. -/
def zero (n : Nat) : Block n := ⟨List.replicate n 0, List.length_replicate⟩

/-- The `len` bytes from offset `off` on, as far as the object reaches. -/
def read (b : Block n) (off len : Nat) : List UInt8 := (b.bytes.drop off).take len

/-- `memcpy` of `src` to offset `off`; `none` when it would leave the object. -/
def write (b : Block n) (off : Nat) (src : List UInt8) : Option (Block n) :=
  if h : off + src.length ≤ n then
    some ⟨b.bytes.take off ++ src ++ b.bytes.drop (off + src.length), by
      have hb := b.size_eq
      simp only [List.length_append, List.length_take, List.length_drop]
      omega⟩
  else none

theorem length_read {b : Block n} {off len : Nat} (h : off + len ≤ n) :
    (b.read off len).length = len := by
  have hb := b.size_eq
  simp only [read, List.length_take, List.length_drop]
  omega

@[simp] theorem read_zero_len (b : Block n) (off : Nat) : b.read off 0 = [] := by
  simp [read]

theorem write_of_le {b : Block n} {off : Nat} {src : List UInt8} (h : off + src.length ≤ n) :
    ∃ b', b.write off src = some b' :=
  ⟨_, dif_pos h⟩

/-- What a successful write leaves behind. -/
theorem write_bytes {b b' : Block n} {off : Nat} {src : List UInt8}
    (h : b.write off src = some b') :
    off + src.length ≤ n ∧
      b'.bytes = b.bytes.take off ++ src ++ b.bytes.drop (off + src.length) := by
  unfold write at h
  split at h
  · rename_i hle
    simp only [Option.some.injEq] at h
    subst h
    exact ⟨hle, rfl⟩
  · exact absurd h (by simp)

/-- Appending to the first `off` bytes of an object extends what a read from its start sees. -/
theorem read_write_append {b b' : Block n} {off : Nat} {src : List UInt8}
    (h : b.write off src = some b') :
    b'.read 0 (off + src.length) = b.read 0 off ++ src := by
  obtain ⟨hle, hb⟩ := write_bytes h
  have hsz := b.size_eq
  have htake : (b.bytes.take off).length = off := by
    rw [List.length_take]
    omega
  simp only [read, List.drop_zero, hb]
  exact List.take_left' (by rw [List.length_append, htake])

/-- …in particular a copy to the start of an object is what it then starts with. -/
theorem read_write_start {b b' : Block n} {src : List UInt8} (h : b.write 0 src = some b') :
    b'.read 0 src.length = src := by
  have := read_write_append h
  simpa using this

/-- What a copy to `off` leaves to be read from there. -/
theorem read_write_self {b b' : Block n} {off : Nat} {src : List UInt8}
    (h : b.write off src = some b') (len : Nat) :
    b'.read off len = (src ++ b.bytes.drop (off + src.length)).take len := by
  obtain ⟨hle, hb⟩ := write_bytes h
  have hsz := b.size_eq
  have htake : (b.bytes.take off).length = off := by
    rw [List.length_take]
    omega
  rw [read, hb, List.append_assoc, List.drop_left' htake]

/-- A copy changes nothing in front of it… -/
theorem read_write_before {b b' : Block n} {off o len : Nat} {src : List UInt8}
    (h : b.write off src = some b') (hle : o + len ≤ off) : b'.read o len = b.read o len := by
  obtain ⟨hin, hb⟩ := write_bytes h
  have hsz := b.size_eq
  have hlen : len ≤ ((b.bytes.take off).drop o).length := by
    simp only [List.length_drop, List.length_take]
    omega
  have ho : o ≤ (b.bytes.take off).length := by
    rw [List.length_take]
    omega
  rw [read, hb, List.append_assoc, List.drop_append_of_le_length ho,
    List.take_append_of_le_length hlen, List.drop_take, List.take_take, read]
  congr 1
  omega

/-- …and nothing behind it. -/
theorem read_write_after {b b' : Block n} {off o : Nat} {src : List UInt8}
    (h : b.write off src = some b') (hle : off + src.length ≤ o) (len : Nat) :
    b'.read o len = b.read o len := by
  obtain ⟨hin, hb⟩ := write_bytes h
  have hsz := b.size_eq
  have hfront : (b.bytes.take off ++ src).length = off + src.length := by
    rw [List.length_append, List.length_take]
    omega
  have hdrop : b'.bytes.drop o = b.bytes.drop o := by
    rw [hb, List.drop_append, List.drop_eq_nil_of_le (by omega), List.nil_append, List.drop_drop,
      hfront]
    congr 1
    omega
  rw [read, hdrop, read]

/-- The bytes that are copied over. -/
theorem getElem?_write {b b' : Block n} {off k : Nat} {src : List UInt8}
    (h : b.write off src = some b') (hk : k < src.length) : b'.bytes[off + k]? = src[k]? := by
  obtain ⟨hin, hb⟩ := write_bytes h
  have hsz := b.size_eq
  have htake : (b.bytes.take off).length = off := by
    rw [List.length_take]
    omega
  rw [hb, List.append_assoc, List.getElem?_append_right (by omega), htake, Nat.add_sub_cancel_left,
    List.getElem?_append_left hk]

/-- …and those beside them. -/
theorem getElem?_write_beside {b b' : Block n} {off k : Nat} {src : List UInt8}
    (h : b.write off src = some b') (hk : k < off ∨ off + src.length ≤ k) :
    b'.bytes[k]? = b.bytes[k]? := by
  obtain ⟨hin, hb⟩ := write_bytes h
  have hsz := b.size_eq
  have htake : (b.bytes.take off).length = off := by
    rw [List.length_take]
    omega
  rw [hb]
  rcases hk with hk | hk
  · rw [List.append_assoc, List.getElem?_append_left (by omega), List.getElem?_take_of_lt hk]
  · rw [List.getElem?_append_right (by rw [List.length_append]; omega), List.length_append, htake,
      List.getElem?_drop, Nat.add_sub_cancel' hk]

end Block

end Lib
end Labs
