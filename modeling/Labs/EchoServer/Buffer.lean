import Labs.Lib.Block
import Labs.Lib.CString

/-!
# The buffer of an echo server

The echo servers of `LAB_17` have one buffer each, which is never cleared. A message is received
over what stands in it, `strncat` puts a `!` behind the text, and the whole buffer is sent back.
-/

namespace Labs
namespace EchoServer

open Lib

def BUFFER_SIZE : Nat := 1024

abbrev Buffer : Type := Block BUFFER_SIZE

/-- `recvfrom(…, buffer, BUFFER_SIZE, …)`. What does not fit is lost, and what the datagram does not
    reach stays. -/
def recvfrom (b : Buffer) (datagram : List UInt8) : Buffer where
  bytes := datagram.take BUFFER_SIZE ++ b.bytes.drop datagram.length
  size_eq := by
    have hsize := b.size_eq
    simp only [List.length_append, List.length_take, List.length_drop]
    omega

/-- `strncat(buffer, "!", 2)`. There is no answer if the text does not end in the buffer, or if it
    leaves no room. -/
def strncat (b : Buffer) : Option Buffer :=
  (memchr b.bytes NUL).bind fun k => b.write k (ascii "!" ++ [NUL])

variable {b b' : Buffer} {s rest : List UInt8}

theorem cstr_append_replicate (hs : NUL ∉ s) (n : Nat) : cstr (s ++ List.replicate n NUL) = s := by
  cases n with
  | zero => rw [List.replicate_zero, List.append_nil, cstr_eq_self hs]
  | succ n => rw [List.replicate_succ, cstr_append_nul hs]

theorem memchr_nul (h : NUL ∉ s) : memchr (s ++ NUL :: rest) NUL = some s.length := by
  rw [memchr, List.findIdx?_append, List.findIdx?_eq_none_iff.mpr, List.findIdx?_cons]
  · simp
  · intro x hx
    simpa using fun e : x = NUL => h (e ▸ hx)

theorem strncat_eq_some (h : NUL ∉ s) (hb : b.bytes = s ++ NUL :: rest)
    (hlen : s.length + 2 ≤ BUFFER_SIZE) :
    ∃ b', strncat b = some b' ∧ b'.bytes = s ++ ascii "!" ++ NUL :: rest.tail := by
  have hbang : (ascii "!" ++ [NUL]).length = 2 := rfl
  obtain ⟨b', hb'⟩ := @Block.write_of_le _ b s.length (ascii "!" ++ [NUL]) (by rw [hbang]; exact hlen)
  refine ⟨b', ?_, ?_⟩
  · rw [strncat, hb, memchr_nul h]
    exact hb'
  · have hdrop : (s ++ NUL :: rest).drop (s.length + 2) = rest.tail := by
      rw [List.drop_append, List.drop_eq_nil_of_le (by omega), List.nil_append]
      simp [← List.drop_one]
    obtain ⟨-, hbytes⟩ := Block.write_bytes hb'
    rw [hbytes, hb, List.take_left, hbang, hdrop]
    simp

theorem strncat_eq_none (hb : BUFFER_SIZE ≤ (cstr b.bytes).length + 1) : strncat b = none := by
  unfold strncat
  cases hk : memchr b.bytes NUL with
  | none => rfl
  | some k =>
    obtain ⟨hsplit, hfree⟩ := memchr_eq_some hk
    have hcstr : cstr b.bytes = b.bytes.take k := by
      conv_lhs => rw [hsplit]
      exact cstr_append_nul hfree _
    rw [hcstr, List.length_take] at hb
    refine dif_neg ?_
    have : (ascii "!" ++ [NUL]).length = 2 := rfl
    omega

end EchoServer
end Labs
