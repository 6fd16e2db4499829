import Labs.SharedFile.Letters

/-!
# A byte too much

The POSIX programs resize the object for each file and copy the file without its terminator. What
stands behind it is `byteAt`, which goes through the writings from the last one on. It is a byte of
an earlier and longer file if all files after that one have left it alone (`LeftOver`), and NUL
otherwise. So the reader may print a byte that is no byte of the file, or read on behind the
mapping.

## How a byte survives

The writer makes the object one byte longer than its file, and `ftruncate` keeps what the object
has, up to its new length; what is added is zero (`getD_ftruncate`). A shorter file cuts the byte at
`j` off. A longer one stores its own there. A file of exactly `j` bytes ends in front of it, and one
whose `mmap` fails is not stored at all: both leave it as it is. These are the cases of `byteAt`,
and `LeftOver` says of a list of writings that it comes to a byte of a file and to none of the
others.

The reader goes on to a NUL. If the object has none, there is one in the rest of its last page,
which is zero, unless the object ends where the page does.
-/

namespace Labs
namespace SharedFile

open Lib

variable {pageSize : Nat} {w : Writing} {ws : List Writing} {r : Reading} {runs : List Run}
  {s : Store} {seg : List UInt8}

/-! ## 1. The runs of the POSIX programs -/

theorem posixWriter_of_not_reaches (h : ¬ w.Reaches .posix pageSize) :
    ∃ status, posixWriter pageSize w s = (⟨.returned status, none⟩, s) ∨
      posixWriter pageSize w s = (⟨.returned status, none⟩, some (s.getD [])) := by
  unfold posixWriter
  by_cases hread : w.Readable pageSize
  · rw [payload_of_readable hread]
    dsimp only
    by_cases hopen : w.fails .shmOpen = true
    · exact ⟨_, Or.inl (by simp only [hopen, if_true]; rfl)⟩
    by_cases hsize : w.fails .ftruncate = true
    · exact ⟨_, Or.inr (by simp only [hopen, hsize, if_true]; rfl)⟩
    exact absurd ⟨hread, by simp_all [Clear]⟩ h
  · obtain ⟨status, hpay⟩ := payload_of_not_readable hread
    exact ⟨status, Or.inl (by rw [hpay])⟩

theorem length_ftruncate (n : Nat) : (ftruncate n seg).length = n := by
  simp [ftruncate]
  omega

/-- What is cut off is zero when it comes back. -/
theorem getD_ftruncate (n j : Nat) :
    (ftruncate n seg).getD j 0 = if j < n then seg.getD j 0 else 0 := by
  simp only [List.getD_eq_getElem?_getD]
  by_cases hj : j < n
  · rw [if_pos hj, ftruncate]
    by_cases hseg : j < seg.length
    · rw [List.getElem?_append_left (by simp; omega), List.getElem?_take_of_lt hj]
    · rw [List.getElem?_append_right (by simp; omega), List.getElem?_eq_none (not_lt.mp hseg)]
      simp only [List.getElem?_replicate]
      split_ifs <;> rfl
  · rw [if_neg hj, List.getElem?_eq_none (by rw [length_ftruncate]; omega)]
    rfl

theorem posixWriter_of_reaches (h : w.Reaches .posix pageSize)
    (hseg : ftruncate (w.bytes.length + 1) (s.getD []) = seg) :
    posixWriter pageSize w s =
      if w.fails .attach then (.failure, some seg)
      else (.ofCall (w.fails .detach), some (w.bytes ++ [seg.getD w.bytes.length 0])) := by
  obtain ⟨hread, hclear⟩ := h
  simp only [Clear, reduceCtorEq, if_false, List.forall_mem_cons] at hclear
  obtain ⟨hopen, hsize, -⟩ := hclear
  have hlen : seg.length = w.bytes.length + 1 := by
    rw [← hseg]
    exact length_ftruncate _
  have hrest : seg.drop w.bytes.length = [seg.getD w.bytes.length 0] := by
    rw [List.drop_eq_getElem_cons (by omega), List.drop_eq_nil_of_le (by omega),
      List.getD_eq_getElem?_getD, List.getElem?_eq_getElem (by omega), Option.getD_some]
  have hcopy : memcpy seg w.bytes = some (w.bytes ++ [seg.getD w.bytes.length 0]) := by
    unfold memcpy
    rw [if_pos (by omega), hrest]
  unfold posixWriter
  simp only [hopen, hsize, payload_of_readable hread, hseg, hcopy, Bool.false_eq_true, if_false]

theorem posixReader_clean (hr : r.Clean) (hne : seg ≠ []) :
    posixReader pageSize r (some seg) =
      match mappedText pageSize seg with
      | none => (⟨.outOfBounds, none⟩, some seg)
      | some text => (⟨.returned EXIT_SUCCESS, some text⟩, none) := by
  unfold Reading.Clean at hr
  simp only [posixReader, hr, hne, Bool.false_eq_true, if_false, or_self]
  rfl

theorem posixReader_store :
    (posixReader pageSize r s).2 = s ∨ (posixReader pageSize r s).2 = none := by
  cases s with
  | none =>
    unfold posixReader
    split_ifs <;> exact Or.inl rfl
  | some seg =>
    unfold posixReader
    dsimp only
    cases mappedText pageSize seg with
    | none =>
      dsimp only
      split_ifs <;> exact Or.inl rfl
    | some text =>
      dsimp only
      split_ifs <;> simp

/-! ## 2. The byte behind the file -/

/-- The byte `j` of the object after the writings. One that the object has been too short for is
    zero, and one that a file is too short for stays as it was. -/
def byteAt : List Writing → Nat → UInt8
  | [], _ => 0
  | w :: ws, j =>
    if w.bytes.length < j then 0
    else if w.fails .attach then byteAt ws j
    else w.bytes[j]?.getD (byteAt ws j)

theorem getD_bytes (hattach : w.fails .attach = false) (j : Nat) :
    (w.bytes ++ [byteAt ws w.bytes.length]).getD j 0 = byteAt (w :: ws) j := by
  rw [byteAt, hattach, List.getD_eq_getElem?_getD]
  simp only [Bool.false_eq_true, if_false]
  rcases lt_trichotomy j w.bytes.length with hj | rfl | hj
  · rw [if_neg (by omega), List.getElem?_append_left hj, List.getElem?_eq_getElem hj]
    rfl
  · simp
  · rw [if_pos hj, List.getElem?_eq_none (by simp; omega)]
    rfl

/-- The object is as long as the last file and one byte more, and its bytes are known. -/
structure Keeps (ws : List Writing) (s : Store) : Prop where
  size : ∀ w ∈ ws.head?, (s.getD []).length = w.bytes.length + 1
  bytes : ∀ j, (s.getD []).getD j 0 = byteAt ws j

theorem Keeps.nil : Keeps [] none := ⟨by simp, fun _ => rfl⟩

theorem Keeps.write (h : Keeps ws s) (hw : w.Reaches .posix pageSize) :
    Keeps (w :: ws) (posixWriter pageSize w s).2 := by
  rw [posixWriter_of_reaches hw rfl]
  have hbytes : ∀ j, (ftruncate (w.bytes.length + 1) (s.getD [])).getD j 0 =
      if w.bytes.length < j then 0 else byteAt ws j := by
    intro j
    rw [getD_ftruncate, h.bytes]
    split_ifs <;> first | rfl | omega
  cases hattach : w.fails .attach with
  | true =>
    constructor
    · intro w' hw'
      obtain rfl : w = w' := by simpa using hw'
      exact length_ftruncate _
    · intro j
      rw [byteAt, hattach]
      exact hbytes j
  | false =>
    have hlast := hbytes w.bytes.length
    rw [if_neg (Nat.lt_irrefl _)] at hlast
    constructor
    · intro w' hw'
      obtain rfl : w = w' := by simpa using hw'
      simp
    · intro j
      rw [← getD_bytes hattach, ← hlast]
      rfl

theorem keeps_after (runs : List Run) :
    Keeps (writings .posix pageSize runs) (after .posix pageSize runs) := by
  induction runs with
  | nil => exact Keeps.nil
  | cons run runs ih =>
    cases run with
    | write w =>
      by_cases hw : w.Reaches .posix pageSize
      · rw [writings, if_pos hw]
        exact ih.write hw
      · obtain ⟨status, hrun | hrun⟩ := @posixWriter_of_not_reaches pageSize w
          (after .posix pageSize runs) hw
        · rw [writings, if_neg hw, after, exec, hrun]
          exact ih
        · rw [writings, if_neg hw, after, exec, hrun]
          exact ⟨ih.size, ih.bytes⟩
    | read r =>
      rw [writings]
      split_ifs with hnone
      · rw [hnone]
        exact Keeps.nil
      · have hstore : after .posix pageSize (.read r :: runs) = after .posix pageSize runs := by
          rcases @posixReader_store pageSize r (after .posix pageSize runs) with h | h
          · exact h
          · exact absurd h hnone
        rw [hstore]
        exact ih

/-- The byte `b` of a longer file has stood at `n` since: all later files were at least `n` bytes
    long, and none that was copied was longer. -/
def LeftOver (ws : List Writing) (n : Nat) (b : UInt8) : Prop :=
  ∃ later u earlier, ws = later ++ u :: earlier ∧ u.fails .attach = false ∧ u.bytes[n]? = some b ∧
    ∀ x ∈ later, n ≤ x.bytes.length ∧ (x.fails .attach = false → x.bytes.length = n)

theorem byteAt_eq_iff {n : Nat} {b : UInt8} (hb : b ≠ 0) : byteAt ws n = b ↔ LeftOver ws n b := by
  induction ws with
  | nil =>
    constructor
    · intro h
      exact absurd h.symm hb
    · intro h
      obtain ⟨later, u, earlier, hws, -⟩ := h
      simp at hws
  | cons w ws ih =>
    have hcons : LeftOver (w :: ws) n b ↔ (w.fails .attach = false ∧ w.bytes[n]? = some b) ∨
        (n ≤ w.bytes.length ∧ (w.fails .attach = false → w.bytes.length = n)) ∧
          LeftOver ws n b := by
      constructor
      · rintro ⟨later, u, earlier, hws, hu, hbyte, hlater⟩
        cases later with
        | nil =>
          obtain ⟨rfl, rfl⟩ := List.cons_eq_cons.mp hws
          exact Or.inl ⟨hu, hbyte⟩
        | cons x later =>
          obtain ⟨rfl, rfl⟩ := List.cons_eq_cons.mp hws
          obtain ⟨hx, hrest⟩ := List.forall_mem_cons.mp hlater
          exact Or.inr ⟨hx, later, u, earlier, rfl, hu, hbyte, hrest⟩
      · rintro (⟨hw, hbyte⟩ | ⟨hx, later, u, earlier, rfl, hu, hbyte, hlater⟩)
        · exact ⟨[], w, ws, rfl, hw, hbyte, by simp⟩
        · exact ⟨w :: later, u, earlier, rfl, hu, hbyte, List.forall_mem_cons.mpr ⟨hx, hlater⟩⟩
    rw [hcons, ← ih, byteAt]
    by_cases hshort : w.bytes.length < n
    · -- cut off
      simp [hshort, Ne.symm hb, Nat.not_le.mpr hshort, List.getElem?_eq_none hshort.le]
    · rw [if_neg hshort]
      cases hattach : w.fails .attach with
      | true => simp [Nat.not_lt.mp hshort]
      | false =>
        by_cases hlen : w.bytes.length = n
        · simp [hlen]
        · have hlt : n < w.bytes.length := by omega
          simp [hlen, hlt, Nat.not_lt.mp hshort]

/-! ## 3. The text and what comes with it -/

theorem ext_getD {xs ys : List UInt8} (hlen : xs.length = ys.length)
    (h : ∀ j, xs.getD j 0 = ys.getD j 0) : xs = ys := by
  refine List.ext_getElem hlen fun j hx hy => ?_
  have hj := h j
  simp only [List.getD_eq_getElem?_getD, List.getElem?_eq_getElem hx, List.getElem?_eq_getElem hy,
    Option.getD_some] at hj
  exact hj

/-- **The reader prints the last file, or one byte too much, or it reads behind the mapping.** It
    prints the file and nothing else iff no longer file has left a byte behind its end. -/
theorem posix_delivers (hr : r.Clean) (hws : writings .posix pageSize runs = w :: ws)
    (hattach : w.fails .attach = false) (htext : NUL ∉ w.bytes) :
    ((exec .posix pageSize (.read r) (after .posix pageSize runs)).1 =
        ⟨.returned EXIT_SUCCESS, some w.bytes⟩ ↔
      ∀ b, LeftOver ws w.bytes.length b → b = NUL) ∧
    ∀ b, LeftOver ws w.bytes.length b → b ≠ NUL →
      (exec .posix pageSize (.read r) (after .posix pageSize runs)).1 =
        if (w.bytes.length + 1) % pageSize = 0 then ⟨.outOfBounds, none⟩
        else ⟨.returned EXIT_SUCCESS, some (w.bytes ++ [b])⟩ := by
  have hkeeps := @keeps_after pageSize runs
  rw [hws] at hkeeps
  generalize after .posix pageSize runs = s at hkeeps ⊢
  -- the object is the file and one byte
  obtain ⟨seg, rfl, hlen⟩ : ∃ seg, s = some seg ∧ seg.length = w.bytes.length + 1 := by
    have hsize := hkeeps.size w rfl
    cases s with
    | none => simp at hsize
    | some seg => exact ⟨seg, rfl, hsize⟩
  obtain rfl : seg = w.bytes ++ [byteAt ws w.bytes.length] := by
    refine ext_getD (by simp [hlen]) fun j => ?_
    rw [getD_bytes hattach]
    exact hkeeps.bytes j
  have hreads := @posixReader_clean pageSize r (w.bytes ++ [byteAt ws w.bytes.length]) hr (by simp)
  by_cases hzero : byteAt ws w.bytes.length = 0
  · have hmapped : mappedText pageSize (w.bytes ++ [byteAt ws w.bytes.length]) = some w.bytes := by
      have hcstr : cstr (w.bytes ++ [0]) = w.bytes := cstr_append_nul htext []
      rw [mappedText, if_pos (by simp [hzero, NUL]), hzero, hcstr]
    have hnone : ∀ b, LeftOver ws w.bytes.length b → b = NUL := by
      intro b hb
      by_contra hne
      exact hne (((byteAt_eq_iff hne).mpr hb).symm.trans hzero)
    rw [hmapped] at hreads
    exact ⟨iff_of_true (congrArg Prod.fst hreads) hnone, fun b hb hne => absurd (hnone b hb) hne⟩
  · have hleft := (byteAt_eq_iff hzero).mp rfl
    have hfree : NUL ∉ w.bytes ++ [byteAt ws w.bytes.length] := by
      have hne : NUL ≠ byteAt ws w.bytes.length := Ne.symm hzero
      simp [htext, hne]
    have houtcome : (posixReader pageSize r (some (w.bytes ++ [byteAt ws w.bytes.length]))).1 =
        if (w.bytes.length + 1) % pageSize = 0 then ⟨.outOfBounds, none⟩
        else ⟨.returned EXIT_SUCCESS, some (w.bytes ++ [byteAt ws w.bytes.length])⟩ := by
      rw [hreads, mappedText, cstr_eq_self hfree, hlen]
      by_cases hpage : (w.bytes.length + 1) % pageSize = 0
      · rw [if_neg (by simp [hfree, hpage]), if_pos hpage]
      · rw [if_pos (Or.inr hpage), if_neg hpage]
    constructor
    · refine iff_of_false ?_ fun h => hzero (h _ hleft)
      rw [exec, houtcome]
      split_ifs <;> simp
    · intro b hb hne
      rw [exec, houtcome, (byteAt_eq_iff hne).mpr hb]

/-- A file that is a byte shorter than the one before it is printed with the last byte of that. -/
theorem posix_delivers_shorter :
    (exec .posix 4096 (.read ⟨fun _ => false⟩) (after .posix 4096
        [.write (plain (ascii "on")), .write (plain (ascii "off"))])).1 =
      ⟨.returned EXIT_SUCCESS, some (ascii "onf")⟩ :=
  ((@posix_delivers 4096 (plain (ascii "on")) [plain (ascii "off")] ⟨fun _ => false⟩
      [.write (plain (ascii "on")), .write (plain (ascii "off"))] (fun _ => rfl) rfl rfl
      (by decide)).2 102 ⟨[], _, [], rfl, rfl, rfl, by simp⟩ (by decide)).trans rfl

end SharedFile
end Labs
