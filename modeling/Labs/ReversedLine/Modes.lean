import Labs.Lib.OpenFile
import Labs.ReversedLine.GetLine

/-!
# Two ways to print a line backwards

`fopen_mode` and `open_mode` of `LAB_10/task_get_line`: the line is written to a file, read back, and
printed from its end. `stdout` has a buffer that is written when the program ends; `write` does not
wait for it. What goes to `stderr`, and what `get_line` prints, is left out.

The calls may fail, which the world decides (`Outcomes`). A write to the file that succeeds is whole.

`open_mode` reads twice, the second time behind the last byte, and gives up (`openMode_of_line`).
`fopen_mode` begins to print at the terminator (`fopenMode_of_line`). So neither prints the line
backwards and nothing else (`modes_never_reverse`).

## Out of the file and backwards

Both modes get a line, write it to a file, and read the file into a buffer of zeros. What they print
is then a function of that buffer (`backwards`), the same loop over two ways to put a byte. The loop
counts down from the terminator, not from the byte in front of it, so the first byte printed is a
`NUL`, and the buffer of `fopen_mode` shows the line behind it.

`open_mode` does not come so far. Its first `read` has read the whole file, and the second one finds
nothing, which the code takes for an error (`openBack_error`). Only where the first one fails does
the second one get the line.

The property asks for some number of calls of `fgets` and for success, so that neither a mode that
waits for ever nor one that returns `ERR` has it; what is refuted is that weak form, for every line.
-/

namespace Labs
namespace ReversedLine

open Lib

abbrev BUFSIZE : Nat := 256
def OK : Int := 0
def ERR : Int := -1

def LABEL : List UInt8 := ascii "reversed string: "

/-- Which calls succeed; of `read`, and of `write` to `stdout`, by their number. -/
structure Outcomes where
  opened : Bool
  written : Bool
  fileno : Bool
  synced : Bool
  read : Nat → Bool
  put : Nat → Bool

/-- All of them succeed. -/
def Outcomes.fine : Outcomes := ⟨true, true, true, true, fun _ => true, fun _ => true⟩

/-- What was written to descriptor 1, and what is in the buffer of `stdout`. -/
structure Out where
  written : List UInt8
  buffered : List UInt8
deriving DecidableEq

namespace Out

def empty : Out := ⟨[], []⟩

/-- `fputc`, or `printf` of more bytes. -/
def print (o : Out) (bs : List UInt8) : Out := { o with buffered := o.buffered ++ bs }

/-- `write(STDOUT_FILENO, …)` -/
def write (o : Out) (b : UInt8) : Out := { o with written := o.written ++ [b] }

/-- What has been printed when the program ends. -/
def close (o : Out) : List UInt8 := o.written ++ o.buffered

end Out

/-! ## 1. The program -/

/-- The loop from `buf + k` down to `buf`. -/
def backwards (put : Out → UInt8 → Except Out Out) (buf : List UInt8) : Nat → Out → Except Out Out
  | 0, o => put o (buf.getD 0 NUL)
  | k + 1, o => (put o (buf.getD (k + 1) NUL)).bind (backwards put buf k)

/-- The buffer after `memset` and a read into it. -/
def refill (got : List UInt8) : List UInt8 := got ++ List.replicate (BUFSIZE - got.length) NUL

def fputc (o : Out) (b : UInt8) : Except Out Out := .ok (o.print [b])

/-- A `write` of one byte to `stdout`. -/
def writeByte (w : Outcomes) (o : Out) (b : UInt8) : Except Out Out :=
  if w.put o.written.length then .ok (o.write b) else .error o

/-- From `fopen` on. -/
def fopenBack (w : Outcomes) (buf : List UInt8) : Int × Out :=
  if w.opened = false then (ERR, .empty)
  else
    let len := strlen buf
    if w.written = false then (ERR, .empty)
    else
      let fp := OpenFile.create.write (buf.take (len + 1))
      if w.fileno = false then (ERR, .empty)
      else if w.synced = false then (ERR, .empty)
      else
        let fp := fp.seek 0
        let got := if w.read 0 then (fp.read (len + 1)).1 else []
        if got.length < 1 then (ERR, .empty)
        else
          let buf := refill got
          match backwards fputc buf (strlen buf) (Out.empty.print LABEL) with
          | .ok o => (OK, o.print [NEWLINE])
          | .error o => (ERR, o)

/-- From `open` on. -/
def openBack (w : Outcomes) (buf : List UInt8) : Int × Out :=
  if w.opened = false then (ERR, .empty)
  else
    let len := strlen buf
    if w.written = false then (ERR, .empty)
    else
      let fd := OpenFile.create.write (buf.take (len + 1))
      if w.synced = false then (ERR, .empty)
      else
        let fd := fd.seek 0
        -- the result of the first `read` is not looked at
        let first := if w.read 0 then fd.read (len + 1) else ([], fd)
        let second := if w.read 1 then first.2.read (len + 1) else ([], first.2)
        if second.1 = [] then (ERR, .empty)
        else
          let buf := second.1 ++ (refill first.1).drop second.1.length
          match backwards (writeByte w) buf (strlen buf) (Out.empty.print LABEL) with
          | .ok o =>
            match writeByte w o NEWLINE with
            | .ok o => (OK, o)
            | .error o => (ERR, o)
          | .error o => (ERR, o)

/-- A mode: `get_line` into a buffer of zeros, and the rest if there is a line. -/
def mode (back : List UInt8 → Int × Out) (calls : Nat) (s : Stdin) : Option (Int × Out) :=
  (getLine calls (List.replicate BUFSIZE NUL) s).bind fun r =>
    match r with
    | .err => some (ERR, .empty)
    | .ok buf _ => some (back buf)
    | .outOfBounds => none

def fopenMode (w : Outcomes) (calls : Nat) (s : Stdin) : Option (Int × Out) :=
  mode (fopenBack w) calls s

def openMode (w : Outcomes) (calls : Nat) (s : Stdin) : Option (Int × Out) :=
  mode (openBack w) calls s

/-! ## 2. What is printed -/

variable {w : Outcomes} {buf bs line : List UInt8} {s : Stdin} {k : Nat} {o : Out}

/-- `fputc` never stops the loop. -/
theorem backwards_fputc (hk : k < buf.length) :
    backwards fputc buf k o = .ok (o.print (buf.take (k + 1)).reverse) := by
  induction k generalizing o with
  | zero => simp [backwards, fputc, List.take_succ_eq_append_getElem hk, List.getElem?_eq_getElem hk]
  | succ k ih =>
    have hlast : buf.getD (k + 1) NUL = buf[k + 1] := by
      rw [List.getD_eq_getElem?_getD, List.getElem?_eq_getElem hk, Option.getD_some]
    rw [backwards, hlast, fputc, Except.bind, ih (by omega), List.take_succ_eq_append_getElem hk,
      List.reverse_append]
    simp [Out.print]

/-- The string and its terminator. -/
theorem take_strlen_succ (h : NUL ∈ buf) : buf.take (strlen buf + 1) = cstr buf ++ [NUL] := by
  obtain ⟨rest, hrest⟩ := exists_eq_cstr_append h
  have htake : (cstr buf ++ NUL :: rest).take ((cstr buf).length + 1) = cstr buf ++ [NUL] := by
    simp [List.take_append]
  rw [← hrest] at htake
  exact htake

theorem cstr_refill : cstr (refill (cstr buf ++ [NUL])) = cstr buf := by
  rw [refill, List.append_assoc]
  exact cstr_append_nul (cstr_nul_free buf) _

/-- The first `read` has read the whole file. -/
theorem openBack_error (hread : w.read 0 = true) : openBack w buf = (ERR, .empty) := by
  have hlength : (buf.take (strlen buf + 1)).length ≤ strlen buf + 1 := by
    rw [List.length_take]
    exact Nat.min_le_left ..
  have hsecond : ∀ n, (if w.read 1 then
      OpenFile.read ⟨buf.take (strlen buf + 1), (buf.take (strlen buf + 1)).length⟩ n
      else ([], ⟨buf.take (strlen buf + 1), (buf.take (strlen buf + 1)).length⟩)).1 = [] := by
    intro n
    rw [OpenFile.read_at_end (Nat.le_refl _)]
    split <;> rfl
  simp only [openBack, OpenFile.create_write, OpenFile.seek_mk, hread, if_true,
    OpenFile.read_whole hlength, hsecond]
  split
  · rfl
  · split
    · rfl
    · split <;> rfl

/-- If everything succeeds, the terminator is printed first. -/
theorem fopenBack_fine (h : NUL ∈ buf) :
    fopenBack .fine buf =
      (OK, ((Out.empty.print LABEL).print (NUL :: (cstr buf).reverse)).print [NEWLINE]) := by
  have htext := take_strlen_succ h
  have hrefill : strlen (refill (cstr buf ++ [NUL])) = strlen buf := by
    rw [strlen, cstr_refill, strlen]
  have hmem : NUL ∈ refill (cstr buf ++ [NUL]) := by simp [refill]
  have htake : (refill (cstr buf ++ [NUL])).take (strlen buf + 1) = cstr buf ++ [NUL] := by
    rw [← hrefill, take_strlen_succ hmem, cstr_refill]
  have hshort : strlen buf < (refill (cstr buf ++ [NUL])).length := by simp [refill, strlen]
  have hprint := @backwards_fputc _ _ (Out.empty.print LABEL) hshort
  rw [htake, List.reverse_append] at hprint
  have hlength : (cstr buf ++ [NUL]).length ≤ strlen buf + 1 := by simp [strlen]
  simp only [fopenBack, Outcomes.fine, OpenFile.create_write, OpenFile.seek_mk, htext, if_true,
    OpenFile.read_whole hlength, hrefill, hprint]
  simp

/-! ## 3. The two modes -/

/-- With some number of calls of `fgets`, the mode is successful, and what it prints is the label,
the line backwards as far as there was room for it, and a newline. -/
def Reverses (mode : Nat → Stdin → Option (Int × Out)) (s : Stdin) (line : List UInt8) : Prop :=
  ∃ calls o, mode calls s = some (OK, o) ∧
    o.close = LABEL ++ (line.take (BUFSIZE - 1)).reverse ++ [NEWLINE]

/-- What `get_line` returns is terminated. -/
theorem terminated_of_chop {buf' : List UInt8} {rest : Stdin} (h : chop buf s = .ok buf' rest) :
    NUL ∈ buf' := by
  unfold chop at h
  cases hfound : strchr buf NEWLINE with
  | none => rw [hfound] at h; cases h
  | some found =>
    obtain ⟨front, b, back, hbuf, hnewline, hnul, hb⟩ := strchr_eq_some hfound
    obtain ⟨rfl, rfl⟩ | ⟨rfl, rfl⟩ := hb
    · rw [hfound] at h
      cases h
      simp [hbuf]
    · rw [hfound] at h
      cases h
      simp [hbuf]

theorem terminated_of_attempt {t : List UInt8 × Stdin} {buf' : List UInt8} {rest : Stdin}
    (h : attempt t = .inl (.ok buf' rest)) : NUL ∈ buf' := by
  have hlook : ∀ {buf : List UInt8} {s : Stdin}, look buf s = .inl (.ok buf' rest) → NUL ∈ buf' := by
    intro buf s hlook
    unfold look at hlook
    split at hlook
    · cases hlook
    · exact terminated_of_chop (Sum.inl.inj hlook)
  unfold attempt at h
  split at h
  · cases h
  · exact hlook h
  · exact hlook h

theorem terminated_of_getLine {calls : Nat} {buf' : List UInt8} {rest : Stdin}
    (h : getLine calls buf s = some (.ok buf' rest)) : NUL ∈ buf' := by
  unfold getLine at h
  split at h
  · cases h
  · generalize (buf, s) = t at h
    induction calls generalizing t with
    | zero => cases h
    | succ calls ih =>
      cases hturn : attempt t with
      | inl r =>
        rw [runFor_of_inl hturn] at h
        cases h
        exact terminated_of_attempt hturn
      | inr t' =>
        rw [runFor_of_inr hturn] at h
        exact ih t' h

theorem mode_ok {back : List UInt8 → Int × Out} {calls : Nat}
    (h : mode back calls s = some (OK, o)) : ∃ buf, NUL ∈ buf ∧ back buf = (OK, o) := by
  obtain ⟨r, hget, hr⟩ := Option.bind_eq_some_iff.mp h
  cases r with
  | err => cases hr
  | ok buf rest => exact ⟨buf, terminated_of_getLine hget, Option.some.inj hr⟩
  | outOfBounds => cases hr

theorem not_reverses_openMode (s : Stdin) (line : List UInt8) :
    ¬ Reverses (openMode .fine) s line := by
  intro hreverses
  obtain ⟨calls, o, hmode, -⟩ := hreverses
  obtain ⟨buf, -, hback⟩ := mode_ok hmode
  rw [openBack_error rfl] at hback
  cases hback

/-- The byte behind the label is a NUL. -/
theorem not_reverses_fopenMode (s : Stdin) (hline : NUL ∉ line) :
    ¬ Reverses (fopenMode .fine) s line := by
  intro hreverses
  obtain ⟨calls, o, hmode, hprinted⟩ := hreverses
  obtain ⟨buf, hnul, hback⟩ := mode_ok hmode
  rw [fopenBack_fine hnul] at hback
  cases hback
  have htail : NUL :: (cstr buf).reverse ++ [NEWLINE] =
      (line.take (BUFSIZE - 1)).reverse ++ [NEWLINE] := by
    simpa [Out.close, Out.print, Out.empty] using hprinted
  have hmem : NUL ∈ (line.take (BUFSIZE - 1)).reverse := by
    rw [← List.append_cancel_right htail]
    exact List.mem_cons_self ..
  exact hline (List.mem_of_mem_take (List.mem_reverse.mp hmem))

/-- Neither mode prints the line backwards and nothing else: `open_mode` is not successful, and what
`fopen_mode` prints begins with a NUL. -/
theorem modes_never_reverse (s : Stdin) (line : List UInt8) :
    ¬ Reverses (openMode .fine) s line ∧ (NUL ∉ line → ¬ Reverses (fopenMode .fine) s line) :=
  ⟨not_reverses_openMode s line, not_reverses_fopenMode s⟩

/-- The line `ab`. -/
theorem not_agree_ab :
    ¬ (Reverses (fopenMode .fine) ⟨[97, 98, NEWLINE], false⟩ [97, 98] ∧
      Reverses (openMode .fine) ⟨[97, 98, NEWLINE], false⟩ [97, 98]) := by
  intro h
  exact not_reverses_openMode _ _ h.2

section Line

variable (bytes : List UInt8) (fails : Bool) (hne : line ≠ []) (hnul : NUL ∉ line)
  (hnewline : NEWLINE ∉ line)

include hne hnul hnewline

/-- The buffer of zeros takes the line. -/
theorem mode_of_line (back : List UInt8 → Int × Out) :
    ∃ buf, mode back 1 ⟨line ++ NEWLINE :: bytes, fails⟩ = some (back buf) ∧ NUL ∈ buf ∧
      cstr buf = line.take (BUFSIZE - 1) := by
  have hlength : (List.replicate BUFSIZE NUL).length = BUFSIZE := List.length_replicate
  have hsize : 2 ≤ (List.replicate BUFSIZE NUL).length := by
    rw [hlength]
    decide
  obtain ⟨buf, rest, hget, hmem, htext⟩ := getLine_of_line bytes fails hsize hne hnul hnewline
  rw [hlength] at htext
  exact ⟨buf, by rw [mode, hget, Option.bind_some], hmem, htext⟩

/-- What `fopen_mode` prints of a line. -/
theorem fopenMode_of_line :
    ∃ o, fopenMode .fine 1 ⟨line ++ NEWLINE :: bytes, fails⟩ = some (OK, o) ∧
      o.close = LABEL ++ NUL :: (line.take (BUFSIZE - 1)).reverse ++ [NEWLINE] := by
  obtain ⟨buf, hmode, hmem, htext⟩ := mode_of_line bytes fails hne hnul hnewline (fopenBack .fine)
  rw [fopenBack_fine hmem, htext] at hmode
  exact ⟨_, hmode, by simp [Out.close, Out.print, Out.empty]⟩

/-- `open_mode` prints nothing. -/
theorem openMode_of_line :
    openMode .fine 1 ⟨line ++ NEWLINE :: bytes, fails⟩ = some (ERR, .empty) := by
  obtain ⟨buf, hmode, -, -⟩ := mode_of_line bytes fails hne hnul hnewline (openBack .fine)
  rw [openBack_error rfl] at hmode
  exact hmode

end Line

end ReversedLine
end Labs
