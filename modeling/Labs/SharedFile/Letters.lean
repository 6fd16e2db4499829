import Labs.SharedFile.Program

/-!
# The last file that fits

The segment is created by a first writer, and it lives until a reader removes it. `writings` are the
runs of the writer in its life that got to it, the last one in front.

The segment of the System V programs keeps the size that the first writer asked for, and the
terminator is copied with the file. So a longer file is refused, and a reader prints the last file
that was not: that is the `letter`.

## What decides whether a file gets in

The length of the segment is that of the first file that got to it, and the `shmget` of a longer one
fails. A writer whose `shmat` fails has made the segment or has left it as it was, and has copied
nothing. So of all writings only two things are to be known: the size of the first, and the last one
that is no longer than that and was copied (`letter`). If there is none, a new segment is all zeros,
and the letter is the empty text.

A file that is shorter than the last leaves the end of it behind its terminator. That is no part of
the string (`Holds.text`), so the reader does not print it.
-/

namespace Labs
namespace SharedFile

open Lib

variable {v : Version} {pageSize : Nat} {w : Writing} {ws : List Writing} {r : Reading}
  {runs : List Run} {s : Store} {seg : List UInt8}

/-- None of the calls fails. -/
def Clear (fails : Call → Bool) (calls : List Call) : Prop := ∀ call ∈ calls, fails call = false

def Writing.Readable (pageSize : Nat) (w : Writing) : Prop :=
  Clear w.fails [.stat, .getpagesize, .calloc, .openFile, .read] ∧ w.regular = true ∧
    SHMMIN ≤ w.stSize ∧ w.stSize ≤ pageSize * 4

/-- The run of the writer asks for a segment, or has changed the size of the object. -/
def Writing.Reaches (v : Version) (pageSize : Nat) (w : Writing) : Prop :=
  w.Readable pageSize ∧
    Clear w.fails (if v = .systemV then [.statKey, .ftok, .shmget] else [.shmOpen, .ftruncate])

instance (fails : Call → Bool) (calls : List Call) : Decidable (Clear fails calls) :=
  List.decidableBAll _ _

instance (v : Version) (pageSize : Nat) (w : Writing) : Decidable (w.Reaches v pageSize) :=
  inferInstanceAs (Decidable ((_ ∧ _ ∧ _ ∧ _) ∧ _))

/-- The runs of the writer since there last was no segment. -/
def writings (v : Version) (pageSize : Nat) : List Run → List Writing
  | [] => []
  | .write w :: runs =>
    if w.Reaches v pageSize then w :: writings v pageSize runs else writings v pageSize runs
  | .read r :: runs =>
    if after v pageSize (.read r :: runs) = none then [] else writings v pageSize runs

/-- A run of the reader in which no call fails. -/
def Reading.Clean (r : Reading) : Prop := ∀ call, r.fails call = false

/-! ## 1. The payload -/

theorem payload_of_readable (h : w.Readable pageSize) : payload pageSize w = .ok w.bytes := by
  obtain ⟨hclear, hregular, hmin, hmax⟩ := h
  simp only [Clear, List.forall_mem_cons] at hclear
  obtain ⟨hstat, hpage, hcalloc, hopen, hread, -⟩ := hclear
  simp [payload, *, Nat.not_lt.mpr hmin, Nat.not_lt.mpr hmax]

theorem payload_of_not_readable (h : ¬ w.Readable pageSize) :
    ∃ status, payload pageSize w = .error ⟨.returned status, none⟩ := by
  unfold payload Outcome.failure Outcome.success
  split_ifs with hstat hregular hpage hmin hmax hcalloc hopen hread
  case neg =>
    refine absurd ⟨?_, by simpa using hregular, Nat.not_lt.mp hmin, Nat.not_lt.mp hmax⟩ h
    simp_all [Clear]
  all_goals exact ⟨_, rfl⟩

/-! ## 2. The runs of the System V programs -/

theorem systemVWriter_of_not_reaches (h : ¬ w.Reaches .systemV pageSize) :
    ∃ status, systemVWriter pageSize w s = (⟨.returned status, none⟩, s) := by
  unfold systemVWriter
  by_cases hkey : w.fails .statKey = true
  · exact ⟨_, by rw [if_pos hkey]; rfl⟩
  rw [if_neg hkey]
  by_cases hread : w.Readable pageSize
  · rw [payload_of_readable hread]
    by_cases hftok : w.fails .ftok = true
    · exact ⟨_, by simp only [hftok, if_true]; rfl⟩
    by_cases hget : w.fails .shmget = true
    · exact ⟨_, by simp only [hftok, hget, if_true]; rfl⟩
    exact absurd ⟨hread, by simp_all [Clear]⟩ h
  · obtain ⟨status, hpay⟩ := payload_of_not_readable hread
    exact ⟨status, by rw [hpay]⟩

/-- **What a writer does to the segment**, or to a new one of the size of its file. -/
theorem systemVWriter_of_reaches (h : w.Reaches .systemV pageSize)
    (hseg : s.getD (List.replicate (w.stSize + 1) 0) = seg) :
    systemVWriter pageSize w s =
      if w.stSize < seg.length then
        if w.fails .attach then (.failure, some seg)
        else (.ofCall (w.fails .detach), some (w.bytes ++ NUL :: seg.drop (w.bytes.length + 1)))
      else (.failure, s) := by
  obtain ⟨hread, hclear⟩ := h
  simp only [Clear, if_true, List.forall_mem_cons] at hclear
  obtain ⟨hkey, hftok, hget, -⟩ := hclear
  have hlen := w.bytes_le
  have hshmget : shmget (w.stSize + 1) s = if w.stSize < seg.length then some seg else none := by
    cases s with
    | none =>
      rw [← hseg]
      simp [shmget]
    | some seg' =>
      rw [← hseg]
      rfl
  unfold systemVWriter
  simp only [hkey, hftok, hget, payload_of_readable hread, hshmget, Bool.false_eq_true, if_false]
  by_cases hfits : w.stSize < seg.length
  · have hcopy : memcpy seg (w.bytes ++ [NUL]) =
        some (w.bytes ++ NUL :: seg.drop (w.bytes.length + 1)) := by
      unfold memcpy
      rw [if_pos (by simp; omega)]
      simp
    simp only [hfits, if_true, hcopy]
  · simp only [hfits, if_false]

theorem systemVReader_clean (hr : r.Clean) :
    systemVReader r s =
      (⟨.returned EXIT_SUCCESS, s.map fun seg => cstr (seg ++ [NUL])⟩, none) := by
  unfold Reading.Clean at hr
  cases s <;> simp [systemVReader, hr, Outcome.success, Outcome.printing]

theorem systemVReader_store : (systemVReader r s).2 = s ∨ (systemVReader r s).2 = none := by
  cases s with
  | none =>
    unfold systemVReader
    split_ifs <;> exact Or.inl rfl
  | some seg =>
    unfold systemVReader
    split_ifs <;> simp

theorem systemVReader_returns : (systemVReader r s).1.ending ≠ .outOfBounds := by
  cases s with
  | none =>
    unfold systemVReader
    split_ifs <;> simp [Outcome.success, Outcome.failure]
  | some seg =>
    unfold systemVReader
    split_ifs <;> simp [Outcome.success, Outcome.failure, Outcome.printing]

/-! ## 3. The last file that fits -/

/-- The file that a reader finds: the last one that is no longer than the first, if any was copied
    at all. -/
def letter (ws : List Writing) : Option (List UInt8) :=
  ws.getLast?.map fun first =>
    ((ws.find? fun w => w.stSize ≤ first.stSize ∧ w.fails .attach = false).map
      fun w => cstr w.bytes).getD []

/-- The segment has the size of the first file, and its string is the letter. -/
structure Holds (ws : List Writing) (s : Store) : Prop where
  size : s.map List.length = ws.getLast?.map fun first => first.stSize + 1
  text : s.map (fun seg => cstr (seg ++ [NUL])) = letter ws

theorem Holds.nil : Holds [] none := ⟨rfl, rfl⟩

theorem cstr_replicate (n : Nat) : cstr (List.replicate n 0 ++ [NUL]) = [] := by
  cases n <;> rfl

theorem Holds.write (h : Holds ws s) (hw : w.Reaches .systemV pageSize) :
    Holds (w :: ws) (systemVWriter pageSize w s).2 := by
  rw [systemVWriter_of_reaches hw rfl]
  cases s with
  | none =>
    -- the first writer
    have hws : ws = [] := by simpa using h.size
    subst hws
    simp only [Option.getD_none, List.length_replicate, Nat.lt_succ_self, if_true]
    have hle := w.bytes_le
    cases hattach : w.fails .attach with
    | true => exact ⟨by simp, by simp [letter, hattach, cstr_replicate]⟩
    | false =>
      constructor
      · simp
        omega
      · simp [letter, hattach, cstr_nul]
  | some seg =>
    obtain ⟨first, hfirst⟩ : ∃ first, ws.getLast? = some first := by
      cases hlast : ws.getLast? with
      | none => simpa [hlast] using h.size
      | some first => exact ⟨first, rfl⟩
    have hsize : seg.length = first.stSize + 1 := by simpa [hfirst] using h.size
    have hlast : (w :: ws).getLast? = some first := by
      simp [List.getLast?_cons, hfirst]
    have htext := h.text
    simp only [letter, hfirst, Option.map_some, Option.some.injEq] at htext
    have hle := w.bytes_le
    simp only [Option.getD_some]
    split_ifs with hfits hattach
    · exact ⟨by simp [hlast, hsize], by simpa [letter, hlast, hattach] using htext⟩
    · constructor
      · simp [hlast]
        omega
      · have hw : w.stSize ≤ first.stSize := by omega
        simp [letter, hlast, hattach, hw, cstr_nul]
    · have hw : ¬ w.stSize ≤ first.stSize := by omega
      exact ⟨by simp [hlast, hsize], by simpa [letter, hlast, hw] using htext⟩

theorem holds_after (runs : List Run) :
    Holds (writings .systemV pageSize runs) (after .systemV pageSize runs) := by
  induction runs with
  | nil => exact Holds.nil
  | cons run runs ih =>
    cases run with
    | write w =>
      by_cases hw : w.Reaches .systemV pageSize
      · rw [writings, if_pos hw]
        exact ih.write hw
      · obtain ⟨status, hrun⟩ := @systemVWriter_of_not_reaches pageSize w
          (after .systemV pageSize runs) hw
        rw [writings, if_neg hw, after, exec, hrun]
        exact ih
    | read r =>
      rw [writings]
      split_ifs with hnone
      · rw [hnone]
        exact Holds.nil
      · have hstore : after .systemV pageSize (.read r :: runs) = after .systemV pageSize runs := by
          rcases @systemVReader_store r (after .systemV pageSize runs) with h | h
          · exact h
          · exact absurd h hnone
        rw [hstore]
        exact ih

/-- **The reader prints the last file that was no longer than the first**, and a writer whose file
    is longer is the only one that is refused. -/
theorem systemV_delivers (pageSize : Nat) (runs : List Run) :
    (∀ r : Reading, r.Clean →
      (exec .systemV pageSize (.read r) (after .systemV pageSize runs)).1 =
        ⟨.returned EXIT_SUCCESS, letter (writings .systemV pageSize runs)⟩) ∧
    (∀ w : Writing, w.Reaches .systemV pageSize → w.fails .attach = false →
      w.fails .detach = false →
      (exec .systemV pageSize (.write w) (after .systemV pageSize runs)).1 =
        if ∀ first ∈ (writings .systemV pageSize runs).getLast?, w.stSize ≤ first.stSize
        then .success else .failure) ∧
    ∀ run, (exec .systemV pageSize run (after .systemV pageSize runs)).1.ending ≠ .outOfBounds := by
  have hholds := @holds_after pageSize runs
  generalize after .systemV pageSize runs = s at hholds ⊢
  generalize writings .systemV pageSize runs = ws at hholds ⊢
  refine ⟨?_, ?_, ?_⟩
  · intro r hr
    rw [exec, systemVReader_clean hr, hholds.text]
  · intro w hw hattach hdetach
    have hsize := hholds.size
    rw [exec, systemVWriter_of_reaches hw rfl]
    cases s with
    | none =>
      cases hlast : ws.getLast? with
      | none => simp [hattach, hdetach, Outcome.ofCall]
      | some first => simp [hlast] at hsize
    | some seg =>
      cases hlast : ws.getLast? with
      | none => simp [hlast] at hsize
      | some first =>
        have hlen : seg.length = first.stSize + 1 := by simpa [hlast] using hsize
        have hfits : w.stSize < seg.length ↔ w.stSize ≤ first.stSize := by omega
        by_cases hle : w.stSize ≤ first.stSize
        · simp [hattach, hdetach, Outcome.ofCall, hfits, hle]
        · simp [hfits, hle]
  · intro run
    cases run with
    | read r => exact systemVReader_returns
    | write w =>
      by_cases hw : w.Reaches .systemV pageSize
      · rw [exec, systemVWriter_of_reaches hw rfl]
        split_ifs <;> simp [Outcome.failure, Outcome.success, Outcome.ofCall]
        split_ifs <;> simp
      · obtain ⟨status, hrun⟩ := @systemVWriter_of_not_reaches pageSize w s hw
        rw [exec, hrun]
        simp

/-- A run of the writer on a file that does not change, without a failing call. -/
def plain (bytes : List UInt8) : Writing := ⟨fun _ => false, true, bytes.length, bytes, le_refl _⟩

/-- A second file that is shorter is the one that is read, and a third that is longer than the first
    is refused. -/
theorem systemV_delivers_shorter :
    (exec .systemV 4096 (.read ⟨fun _ => false⟩) (after .systemV 4096
        [.write (plain (ascii "long")), .write (plain (ascii "b")), .write (plain (ascii "one"))])).1 =
      ⟨.returned EXIT_SUCCESS, some (ascii "b")⟩ :=
  (systemV_delivers 4096 [.write (plain (ascii "long")), .write (plain (ascii "b")),
    .write (plain (ascii "one"))]).1 _ fun _ => rfl

end SharedFile
end Labs
