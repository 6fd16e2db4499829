import Labs.TaskLedger.LoadFrom

/-!
# The descriptors of a load

`load_from` opens one descriptor at most, and closes one at most. `fd` starts as `0`, which is what
it says both where nothing has been opened yet and where `open` has answered `0`. The label `fail`
takes it for the first and closes nothing; the label `ok` takes it for the second, and is also
reached before `open`, when `stat` finds an empty file: standard input is closed then.

So the calls of `open` and `close` match up except for empty files, and for files that are opened as
descriptor `0` and rejected (`closes_own_iff`). The second is what comes after the first: when
standard input has been closed, the next file is opened as `0`.
-/

namespace Labs
namespace TaskLedger

open Lib

variable {jsmn : List UInt8 → Parsed} {file : FileAnswers} {L L' : Ledger} {ret fd : Int}
  {closed : List Int} {table : Set Int}

/-! ## 1. Opening and closing -/

/-- The call gets as far as `open`. -/
def FileAnswers.Opens (file : FileAnswers) (fd : Int) : Prop :=
  file.filename = true ∧ (∃ filesize, file.stat = some filesize ∧ 0 < filesize) ∧
    file.callocBuf = true ∧ file.openFd = some fd

/-- The descriptors that the call opens. -/
def FileAnswers.opened (file : FileAnswers) : List Int :=
  if file.filename = false then []
  else
    match file.stat with
    | none => []
    | some filesize =>
      if filesize ≤ 0 ∨ file.callocBuf = false then [] else file.openFd.toList

/-- The open descriptors after the calls. -/
def tableAfter (table : Set Int) (opened closed : List Int) : Set Int :=
  (table ∪ {fd | fd ∈ opened}) \ {fd | fd ∈ closed}

/-- What has been opened is closed, once each, and all else is open as before. -/
structure ClosesOwn (table : Set Int) (opened closed : List Int) : Prop where
  own : closed = opened
  others : tableAfter table opened closed = table

/-- `open` answers a descriptor that is not in use. -/
def FileAnswers.Fresh (file : FileAnswers) (table : Set Int) : Prop :=
  ∀ fd, file.openFd = some fd → 0 ≤ fd ∧ fd ∉ table

/-- `stat` finds the file, without a byte in it. -/
def FileAnswers.Empty (file : FileAnswers) : Prop :=
  file.filename = true ∧ ∃ filesize, file.stat = some filesize ∧ filesize ≤ 0

/-- `read` fails, or the file is rejected behind it. -/
def FileAnswers.FailsOpen (jsmn : List UInt8 → Parsed) (file : FileAnswers) (L : Ledger) : Prop :=
  file.read = none ∨ ∃ filesize fd data, file.Reads filesize fd data ∧
    Rejects jsmn file.callocNode filesize data L

theorem FileAnswers.opened_of_stat {filesize : Int} (hname : ¬ file.filename = false)
    (hstat : file.stat = some filesize) : file.opened =
      if filesize ≤ 0 ∨ file.callocBuf = false then [] else file.openFd.toList := by
  rw [opened, if_neg hname, hstat]

theorem FileAnswers.opened_of_opens (h : file.Opens fd) : file.opened = [fd] := by
  obtain ⟨hname, ⟨filesize, hstat, hpos⟩, hcalloc, hopen⟩ := h
  have hgo : ¬ (filesize ≤ 0 ∨ file.callocBuf = false) := by
    rw [hcalloc]
    rintro (h | h)
    · omega
    · cases h
  rw [opened_of_stat (by simp [hname]) hstat, if_neg hgo, hopen]
  rfl

theorem FileAnswers.Opens.not_empty (h : file.Opens fd) : ¬ file.Empty := by
  rintro ⟨-, filesize, hstat, hle⟩
  obtain ⟨-, ⟨filesize', hstat', hpos⟩, -⟩ := h
  cases hstat.symm.trans hstat'
  omega

theorem closesOwn_of_eq (file : FileAnswers) (table : Set Int)
    (hfresh : ∀ fd ∈ file.opened, fd ∉ table) :
    ClosesOwn table file.opened file.opened := by
  refine ⟨rfl, Set.ext fun fd => ⟨?_, fun hfd => ⟨.inl hfd, fun hopened => ?_⟩⟩⟩
  · rintro ⟨hfd | hfd, hnot⟩
    · exact hfd
    · exact absurd hfd hnot
  · exact hfresh fd hopened hfd

/-! ## 2. The two labels -/

theorem parseAndLoad_closed {filesize : Int} {data : List UInt8}
    (h : parseAndLoad jsmn file.callocNode filesize fd data L = .ok (ret, L', closed)) :
    (Rejects jsmn file.callocNode filesize data L ∧ closed = (exitFail ret fd L').2.2) ∨
      ¬ Rejects jsmn file.callocNode filesize data L ∧ closed = [fd] := by
  unfold parseAndLoad at h
  dsimp only at h
  split at h
  · rename_i hret
    cases h
    exact .inl ⟨.inl hret, rfl⟩
  · rename_i hret
    obtain ⟨⟨ok, L₁⟩, hdoc, hlabel⟩ := of_bind_eq_ok h
    cases ok with
    | false =>
      cases hlabel
      exact .inl ⟨.inr ⟨_, hdoc⟩, rfl⟩
    | true =>
      cases hlabel
      refine .inr ⟨?_, rfl⟩
      rintro (hno | ⟨L₂, hno⟩)
      · exact hret hno
      · cases hdoc.symm.trans hno

/-- A call that comes to a label without a descriptor: `fd` is `0` or `ERR` there. -/
theorem loadFrom_unopened (hno : ∀ fd, ¬ file.Opens fd)
    (h : loadFrom jsmn file L = .ok (ret, L', closed)) :
    (file.Empty ∧ file.opened = [] ∧ closed = [0]) ∨
      ¬ file.Empty ∧ file.opened = [] ∧ closed = [] := by
  unfold loadFrom at h
  split at h
  · rename_i hname
    cases h
    refine .inr ⟨fun hempty => ?_, if_pos hname, rfl⟩
    cases hname.symm.trans hempty.1
  · rename_i hname
    have hnamed : file.filename = true := Bool.eq_true_of_not_eq_false hname
    split at h
    · rename_i hstat
      cases h
      refine .inr ⟨?_, by rw [FileAnswers.opened, if_neg hname, hstat], rfl⟩
      rintro ⟨-, filesize, hsome, -⟩
      cases hstat.symm.trans hsome
    · rename_i filesize hstat
      rw [FileAnswers.opened_of_stat hname hstat]
      split at h
      · rename_i hle
        cases h
        exact .inl ⟨⟨hnamed, filesize, hstat, hle⟩, if_pos (.inl hle), rfl⟩
      · rename_i hpos
        have hnot : ¬ file.Empty := by
          rintro ⟨-, filesize', hstat', hle⟩
          cases hstat.symm.trans hstat'
          exact hpos hle
        split at h
        · rename_i hcalloc
          cases h
          exact .inr ⟨hnot, if_pos (.inr hcalloc), rfl⟩
        · rename_i hcalloc
          have hcalloc' : file.callocBuf = true := Bool.eq_true_of_not_eq_false hcalloc
          cases hopen : file.openFd with
          | some fd => exact absurd ⟨hnamed, ⟨filesize, hstat, not_le.mp hpos⟩, hcalloc', hopen⟩ (hno fd)
          | none =>
            rw [hopen] at h
            cases h
            exact .inr ⟨hnot, if_neg (not_or.mpr ⟨hpos, hcalloc⟩), rfl⟩

/-- A call that has opened the file closes it, at `err` only if the descriptor is greater than `0`. -/
theorem loadFrom_opens (hopens : file.Opens fd)
    (h : loadFrom jsmn file L = .ok (ret, L', closed)) :
    (file.FailsOpen jsmn L ∧ closed = (exitFail ret fd L').2.2) ∨
      ¬ file.FailsOpen jsmn L ∧ closed = [fd] := by
  obtain ⟨hname, ⟨filesize, hstat, hpos⟩, hcalloc, hopen⟩ := hopens
  unfold loadFrom at h
  rw [if_neg (by simp [hname]), hstat] at h
  dsimp only at h
  rw [if_neg (not_le.mpr hpos), if_neg (by simp [hcalloc]), hopen] at h
  dsimp only at h
  split at h
  · rename_i hread
    cases h
    exact .inl ⟨.inl hread, rfl⟩
  · rename_i data hread
    have hsome : file.read ≠ none := by
      rw [hread]
      exact nofun
    split at h
    · rename_i hdata
      cases h
      refine .inr ⟨?_, rfl⟩
      rintro (hno | ⟨_, _, data', hreads, -⟩)
      · exact hsome hno
      · cases hread.symm.trans hreads.read
        exact hreads.nonempty hdata
    · rename_i hdata
      have hreads : file.Reads filesize fd data :=
        ⟨hname, hstat, hpos, hcalloc, hopen, hread, hdata⟩
      rcases parseAndLoad_closed h with ⟨hrejects, hclosed⟩ | ⟨haccepts, hclosed⟩
      · exact .inl ⟨.inr ⟨_, _, _, hreads, hrejects⟩, hclosed⟩
      · refine .inr ⟨?_, hclosed⟩
        rintro (hno | ⟨_, _, _, hreads', hrejects⟩)
        · exact hsome hno
        · obtain ⟨rfl, rfl⟩ := hreads.unique hreads'
          exact haccepts hrejects

/-! ## 3. Every call of `load_from` -/

/-- **`load_from` closes what it has opened and nothing else if and only if the file is not empty,
    and no file that is opened as descriptor `0` is rejected.** -/
theorem closes_own_iff (hfresh : file.Fresh table)
    (h : loadFrom jsmn file L = .ok (ret, L', closed)) :
    ClosesOwn table file.opened closed ↔
      ¬ file.Empty ∧ (0 ∈ file.opened → ¬ file.FailsOpen jsmn L) := by
  by_cases hno : ∀ fd, ¬ file.Opens fd
  · rcases loadFrom_unopened hno h with ⟨hempty, hopened, rfl⟩ | ⟨hnot, hopened, rfl⟩
    · refine ⟨fun hown => ?_, fun hcond => absurd hempty hcond.1⟩
      have hown := hown.own
      rw [hopened] at hown
      cases hown
    · refine ⟨fun _ => ⟨hnot, fun hzero => ?_⟩, fun _ => ?_⟩
      · rw [hopened] at hzero
        cases hzero
      · have hown := closesOwn_of_eq file table (by simp [hopened])
        rwa [hopened] at hown ⊢
  · obtain ⟨fd, hopens⟩ := not_forall_not.mp hno
    obtain ⟨hpos, hfree⟩ := hfresh fd hopens.2.2.2
    have hopened := FileAnswers.opened_of_opens hopens
    have hown : ClosesOwn table file.opened [fd] := by
      have hown := closesOwn_of_eq file table fun fd' hfd' => by
        rw [hopened] at hfd'
        rwa [List.mem_singleton.mp hfd']
      rwa [hopened] at hown ⊢
    rcases loadFrom_opens hopens h with ⟨hfails, rfl⟩ | ⟨hends, rfl⟩
    · by_cases hzero : fd = 0
      · -- `fd > 0` takes the open descriptor for none
        refine ⟨fun hown => ?_, fun hcond => ?_⟩
        · have hown := hown.own
          rw [hopened, hzero] at hown
          cases hown
        · exact absurd hfails (hcond.2 (by rw [hopened, hzero]; exact List.mem_singleton_self 0))
      · have hclose : fd > 0 ∧ fd ≠ ERR := by
          unfold ERR
          omega
        have hclosed : (exitFail ret fd L').2.2 = [fd] := if_pos hclose
        rw [hclosed]
        refine ⟨fun _ => ⟨hopens.not_empty, fun hmem => ?_⟩, fun _ => hown⟩
        rw [hopened] at hmem
        exact absurd (List.mem_singleton.mp hmem).symm hzero
    · exact ⟨fun _ => ⟨hopens.not_empty, fun _ => hends⟩, fun _ => hown⟩

/-- Standard input, output and error. -/
def standard : Set Int := {0, 1, 2}

/-- The file can be opened, but not read. -/
def unreadable : FileAnswers := ⟨true, some 2, true, some 3, none, fun _ => true⟩

theorem fresh_unreadable : unreadable.Fresh standard := by
  intro fd hopen
  cases hopen
  exact ⟨by decide, by simp [standard]⟩

theorem closes_own_unreadable :
    ClosesOwn standard unreadable.opened [3] ↔
      ¬ unreadable.Empty ∧
        (0 ∈ unreadable.opened → ¬ unreadable.FailsOpen (fun _ => ⟨0, []⟩) (initObj 0)) :=
  closes_own_iff fresh_unreadable
    (show loadFrom (fun _ => ⟨0, []⟩) unreadable (initObj 0) = .ok (ERR, initObj 0, [3]) from rfl)

/-- `stat` finds the file empty. -/
def emptyFile : FileAnswers := ⟨true, some 0, true, some 3, some [], fun _ => true⟩

/-- The file is a blank, and opened as descriptor `0`. -/
def blankAtZero : FileAnswers := ⟨true, some 1, true, some 0, some [32], fun _ => true⟩

/-- An empty file closes standard input; the blank one that is loaded next stays open. -/
theorem standard_input_closed :
    loadFrom (fun _ => ⟨0, []⟩) emptyFile (initObj 0) = .ok (OK, initObj 0, [0]) ∧
      emptyFile.Fresh standard ∧ ¬ ClosesOwn standard emptyFile.opened [0] ∧
      loadFrom (fun _ => ⟨0, []⟩) blankAtZero (initObj 0) = .ok (0, initObj 0, []) ∧
      blankAtZero.Fresh (tableAfter standard emptyFile.opened [0]) ∧
      ¬ ClosesOwn (tableAfter standard emptyFile.opened [0]) blankAtZero.opened [] := by
  refine ⟨rfl, ?_, ?_, rfl, ?_, ?_⟩
  · intro fd hopen
    cases hopen
    exact ⟨by decide, by simp [standard]⟩
  · intro hown
    cases hown.own
  · intro fd hopen
    cases hopen
    exact ⟨by decide, fun hmem => hmem.2 (List.mem_singleton_self 0)⟩
  · intro hown
    cases hown.own

end TaskLedger
end Labs
