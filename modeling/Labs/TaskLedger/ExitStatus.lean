import Labs.TaskLedger.Linked

/-!
# Failures and the exit status

`main` looks for `-1`. That is what `add`, `remove_by` and `find_by` return when they fail, and the
loop of `address_book` hands it on. But `address_book` returns `EXIT_FAILURE`, which is `1`, when
`constructor` fails, and `load_from` returns what `jsmn_parse` returned when it fails behind it: the
number of tokens, another error of `jsmn_parse`, or zero, and then the loop goes on.

A run is `Reported` when every failure ends it, and `main` says so. It is if and only if there is an
object, and no file is rejected behind a `jsmn_parse` that returned something else than `-1`
(`failures_reported_iff`).
-/

namespace Labs
namespace TaskLedger

open Lib

variable {w : World} {L : Ledger} {inp : List UInt8} {turn : Nat} {command : Command} {b : Book}

/-! ## 1. Failing, and failing without a word -/

/-- The function that the command calls gets to its label `fail`. -/
def Command.Fails (w : World) (turn : Nat) (L : Ledger) (inp : List UInt8) : Command → Prop
  | .add pos => ∃ L' rest, perform w turn L inp (.add pos) = .ok (ERR, L', rest)
  | .removeBy opt => ∃ L' rest, perform w turn L inp (.removeBy opt) = .ok (ERR, L', rest)
  | .findBy opt => ∃ L' rest, perform w turn L inp (.findBy opt) = .ok (ERR, L', rest)
  | .loadFrom filename =>
    (w.answers turn filename).Unreadable ∨
      ∃ filesize fd data, (w.answers turn filename).Reads filesize fd data ∧
        Rejects w.jsmn (w.answers turn filename).callocNode filesize data L
  | .noFilename | .display | .nothing | .leave => False

/-- The file is rejected, and `jsmn_parse` did not return `-1`. -/
def Command.Muted (w : World) (turn : Nat) (L : Ledger) : Command → Prop
  | .loadFrom filename =>
    ∃ filesize fd data, (w.answers turn filename).Reads filesize fd data ∧
      Rejects w.jsmn (w.answers turn filename).callocNode filesize data L ∧
      (parsedOf w.jsmn filesize data).ret ≠ ERR
  | _ => False

theorem Command.Muted.fails (h : command.Muted w turn L) : command.Fails w turn L inp := by
  cases command with
  | loadFrom filename =>
    obtain ⟨filesize, fd, data, hreads, hrejects, -⟩ := h
    exact .inr ⟨filesize, fd, data, hreads, hrejects⟩
  | _ => exact h.elim

/-- What `load_from` does with a file that it rejects. -/
theorem perform_of_rejects (inp : List UInt8) {filename data : List UInt8} {filesize fd : Int}
    (hreads : (w.answers turn filename).Reads filesize fd data)
    (hrejects : Rejects w.jsmn (w.answers turn filename).callocNode filesize data L) :
    ∃ L' rest, perform w turn L inp (.loadFrom filename) =
      .ok ((parsedOf w.jsmn filesize data).ret, L', rest) := by
  rcases loadFrom_cases w.jsmn (w.answers turn filename) L with
    ⟨hno, -⟩ | ⟨-, hno, -⟩ | ⟨filesize', fd', data', hreads', hload⟩
  · exact absurd hno hreads.readable
  · exact absurd hreads (hno _ _ _)
  · obtain ⟨rfl, rfl⟩ := hreads.unique hreads'
    obtain ⟨L', fds, hret⟩ := parseAndLoad_of_rejects fd' hrejects
    exact ⟨L', _, bind_of_ok (hload.trans hret) _⟩

/-- **A failure that is not muted returns `-1`.** -/
theorem perform_of_fails (h : command.Fails w turn L inp) (hheard : ¬ command.Muted w turn L) :
    ∃ L' rest, perform w turn L inp command = .ok (ERR, L', rest) := by
  cases command with
  | add pos | removeBy opt | findBy opt => exact h
  | loadFrom filename =>
    rcases h with hunreadable | ⟨filesize, fd, data, hreads, hrejects⟩
    · rcases loadFrom_cases w.jsmn (w.answers turn filename) L with
        ⟨-, fds, hload⟩ | ⟨hno, -⟩ | ⟨_, _, _, hreads, -⟩
      · exact ⟨L, _, bind_of_ok hload _⟩
      · exact absurd hunreadable hno
      · exact absurd hunreadable hreads.readable
    · obtain ⟨L', rest, hperform⟩ := perform_of_rejects inp hreads hrejects
      have hret : (parsedOf w.jsmn filesize data).ret = ERR := by
        by_contra hne
        exact hheard ⟨filesize, fd, data, hreads, hrejects, hne⟩
      rw [hret] at hperform
      exact ⟨L', rest, hperform⟩
  | noFilename | display | nothing | leave => exact h.elim

theorem perform_of_muted (inp : List UInt8) (h : command.Muted w turn L) :
    ∃ status L' rest, perform w turn L inp command = .ok (status, L', rest) ∧ status ≠ ERR := by
  cases command with
  | loadFrom filename =>
    obtain ⟨filesize, fd, data, hreads, hrejects, hne⟩ := h
    obtain ⟨L', rest, hperform⟩ := perform_of_rejects inp hreads hrejects
    exact ⟨_, L', rest, hperform, hne⟩
  | _ => exact h.elim

theorem loadFrom_status {filename : List UInt8} {status : Int} {L' : Ledger} {fds : List Int}
    (hheard : ¬ (Command.loadFrom filename).Muted w turn L)
    (h : loadFrom w.jsmn (w.answers turn filename) L = .ok (status, L', fds)) :
    status = OK ∨ status = ERR := by
  rcases loadFrom_cases w.jsmn (w.answers turn filename) L with
    ⟨-, _, hload⟩ | ⟨-, -, _, hload⟩ | ⟨filesize, fd, data, hreads, hload⟩
  · cases hload.symm.trans h
    exact .inr rfl
  · cases hload.symm.trans h
    exact .inl rfl
  · rcases parseAndLoad_ret (hload.symm.trans h) with ⟨hrejects, rfl⟩ | ⟨-, rfl⟩
    · right
      by_contra hne
      exact hheard ⟨filesize, fd, data, hreads, hrejects, hne⟩
    · exact .inl rfl

/-! ## 2. Turns and runs -/

/-- A function fails in this turn. -/
def Book.Fails (w : World) (b : Book) : Prop :=
  ∃ command rest, b.command w = .ok (command, rest) ∧
    command.Fails w b.turn b.ledger rest

def Book.Muted (w : World) (b : Book) : Prop :=
  ∃ command rest, b.command w = .ok (command, rest) ∧ command.Muted w b.turn b.ledger

/-- Every failure ends the run, and `main` returns `EXIT_FAILURE`. `load_from` returns `OK` or
    `ERR`. -/
structure Reported (w : World) (inp : List UInt8) : Prop where
  object : w.object = none → mainProgram w inp = .ok EXIT_FAILURE
  calls : ∀ b, Reached w inp b → b.Fails w →
    (∃ status L, b.next w = .ok (.inl (status, L))) ∧ mainProgram w inp = .ok EXIT_FAILURE
  statuses : ∀ b filename rest status L fds, Reached w inp b →
    b.command w = .ok (.loadFrom filename, rest) →
    loadFrom w.jsmn (w.answers b.turn filename) b.ledger = .ok (status, L, fds) →
    status = OK ∨ status = ERR

theorem Command.Fails.ne_leave (h : command.Fails w turn L inp) : command ≠ .leave := by
  rintro rfl
  exact h

theorem next_of_perform {rest rest' : List UInt8} {status : Int} {L' : Ledger}
    (hread : b.command w = .ok (command, rest)) (hne : command ≠ .leave)
    (hperform : perform w b.turn b.ledger rest command = .ok (status, L', rest')) :
    b.next w =
      if status ≠ OK then .ok (.inl (status, L')) else .ok (.inr ⟨b.turn + 1, L', rest'⟩) := by
  have hturn : b.next w = (perform w b.turn b.ledger rest command >>= fun r =>
      if r.1 ≠ OK then .ok (.inl (r.1, r.2.1)) else .ok (.inr ⟨b.turn + 1, r.2.1, r.2.2⟩)) := by
    rw [Book.next, bind_of_ok hread]
    exact if_neg hne
  rw [hturn, bind_of_ok hperform]

/-- What `main` returns for a run that ends in this turn. -/
theorem main_of_next {status : Int} (hreached : Reached w inp b) (hlinked : Linked L)
    (hnext : b.next w = .ok (.inl (status, L))) :
    mainProgram w inp = if status = ERR then .ok EXIT_FAILURE else .ok EXIT_SUCCESS := by
  obtain ⟨garbage, hobject, hreaches⟩ := hreached
  obtain ⟨heap, hdestroyed⟩ := destructor_linked hlinked
  have hloop : loop (Book.next w) (fun b => b.input.length) (next_shrinks w)
      ⟨0, initObj garbage, inp⟩ = .ok (status, L) :=
    (loop_reaches hreaches).trans (loop_of_inl hnext)
  have hbook : addressBook w inp = .ok status := by
    rw [addressBook, hobject]
    show (loop _ _ _ _ >>= _) = _
    rw [bind_of_ok hloop]
    exact bind_of_ok hdestroyed _
  rw [mainProgram, bind_of_ok hbook]
  rfl

theorem main_without_object (hobject : w.object = none) :
    mainProgram w inp = .ok EXIT_SUCCESS := by
  have hbook : addressBook w inp = .ok EXIT_FAILURE := by
    rw [addressBook, hobject]
  rw [mainProgram, bind_of_ok hbook]
  rfl

/-- A failing call in a turn, and what the turn comes to. -/
theorem Reached.next_of_perform {rest rest' : List UInt8} {status : Int} {L' : Ledger}
    (hreached : Reached w inp b) (hread : b.command w = .ok (command, rest))
    (hfails : command.Fails w b.turn b.ledger rest)
    (hperform : perform w b.turn b.ledger rest command = .ok (status, L', rest'))
    (hstatus : status ≠ OK) :
    b.next w = .ok (.inl (status, L')) ∧
      mainProgram w inp = if status = ERR then .ok EXIT_FAILURE else .ok EXIT_SUCCESS := by
  have hnext := TaskLedger.next_of_perform hread hfails.ne_leave hperform
  rw [if_pos hstatus] at hnext
  have hlinked : Linked L' := (perform_links hreached.linked b.turn command).of_eq_ok hperform
  exact ⟨hnext, main_of_next hreached hlinked hnext⟩

/-- **Every failure is reported exactly when `constructor` has its object, and no file is rejected
    behind a `jsmn_parse` that returned something else than `-1`.** -/
theorem failures_reported_iff (w : World) (inp : List UInt8) :
    Reported w inp ↔ w.object ≠ none ∧ ∀ b, Reached w inp b → ¬ b.Muted w := by
  constructor
  · intro h
    refine ⟨fun hobject => ?_, fun b hreached ⟨command, rest, hread, hmuted⟩ => ?_⟩
    · cases (main_without_object hobject).symm.trans (h.object hobject)
    · have hfails : command.Fails w b.turn b.ledger rest := hmuted.fails
      obtain ⟨⟨status', L₁, hends⟩, hmain⟩ := h.calls b hreached ⟨command, rest, hread, hfails⟩
      obtain ⟨status, L', rest', hperform, hne⟩ := perform_of_muted rest hmuted
      by_cases hok : status = OK
      · -- the loop goes on
        have hnext := next_of_perform hread hfails.ne_leave hperform
        rw [if_neg (not_not.mpr hok), hends] at hnext
        cases hnext
      · have hsuccess := (hreached.next_of_perform hread hfails hperform hok).2
        rw [if_neg hne, hmain] at hsuccess
        cases hsuccess
  · rintro ⟨hobject, hheard⟩
    refine ⟨fun hnone => absurd hnone hobject, ?_, ?_⟩
    · rintro b hreached ⟨command, rest, hread, hfails⟩
      have hspoken : ¬ command.Muted w b.turn b.ledger := fun hmuted =>
        hheard b hreached ⟨command, rest, hread, hmuted⟩
      obtain ⟨L', rest', hperform⟩ := perform_of_fails hfails hspoken
      obtain ⟨hnext, hmain⟩ := hreached.next_of_perform hread hfails hperform (by decide)
      exact ⟨⟨ERR, L', hnext⟩, hmain⟩
    · intro b filename rest status L fds hreached hread hload
      exact loadFrom_status (fun hmuted => hheard b hreached ⟨_, rest, hread, hmuted⟩) hload

/-! ## 3. Two failures that are not reported -/

/-- The file holds an object without members, and `jsmn_parse` finds one token. -/
def emptyObject : World where
  object := some 0
  callocNode _ := true
  file _ _ := ⟨true, some 2, true, some 3, some [123, 125], fun _ => true⟩
  jsmn _ := ⟨1, [⟨.JSMN_OBJECT, 0, 2, 0, Nat.zero_le 2⟩]⟩
  ahead _ := 4096
  readFails _ := false

/-- The command `5`, and a file name of one letter. -/
def loadsFile : List UInt8 := [53, NEWLINE, 102, NEWLINE]

/-- `constructor` fails, and `main` returns `EXIT_SUCCESS`; so it does when `load_from` has
    rejected a file and returned `1`. -/
theorem failures_unreported :
    mainProgram { emptyObject with object := none } [] = .ok EXIT_SUCCESS ∧
      (∃ b, Reached emptyObject loadsFile b ∧ b.Fails emptyObject ∧
        loadFrom emptyObject.jsmn (emptyObject.answers 0 [102]) b.ledger = .ok (1, b.ledger, [3])) ∧
      mainProgram emptyObject loadsFile = .ok EXIT_SUCCESS := by
  have hreached : Reached emptyObject loadsFile ⟨0, initObj 0, loadsFile⟩ := ⟨0, rfl, .start⟩
  have hload : loadFrom emptyObject.jsmn (emptyObject.answers 0 [102]) (initObj 0) =
      .ok (1, initObj 0, [3]) := rfl
  have hread : readCommand false loadsFile = .ok (.loadFrom [102], []) := rfl
  have hreads : (emptyObject.answers 0 [102]).Reads 2 3 [123, 125] :=
    ⟨rfl, rfl, by decide, rfl, rfl, rfl, List.cons_ne_nil _ _⟩
  have hfails : (Command.loadFrom [102]).Fails emptyObject 0 (initObj 0) [] :=
    .inr ⟨2, 3, [123, 125], hreads, .inr ⟨initObj 0, rfl⟩⟩
  refine ⟨main_without_object rfl, ⟨_, hreached, ⟨_, _, hread, hfails⟩, hload⟩, ?_⟩
  exact (hreached.next_of_perform hread hfails (bind_of_ok hload _) (by decide)).2

end TaskLedger
end Labs
