import Labs.Pipeline.Status

/-!
# Which children are sent `SIGKILL`

The loop that waits for the children looks at `ret` before each of them, and kills the child if `ret` is
`EXIT_FAILURE`: that is how the `goto err` behind a failed `fork` asks for it. But `waitpid` stores the
status of the child before in the same variable, and a child that died of `SIGHUP` without a core dump
has the status `1`. So a child is also killed where the one before it ended like that (`HangupBefore`).

`my_pipe` of `LAB_14/task_pipe5/src/pipe5.c` ends with the same loop. The one before it forks; it looks
into `to_from` and `cmds` once for every command, before the `fork`.

## Two meanings of a number

`EXIT_FAILURE` is `1`. As a wait status that is a death by signal number `1` with no core dump
(`status_eq_failure`); a process that exits with `1` has the status `256`. So no exit code leads to
a kill, and `SIGHUP` does, which is what a shell's children get when the terminal goes away.

The loop that waits is the same in all variants, so what it does is shown once, from any `ret`
(`waitLoop_killed_iff`). Of the loops that fork only their result matters: how many children there
are, and whether the loop was left early (`forkLoop_failed`, `myPipeLoop_failed`).
-/

namespace Labs
namespace Pipeline

open Lib

variable {calls : Calls} {p : Parsed} {ret : Int} {killed : List Nat}

/-! ## 1. `my_pipe` -/

/-- `is_redir` in the turn of command `i`. -/
def Parsed.isRedir (p : Parsed) (l i : Nat) : Except NullPointer Bool :=
  if l < p.redirNum then p.owns l i else .ok false

/-- `m` more turns, from command `i` on: the number of children, and why it broke off. -/
def myPipeLoop (calls : Calls) (p : Parsed) :
    Nat → Nat → Nat → Except NullPointer (Nat × Option Failure)
  | 0, i, _ => .ok (i, none)
  | m + 1, i, l =>
    if i < p.pipeNum ∧ calls.pipeOk i = false then .ok (i, some .pipe)
    else do
      let isRedir ← p.isRedir l i
      if calls.forkOk i = false then .ok (i, some .fork)
      else myPipeLoop calls p m (i + 1) (if isRedir then l + 1 else l)

/-- What comes behind the loop that forks. -/
def waitBehind (calls : Calls) : Nat × Option Failure → Int × List Nat
  | (_, some .pipe) => (EXIT_FAILURE, [])
  | (n, some .fork) => waitLoop calls n 0 EXIT_FAILURE
  | (n, none) => waitLoop calls n 0 0

def myPipeRet (calls : Calls) (p : Parsed) : Except NullPointer (Int × List Nat) :=
  (myPipeLoop calls p p.cmdNum 0 0).map (waitBehind calls)

theorem execCmdListRet_eq_map (calls : Calls) (p : Parsed) :
    execCmdListRet calls p = (forkLoop calls p p.cmdNum 0 0).map (waitBehind calls) := by
  unfold execCmdListRet
  cases forkLoop calls p p.cmdNum 0 0 with
  | error e => rfl
  | ok r =>
    obtain ⟨n, failed⟩ := r
    cases failed with
    | none => rfl
    | some failure => cases failure <;> rfl

/-- `exec_cmd_list` or `my_pipe`. -/
def Variant.runRet : Variant → Calls → Parsed → Except NullPointer (Int × List Nat)
  | .pipe7 | .pipe6 => execCmdListRet
  | .pipe5 => myPipeRet

/-! ## 2. When a child is killed -/

/-- `pipe` or `fork` fails for a command of the pipeline. -/
def Calls.SpawnFails (calls : Calls) (p : Parsed) : Prop :=
  ∃ i < p.cmdNum, calls.starts p i = false

/-- A child that is not the last one is waited for, and has died of `SIGHUP` without a core dump. -/
def Calls.HangupBefore (calls : Calls) (p : Parsed) : Prop :=
  ∃ i, i + 1 < p.cmdNum ∧ (∀ j < i, (calls.waitpid j).isSome) ∧
    calls.waitpid i = some (.signaled SIGHUP false)

theorem status_eq_failure (e : Ended) : e.status = EXIT_FAILURE ↔ e = .signaled SIGHUP false :=
  e.status_eq SIGHUP

/-- A child is killed if `ret` asks for it from the start, or the child before it was hung up. -/
theorem waitLoop_killed_iff (calls : Calls) (m i : Nat) (ret : Int) :
    (waitLoop calls m i ret).2 ≠ [] ↔
      0 < m ∧ ret = EXIT_FAILURE ∨
        ∃ j, i ≤ j ∧ j + 1 < i + m ∧ (∀ k, i ≤ k → k < j → (calls.waitpid k).isSome) ∧
          calls.waitpid j = some (.signaled SIGHUP false) := by
  induction m generalizing i ret with
  | zero =>
    constructor
    · intro h
      exact absurd rfl h
    · intro h
      rcases h with h | ⟨j, hle, hlt, -⟩
      · exact absurd h.1 (Nat.lt_irrefl 0)
      · omega
  | succ m ih =>
    rw [waitLoop]
    by_cases hret : ret = EXIT_FAILURE
    · rw [if_pos hret]
      refine ⟨fun _ => .inl ⟨Nat.succ_pos m, hret⟩, fun _ => ?_⟩
      cases calls.waitpid i with
      | none => exact List.cons_ne_nil _ _
      | some ended => exact List.cons_ne_nil _ _
    · rw [if_neg hret]
      simp only [hret, and_false, false_or]
      cases hw : calls.waitpid i with
      | none =>
        constructor
        · intro h
          exact absurd rfl h
        · rintro ⟨j, hle, -, hwaited, hj⟩
          rcases Nat.eq_or_lt_of_le hle with rfl | hlt
          · rw [hw] at hj
            cases hj
          · have hi := hwaited i (Nat.le_refl i) hlt
            rw [hw] at hi
            cases hi
      | some ended =>
        dsimp only
        rw [List.nil_append, ih, status_eq_failure]
        constructor
        · rintro (⟨hm, hended⟩ | ⟨j, hle, hlt, hwaited, hj⟩)
          · refine ⟨i, Nat.le_refl i, by omega, fun k hik hki => ?_, ?_⟩
            · exact absurd hki (Nat.not_lt_of_le hik)
            · rw [hw, hended]
          · refine ⟨j, by omega, by omega, fun k hik hkj => ?_, hj⟩
            rcases Nat.eq_or_lt_of_le hik with rfl | hik
            · rw [hw]
              rfl
            · exact hwaited k hik hkj
        · rintro ⟨j, hle, hlt, hwaited, hj⟩
          rcases Nat.eq_or_lt_of_le hle with rfl | hij
          · rw [hw] at hj
            exact .inl ⟨by omega, Option.some.inj hj⟩
          · exact .inr ⟨j, hij, by omega, fun k hik hkj => hwaited k (Nat.le_of_lt hik) hkj, hj⟩

theorem starts_of_calls {i : Nat} (hpipe : ¬ (i < p.pipeNum ∧ calls.pipeOk i = false))
    (hfork : calls.forkOk i ≠ false) : calls.starts p i = true := by
  have hfork' : calls.forkOk i = true := Bool.eq_true_of_not_eq_false hfork
  by_cases hi : i < p.pipeNum
  · have hok : calls.pipeOk i = true := by
      apply Bool.eq_true_of_not_eq_false
      intro hfails
      exact hpipe ⟨hi, hfails⟩
    simp [Calls.starts, hfork', hok]
  · simp [Calls.starts, hfork', hi]

theorem myPipeLoop_spec {m i l n : Nat} {failed : Option Failure}
    (h : myPipeLoop calls p m i l = .ok (n, failed)) :
    (failed = none → n = i + m ∧ ∀ j, i ≤ j → j < i + m → calls.starts p j = true) ∧
      (failed ≠ none → n < i + m ∧ calls.starts p n = false) := by
  induction m generalizing i l with
  | zero =>
    cases h
    refine ⟨fun _ => ⟨rfl, fun j hle hlt => ?_⟩, fun h => absurd rfl h⟩
    exact absurd hlt (Nat.not_lt_of_le hle)
  | succ m ih =>
    rw [myPipeLoop] at h
    by_cases hpipe : i < p.pipeNum ∧ calls.pipeOk i = false
    · rw [if_pos hpipe] at h
      cases h
      refine ⟨fun hfailed => ?_, fun _ => ⟨by omega, by simp [Calls.starts, hpipe.1, hpipe.2]⟩⟩
      cases hfailed
    · rw [if_neg hpipe] at h
      cases hredir : p.isRedir l i with
      | error e =>
        rw [hredir] at h
        cases h
      | ok isRedir =>
        rw [hredir] at h
        change (if _ then _ else _) = _ at h
        by_cases hfork : calls.forkOk i = false
        · rw [if_pos hfork] at h
          cases h
          refine ⟨fun hfailed => ?_, fun _ => ⟨by omega, by simp [Calls.starts, hfork]⟩⟩
          cases hfailed
        · rw [if_neg hfork] at h
          obtain ⟨hnone, hsome⟩ := ih h
          constructor
          · intro hfailed
            obtain ⟨hn, hstarts⟩ := hnone hfailed
            refine ⟨by omega, fun j hle hlt => ?_⟩
            rcases Nat.eq_or_lt_of_le hle with rfl | hij
            · exact starts_of_calls hpipe hfork
            · exact hstarts j hij (by omega)
          · intro hfailed
            obtain ⟨hn, hstarts⟩ := hsome hfailed
            exact ⟨by omega, hstarts⟩

theorem myPipeLoop_failed {n : Nat} {failed : Option Failure}
    (h : myPipeLoop calls p p.cmdNum 0 0 = .ok (n, failed)) :
    (failed = none → n = p.cmdNum) ∧ (failed ≠ none ↔ calls.SpawnFails p) := by
  obtain ⟨hnone, hsome⟩ := myPipeLoop_spec h
  rw [Nat.zero_add] at hnone hsome
  refine ⟨fun hfailed => (hnone hfailed).1, fun hfailed => ⟨n, hsome hfailed⟩, ?_⟩
  rintro ⟨i, hi, hstarts⟩ hfailed
  rw [(hnone hfailed).2 i (Nat.zero_le i) hi] at hstarts
  cases hstarts

theorem forkLoop_failed {n : Nat} {failed : Option Failure}
    (h : forkLoop calls p p.cmdNum 0 0 = .ok (n, failed)) :
    (failed = none → n = p.cmdNum) ∧ (failed ≠ none ↔ calls.SpawnFails p) := by
  obtain ⟨hn, -, hnone⟩ := forkLoop_spec h
  rw [Nat.zero_add] at hn hnone
  refine ⟨hnone.mp, ?_⟩
  rw [Ne, hnone, Calls.SpawnFails, hn, ← List.range_eq_range']
  constructor
  · intro hlt
    by_contra hall
    apply hlt
    have hself : (List.range p.cmdNum).takeWhile (calls.starts p) = List.range p.cmdNum := by
      rw [List.takeWhile_eq_self_iff]
      intro i hi
      apply Bool.eq_true_of_not_eq_false
      intro hstarts
      exact hall ⟨i, List.mem_range.mp hi, hstarts⟩
    rw [hself, List.length_range]
  · rintro ⟨i, hi, hstarts⟩ hlen
    have hpre := List.takeWhile_prefix (l := List.range p.cmdNum) (calls.starts p)
    have hself := hpre.eq_of_length (by rw [hlen, List.length_range])
    have hall := (List.takeWhile_eq_self_iff.mp hself) i (List.mem_range.mpr hi)
    rw [hstarts] at hall
    cases hall

/-- Behind a loop that has forked every command the wait starts from `0`. -/
theorem wait_of_spawned {loop : Except NullPointer (Nat × Option Failure)}
    (hspec : ∀ n failed, loop = .ok (n, failed) →
      (failed = none → n = p.cmdNum) ∧ (failed ≠ none ↔ calls.SpawnFails p))
    (hfails : ¬ calls.SpawnFails p) (hrun : loop.map (waitBehind calls) = .ok (ret, killed)) :
    waitLoop calls p.cmdNum 0 0 = (ret, killed) := by
  cases hl : loop with
  | error e =>
    rw [hl] at hrun
    cases hrun
  | ok r =>
    obtain ⟨n, failed⟩ := r
    obtain ⟨hnum, hfailed⟩ := hspec n failed hl
    rw [hl] at hrun
    cases failed with
    | none =>
      rw [← hnum rfl]
      exact Except.ok.inj hrun
    | some failure => exact absurd (hfailed.mp (Option.some_ne_none _)) hfails

theorem runRet_of_spawned {v : Variant} (h : v.runRet calls p = .ok (ret, killed))
    (hfails : ¬ calls.SpawnFails p) : waitLoop calls p.cmdNum 0 0 = (ret, killed) := by
  cases v with
  | pipe7 =>
    apply wait_of_spawned (fun n failed => forkLoop_failed) hfails
    rw [← execCmdListRet_eq_map]
    exact h
  | pipe6 =>
    apply wait_of_spawned (fun n failed => forkLoop_failed) hfails
    rw [← execCmdListRet_eq_map]
    exact h
  | pipe5 => exact wait_of_spawned (fun n failed => myPipeLoop_failed) hfails h

/-- **A child is killed only behind a failed `pipe` or `fork`, exactly if there is such a failure or no
    child but the last one is hung up.** -/
theorem killed_iff (v : Variant) (calls : Calls) (p : Parsed) (ret : Int) (killed : List Nat)
    (h : v.runRet calls p = .ok (ret, killed)) :
    (killed ≠ [] → calls.SpawnFails p) ↔ (calls.SpawnFails p ∨ ¬ calls.HangupBefore p) := by
  by_cases hfails : calls.SpawnFails p
  · exact ⟨fun _ => .inl hfails, fun _ _ => hfails⟩
  have hkilled := waitLoop_killed_iff calls p.cmdNum 0 0
  rw [runRet_of_spawned h hfails] at hkilled
  have hhangup : killed ≠ [] ↔ calls.HangupBefore p := by
    rw [hkilled]
    unfold Calls.HangupBefore
    constructor
    · intro hkill
      rcases hkill with ⟨-, hret⟩ | ⟨j, -, hlt, hwaited, hj⟩
      · cases hret
      · exact ⟨j, by simpa using hlt, fun k hk => hwaited k (Nat.zero_le k) hk, hj⟩
    · intro hkill
      obtain ⟨j, hlt, hwaited, hj⟩ := hkill
      exact .inr ⟨j, Nat.zero_le j, by simpa using hlt, fun k _ hk => hwaited k hk, hj⟩
  simp only [hfails, imp_false, false_or]
  exact not_congr hhangup

/-- `a | b`, as `pipe7` parses it. -/
def aPipeB : Parsed := ⟨[some [some 0, none], some [some 2, none]], [], 1, 0⟩

/-- Every process exits with `1`. -/
def allExit : Calls := ⟨fun _ => true, fun _ => true, fun _ => some (.exited 1)⟩

theorem no_kill_for_exit_codes :
    Variant.pipe7.runRet allExit aPipeB = .ok (256, []) ∧
      (([] : List Nat) ≠ [] → allExit.SpawnFails aPipeB) := by
  have hrun : Variant.pipe7.runRet allExit aPipeB = .ok (256, []) := rfl
  refine ⟨hrun, (killed_iff .pipe7 allExit aPipeB 256 [] hrun).mpr (.inr ?_)⟩
  rintro ⟨i, -, -, hended⟩
  cases hended

/-- Every process dies of `SIGHUP`. -/
def allHungUp : Calls := ⟨fun _ => true, fun _ => true, fun _ => some (.signaled SIGHUP false)⟩

/-- Nothing fails, and the second child is killed. -/
theorem killed_behind_hangup :
    parse .pipe7 [ascii "a", ascii "|", ascii "b"] = .ok aPipeB ∧
      Variant.pipe7.runRet allHungUp aPipeB = .ok (1, [1]) ∧
      Variant.pipe5.runRet allHungUp aPipeB = .ok (1, [1]) ∧
      ¬ (([1] : List Nat) ≠ [] → allHungUp.SpawnFails aPipeB) := by
  refine ⟨by decide, rfl, rfl, fun h => ?_⟩
  obtain ⟨i, -, hstarts⟩ := h (List.cons_ne_nil _ _)
  simp [Calls.starts, allHungUp] at hstarts

end Pipeline
end Labs
