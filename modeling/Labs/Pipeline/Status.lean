import Labs.Lib.CInt
import Labs.Pipeline.RoundTrip

/-!
# What `exec_cmd_list` returns

The parent's side of `exec_cmd_list` of `LAB_14/task_pipe7/src/mini_bash.c` and of
`LAB_14/task_pipe6/src/pipe6.c`, without its descriptors: how many commands it forks, where it breaks
off, the loop that waits for them, and the `int` it ends with. That one holds `0`, `EXIT_FAILURE`, or
the last status that `waitpid` stored, as the system encodes it: `Ended.status`.

* `Calls` is what the system answers to the calls for one pipeline. `waitpid` answers how a child
  ended, or fails.
* The children are the commands before the one at which the loop broke off; `pid_list` holds no
  process for the others.
* `cmds[i]` and `to_from[k]` may be `NULL`. The parent looks into both when it moves its index of
  redirections; then it is a `NullPointer`.

`returned` is the same `int` read off the answers (`execCmdListRet_eq`): the code of a failed `pipe`,
or the last status collected, or what the loop started from.

## The answers and the loop

What the parent returns depends on three sequences of answers, and on the parser only by the number
of commands, pipes and redirections. So `returned` is stated over `Calls`, and the two loops are
followed once, each by an induction on its turns (`forkLoop_spec`, `waitLoop_spec`).

The loop that waits overwrites `ret` with every status it gets. It stops at the first failure of
`waitpid`, after which nothing is stored any more; hence the last status is that of the last child
*before* a failure, not of the last command. A child is sent `SIGKILL` where `ret` is
`EXIT_FAILURE`, which may be the loop's own start value, or a status of `1`; no command can exit
with that status, since an exit code is stored shifted (`Ended.status_eq`).

`NULL` entries are in the model because the parser can leave some: it allocates what it has counted
and may fill less. Where none is left, the loop never looks into one (`forkLoop_ok`). The last
section ties this loop to the one with descriptors, in which the same children are started.
-/

namespace Labs
namespace Pipeline

open Lib

def EXIT_SUCCESS : Int := 0
def EXIT_FAILURE : Int := 1

/-- The number of a signal that ends a process. -/
@[ext] structure Signal where
  number : Nat
  pos : 0 < number
  le : number ≤ 64
deriving DecidableEq

def SIGHUP : Signal := ⟨1, Nat.one_pos, Nat.le_of_ble_eq_true rfl⟩
def SIGINT : Signal := ⟨2, Nat.two_pos, Nat.le_of_ble_eq_true rfl⟩

/-- How a process ended. -/
inductive Ended
  | exited (code : UInt8)
  | signaled (sig : Signal) (core : Bool)
deriving DecidableEq

/-- What `waitpid` stores. -/
def Ended.status : Ended → Int
  | .exited code => 256 * code.toNat
  | .signaled sig core => sig.number + (if core then 128 else 0)

structure Calls where
  pipeOk : Nat → Bool
  forkOk : Nat → Bool
  waitpid : Nat → Option Ended

inductive NullPointer
  | mk
deriving DecidableEq

/-! ## 1. The loop that forks -/

/-- `to_from[k]->cmd == cmds[i][0]`. -/
def Parsed.owns (p : Parsed) (k i : Nat) : Except NullPointer Bool :=
  match p.toFrom[k]?, p.firstWord i with
  | some e, some ptr => .ok (e.cmd == ptr)
  | _, _ => .error .mk

/-- `redir_idx` behind command `i`. -/
def Parsed.nextRedir (p : Parsed) (k i : Nat) : Except NullPointer Nat :=
  if k < p.redirNum then do
    let k := if ← p.owns k i then k + 1 else k
    if k + 1 < p.redirNum then
      return if ← p.owns (k + 1) i then k + 1 else k
    else return k
  else .ok k

/-- `m` more turns, from command `i` on: the number of children, and why it broke off. -/
def forkLoop (calls : Calls) (p : Parsed) :
    Nat → Nat → Nat → Except NullPointer (Nat × Option Failure)
  | 0, i, _ => .ok (i, none)
  | m + 1, i, k =>
    if i < p.pipeNum ∧ calls.pipeOk i = false then .ok (i, some .pipe)
    else if calls.forkOk i = false then .ok (i, some .fork)
    else do forkLoop calls p m (i + 1) (← p.nextRedir k i)

/-! ## 2. The loop that waits -/

/-- `m` more turns, from child `i` on: `ret`, and the children that were sent `SIGKILL`. -/
def waitLoop (calls : Calls) : Nat → Nat → Int → Int × List Nat
  | 0, _, ret => (ret, [])
  | m + 1, i, ret =>
    let killed := if ret = EXIT_FAILURE then [i] else []
    match calls.waitpid i with
    | none => (ret, killed)
    | some ended =>
      let (ret, more) := waitLoop calls m (i + 1) ended.status
      (ret, killed ++ more)

/-- `exec_cmd_list`. -/
def execCmdListRet (calls : Calls) (p : Parsed) : Except NullPointer (Int × List Nat) := do
  match ← forkLoop calls p p.cmdNum 0 0 with
  | (_, some .pipe) => return (EXIT_FAILURE, [])
  | (n, some .fork) => return waitLoop calls n 0 EXIT_FAILURE
  | (n, none) => return waitLoop calls n 0 0

/-! ## 3. The code, read off the answers -/

/-- Command `i` gets its pipe and its process. -/
def Calls.starts (calls : Calls) (p : Parsed) (i : Nat) : Bool :=
  (!decide (i < p.pipeNum) || calls.pipeOk i) && calls.forkOk i

/-- The number of commands before the first that does not start. -/
def Calls.children (calls : Calls) (p : Parsed) : Nat :=
  ((List.range p.cmdNum).takeWhile (calls.starts p)).length

def Calls.PipeFails (calls : Calls) (p : Parsed) : Prop :=
  calls.children p < p.pipeNum ∧ calls.pipeOk (calls.children p) = false
deriving Decidable

/-- How the last of `n` children ended that was waited for; `waitpid` is not called any more when it
    has failed. -/
def Calls.lastEnded (calls : Calls) (n : Nat) : Option Ended :=
  ((((List.range n).map calls.waitpid).takeWhile Option.isSome).filterMap id).getLast?

def Calls.returned (calls : Calls) (p : Parsed) : Int :=
  if calls.PipeFails p then EXIT_FAILURE
  else
    match calls.lastEnded (calls.children p) with
    | some ended => ended.status
    | none => if calls.children p < p.cmdNum then EXIT_FAILURE else 0

/-- `ret` is `1`, although no command said so. -/
def Calls.LooksLikeQuit (calls : Calls) (p : Parsed) : Prop :=
  calls.PipeFails p ∨ calls.lastEnded (calls.children p) = some (.signaled SIGHUP false) ∨
    calls.lastEnded (calls.children p) = none ∧ calls.children p < p.cmdNum

/-- `ret` is `2`. -/
def Calls.LooksLikeChdir (calls : Calls) (p : Parsed) : Prop :=
  ¬ calls.PipeFails p ∧ calls.lastEnded (calls.children p) = some (.signaled SIGINT false)

theorem takeWhile_range_succ {q : Nat → Bool} {i m : Nat} (hq : q i = true) :
    (List.range' i (m + 1)).takeWhile q = i :: (List.range' (i + 1) m).takeWhile q := by
  rw [List.range'_succ, List.takeWhile_cons_of_pos hq]

/-- Where the loop that forks breaks off. -/
theorem forkLoop_spec {calls : Calls} {p : Parsed} {m i k n : Nat} {failed : Option Failure}
    (h : forkLoop calls p m i k = .ok (n, failed)) :
    n = i + ((List.range' i m).takeWhile (calls.starts p)).length ∧
      (failed = some .pipe ↔ n < i + m ∧ n < p.pipeNum ∧ calls.pipeOk n = false) ∧
      (failed = none ↔ n = i + m) := by
  induction m generalizing i k with
  | zero =>
    cases h
    simp
  | succ m ih =>
    rw [forkLoop] at h
    by_cases hpipe : i < p.pipeNum ∧ calls.pipeOk i = false
    · rw [if_pos hpipe] at h
      cases h
      have hstarts : calls.starts p n = false := by simp [Calls.starts, hpipe.1, hpipe.2]
      simp [List.range'_succ, hstarts, hpipe.1, hpipe.2]
    · rw [if_neg hpipe] at h
      by_cases hfork : calls.forkOk i = false
      · rw [if_pos hfork] at h
        cases h
        have hstarts : calls.starts p n = false := by simp [Calls.starts, hfork]
        rw [List.range'_succ, List.takeWhile_cons_of_neg (by simp [hstarts])]
        refine ⟨rfl, ⟨nofun, fun hp => absurd hp.2 hpipe⟩, nofun, fun heq => ?_⟩
        omega
      · rw [if_neg hfork] at h
        have hstarts : calls.starts p i = true := by
          rw [Bool.not_eq_false] at hfork
          by_cases hi : i < p.pipeNum
          · have hok : calls.pipeOk i = true := by
              by_contra hok
              exact hpipe ⟨hi, Bool.eq_false_of_not_eq_true hok⟩
            simp [Calls.starts, hfork, hok]
          · simp [Calls.starts, hfork, hi]
        cases hnext : p.nextRedir k i with
        | error e =>
          rw [hnext] at h
          cases h
        | ok k' =>
          rw [hnext] at h
          obtain ⟨hn, hfail, hnone⟩ := ih h
          rw [takeWhile_range_succ hstarts, List.length_cons]
          refine ⟨by omega, ?_, ?_⟩
          · rw [hfail]
            have hsum : i + 1 + m = i + (m + 1) := by omega
            rw [hsum]
          · rw [hnone]
            omega

theorem waitLoop_spec (calls : Calls) (m i : Nat) (ret : Int) :
    (waitLoop calls m i ret).1 =
      match ((((List.range' i m).map calls.waitpid).takeWhile Option.isSome).filterMap id).getLast?
      with
      | some ended => ended.status
      | none => ret := by
  induction m generalizing i ret with
  | zero => rfl
  | succ m ih =>
    rw [waitLoop, List.range'_succ, List.map_cons]
    cases hw : calls.waitpid i with
    | none => rfl
    | some ended =>
      dsimp only
      rw [ih, List.takeWhile_cons_of_pos rfl, List.filterMap_cons_some (f := id) rfl,
        List.getLast?_cons]
      cases ((((List.range' (i + 1) m).map calls.waitpid).takeWhile
          Option.isSome).filterMap id).getLast? with
      | none => rfl
      | some last => rfl

theorem execCmdListRet_eq {calls : Calls} {p : Parsed} {ret : Int} {killed : List Nat}
    (h : execCmdListRet calls p = .ok (ret, killed)) : ret = calls.returned p := by
  unfold execCmdListRet at h
  cases hf : forkLoop calls p p.cmdNum 0 0 with
  | error e =>
    rw [hf] at h
    cases h
  | ok r =>
    obtain ⟨n, failed⟩ := r
    obtain ⟨hn, hpipe, hnone⟩ := forkLoop_spec hf
    rw [Nat.zero_add, ← List.range_eq_range'] at hn
    have hchildren : calls.children p = n := hn.symm
    have hlt : p.pipeNum < p.cmdNum := Nat.lt_succ_self _
    have hlast : ∀ ret, (waitLoop calls n 0 ret).1 = match calls.lastEnded n with
        | some ended => ended.status
        | none => ret := by
      intro ret
      rw [waitLoop_spec, ← List.range_eq_range']
      rfl
    rw [hf] at h
    have hfails : calls.PipeFails p ↔ n < p.pipeNum ∧ calls.pipeOk n = false := by
      rw [Calls.PipeFails, hchildren]
    unfold Calls.returned
    cases failed with
    | none =>
      have hend : n = p.cmdNum := by simpa using hnone.mp rfl
      have hret := (congrArg Prod.fst (Except.ok.inj h)).symm
      rw [if_neg fun hp => by have := (hfails.mp hp).1; omega, hchildren, ← hend,
        if_neg (Nat.lt_irrefl n)]
      exact hret.trans (hlast 0)
    | some failure =>
      have hbroken : n < p.cmdNum := by
        have hle : n ≤ p.cmdNum := by
          rw [hn]
          exact (List.takeWhile_prefix _).length_le.trans (by simp)
        refine Nat.lt_of_le_of_ne hle fun heq => ?_
        cases hnone.mpr (by rw [Nat.zero_add]; exact heq)
      cases failure with
      | pipe =>
        rw [if_pos (hfails.mpr (hpipe.mp rfl).2)]
        exact (congrArg Prod.fst (Except.ok.inj h)).symm
      | fork =>
        have hnot : ¬ calls.PipeFails p := by
          intro hp
          cases hpipe.mpr ⟨by omega, hfails.mp hp⟩
        have hret := (congrArg Prod.fst (Except.ok.inj h)).symm
        rw [if_neg hnot, hchildren, if_pos hbroken]
        exact hret.trans (hlast EXIT_FAILURE)

/-! ## 4. Which codes there are -/

/-- A status below `128` that is not `0` is a signal without a core dump. -/
theorem Ended.status_eq (e : Ended) (sig : Signal) :
    e.status = sig.number ↔ e = .signaled sig false := by
  have hpos := sig.pos
  have hle := sig.le
  constructor
  · intro h
    cases e with
    | exited code =>
      simp only [Ended.status] at h
      omega
    | signaled sig' core =>
      cases core with
      | true =>
        simp only [Ended.status, if_true] at h
        omega
      | false =>
        have hnum : sig'.number = sig.number := by simpa [Ended.status] using h
        rw [Signal.ext hnum]
  · rintro rfl
    simp [Ended.status]

theorem Calls.returned_eq_one {calls : Calls} {p : Parsed} :
    calls.returned p = 1 ↔ calls.LooksLikeQuit p := by
  unfold returned LooksLikeQuit
  by_cases hfails : calls.PipeFails p
  · simp [hfails, EXIT_FAILURE]
  · rw [if_neg hfails]
    cases calls.lastEnded (calls.children p) with
    | some ended =>
      have hsig : ended.status = 1 ↔ ended = .signaled SIGHUP false := ended.status_eq SIGHUP
      simp [hfails, hsig]
    | none => simp [hfails, EXIT_FAILURE]

theorem Calls.returned_eq_two {calls : Calls} {p : Parsed} :
    calls.returned p = 2 ↔ calls.LooksLikeChdir p := by
  unfold returned LooksLikeChdir
  by_cases hfails : calls.PipeFails p
  · simp [hfails, EXIT_FAILURE]
  · rw [if_neg hfails]
    cases calls.lastEnded (calls.children p) with
    | some ended =>
      have hsig : ended.status = 2 ↔ ended = .signaled SIGINT false := ended.status_eq SIGINT
      simp [hfails, hsig]
    | none =>
      dsimp only
      split <;> simp [EXIT_FAILURE]

/-! ## 5. The loop that forks, with and without descriptors -/

theorem makePipe_of_fails {sys : Sys} {ctx : CmdCtx} {s : Shell}
    (h : s.pipeIdx < ctx.pipeNum ∧ sys.pipeOk s.pipeIdx = false) : makePipe sys ctx s = none := by
  rw [makePipe, if_pos h.1, if_pos h.2]

theorem makePipe_of_ok {sys : Sys} {ctx : CmdCtx} {s : Shell}
    (h : ¬ (s.pipeIdx < ctx.pipeNum ∧ sys.pipeOk s.pipeIdx = false)) :
    ∃ s', makePipe sys ctx s = some s' ∧ s'.pipeIdx = s.pipeIdx := by
  unfold makePipe
  by_cases hlt : s.pipeIdx < ctx.pipeNum
  · rw [if_pos hlt, if_neg fun hok => h ⟨hlt, hok⟩]
    exact ⟨_, rfl, rfl⟩
  · rw [if_neg hlt]
    exact ⟨s, rfl, rfl⟩

theorem parentPass_pipeIdx (v : Variant) (ctx : CmdCtx) (i : Nat) (s : Shell)
    (h : 0 < ctx.pipeNum) : (parentPass v ctx i s).pipeIdx = s.pipeIdx + 1 := by
  have hwrite : (closeWrite ctx s).pipeIdx = s.pipeIdx := by
    unfold closeWrite
    split <;> rfl
  have hprev : (closePrev v ctx (closeWrite ctx s)).pipeIdx = (closeWrite ctx s).pipeIdx := by
    unfold closePrev
    split <;> rfl
  unfold parentPass
  dsimp only
  rw [if_pos h]
  show (closePrev v ctx (closeWrite ctx s)).pipeIdx + 1 = _
  rw [hprev, hwrite]

theorem nextRedir_ok {p : Parsed} {i : Nat} (hfull : p.toFrom.length = p.redirNum)
    (hcmd : (p.firstWord i).isSome) (k : Nat) : ∃ k', p.nextRedir k i = .ok k' := by
  have howns : ∀ k < p.redirNum, ∃ b, p.owns k i = .ok b := by
    intro k hk
    obtain ⟨ptr, hptr⟩ := Option.isSome_iff_exists.mp hcmd
    rw [← hfull] at hk
    refine ⟨p.toFrom[k].cmd == ptr, ?_⟩
    rw [Parsed.owns, List.getElem?_eq_getElem hk, hptr]
  have hsecond : ∀ k, ∃ k', (if k + 1 < p.redirNum then
      do return if ← p.owns (k + 1) i then k + 1 else k else pure k) = Except.ok k' := by
    intro k
    split
    · rename_i hk
      obtain ⟨b, hb⟩ := howns (k + 1) hk
      rw [hb]
      exact ⟨_, rfl⟩
    · exact ⟨k, rfl⟩
  unfold Parsed.nextRedir
  by_cases hk : k < p.redirNum
  · obtain ⟨b, hb⟩ := howns k hk
    rw [if_pos hk, hb]
    cases b with
    | false => exact hsecond k
    | true => exact hsecond (k + 1)
  · rw [if_neg hk]
    exact ⟨k, rfl⟩

/-- If no entry is `NULL`, the loop never looks into one. -/
theorem forkLoop_ok (calls : Calls) {p : Parsed} (hfull : p.toFrom.length = p.redirNum)
    (hcmds : ∀ i < p.cmdNum, (p.firstWord i).isSome) {m i : Nat} (hm : i + m ≤ p.cmdNum) (k : Nat) :
    ∃ r, forkLoop calls p m i k = .ok r := by
  induction m generalizing i k with
  | zero => exact ⟨_, rfl⟩
  | succ m ih =>
    rw [forkLoop]
    split
    · exact ⟨_, rfl⟩
    · split
      · exact ⟨_, rfl⟩
      · obtain ⟨k', hk'⟩ := nextRedir_ok hfull (hcmds i (by omega)) k
        rw [hk']
        exact ih (by omega) k'

theorem execCmdListRet_ok (calls : Calls) {p : Parsed} (hfull : p.toFrom.length = p.redirNum)
    (hcmds : ∀ i < p.cmdNum, (p.firstWord i).isSome) : ∃ r, execCmdListRet calls p = .ok r := by
  obtain ⟨⟨n, failed⟩, hloop⟩ := forkLoop_ok calls hfull hcmds (Nat.le_of_eq (Nat.zero_add _)) 0
  unfold execCmdListRet
  rw [hloop]
  cases failed with
  | none => exact ⟨_, rfl⟩
  | some failure => cases failure <;> exact ⟨_, rfl⟩

/-- Both loops fork the same number of children, and break off for the same reason. -/
theorem forkLoop_spawn {v : Variant} {calls : Calls} {sys : Sys} {p : Parsed} {ctx : CmdCtx}
    (hpipe : calls.pipeOk = sys.pipeOk) (hfork : calls.forkOk = sys.forkOk)
    (hnum : ctx.pipeNum = p.pipeNum) (hfull : p.toFrom.length = p.redirNum)
    (hcmds : ∀ i < p.cmdNum, (p.firstWord i).isSome) {m i : Nat} (k : Nat) {s : Shell}
    (hm : i + m = p.cmdNum) (hs : 0 < p.pipeNum → s.pipeIdx = i) :
    forkLoop calls p m i k =
      .ok (i + (spawn v sys ctx m i s).children.length, (spawn v sys ctx m i s).failed) := by
  induction m generalizing i k s with
  | zero => rfl
  | succ m ih =>
    have hcond : (i < p.pipeNum ∧ calls.pipeOk i = false) ↔
        (s.pipeIdx < ctx.pipeNum ∧ sys.pipeOk s.pipeIdx = false) := by
      rw [hnum, hpipe]
      constructor
      · rintro ⟨hlt, hfail⟩
        rw [hs (Nat.zero_lt_of_lt hlt)]
        exact ⟨hlt, hfail⟩
      · rintro ⟨hlt, hfail⟩
        rw [hs (Nat.zero_lt_of_lt hlt)] at hlt hfail
        exact ⟨hlt, hfail⟩
    rw [forkLoop, spawn]
    by_cases hfails : i < p.pipeNum ∧ calls.pipeOk i = false
    · rw [if_pos hfails, makePipe_of_fails (hcond.mp hfails)]
      rfl
    · obtain ⟨s', hs', hidx⟩ := makePipe_of_ok (mt hcond.mpr hfails)
      rw [if_neg hfails, hs', hfork]
      dsimp only
      by_cases hforkOk : sys.forkOk i = false
      · rw [if_pos hforkOk, if_pos hforkOk]
        rfl
      · obtain ⟨k', hk'⟩ := nextRedir_ok hfull (hcmds i (by omega)) k
        rw [if_neg hforkOk, if_neg hforkOk, hk']
        refine (ih k' (s := parentPass v ctx i s') (by omega) fun hpos => ?_).trans ?_
        · rw [parentPass_pipeIdx v ctx i s' (hnum ▸ hpos), hidx, hs hpos]
        · rw [List.length_cons, Nat.add_right_comm]
          rfl

/-- On what the parser makes of a pipeline, the loop that forks is that of `execCmdList`. -/
theorem forkLoop_line {v : Variant} {calls : Calls} {sys : Sys} (prog : List UInt8) {c : Command}
    {cs : List Command} (o : Origin) (htyped : ∀ d ∈ c :: cs, d.Typed v)
    (hpipe : calls.pipeOk = sys.pipeOk) (hfork : calls.forkOk = sys.forkOk) :
    ∃ p, parse v (v.lead prog ++ line c cs) = .ok p ∧
      forkLoop calls p p.cmdNum 0 0 =
        .ok ((execCmdList v sys (ctxOf c cs) o).children.length,
          (execCmdList v sys (ctxOf c cs) o).failed) := by
  refine ⟨_, parse_line prog htyped, ?_⟩
  have hcmds : ∀ i < (c :: cs).length,
      (firstOf (cmdsAt v.start (c :: cs))[i]?.join).isSome := by
    intro i hi
    rw [getElem?_cmdsAt (List.getElem?_eq_getElem hi)]
    show (firstOf (command _ _)).isSome
    rw [firstOf_command _ (htyped _ (List.getElem_mem hi))]
    rfl
  have hrun := forkLoop_spawn (v := v) (p := ⟨cmdsAt v.start (c :: cs), toFromAt v.start (c :: cs),
    cs.length, redirTotal (c :: cs)⟩) hpipe hfork (rfl : (ctxOf c cs).pipeNum = cs.length)
    (length_toFromAt _ _) hcmds 0 (s := .start o.fds) (Nat.zero_add _) fun _ => rfl
  rw [hrun, Nat.zero_add]
  rfl

end Pipeline
end Labs
