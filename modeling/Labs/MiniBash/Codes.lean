import Labs.MiniBash.Session

/-!
# One `int` for what to do and for how a child ended

`pseudo_bash` acts on what `parse_cmd` returns as on an `act_t`. For an external command that is the
`ret` of `exec_cmd_list`, in which `1` and `2` have other meanings: `EXIT_FAILURE`, and the statuses of
processes that died of `SIGHUP` and of `SIGINT`. `Harmless` says of a line and of what the system
answers that no such code comes back, unless the line has an `exit`, or a `cd` has succeeded;
`codes_truthful_iff` is that this is the exact condition.

As in `Clobber`, the loop of `parse_cmd` is a run over the tokens of the line that ends with the first
external command (`parseLoop_eq`).

## The two meanings of a number

Nothing in the type of `parse_cmd` tells an `act_t` from a status. The meaning is in who has written
the `int`, and the loop forgets that. The events remember it: `parseCmd` returns what it has done
beside the code, so that `Truthful` can ask whether an `exit` was typed or a `cd` has succeeded.

The loop goes on over the line after a builtin and ends with the first program, so there is at most
one status, and it is the last thing that happens. Therefore `Harmless` is a recursion over the
commands that carries one fact, whether a `cd` has succeeded so far: a `CHDIR` that comes from a
signal is right by accident then. In the same way a `QUIT` from a signal is right if an `exit`
stands somewhere in the line, even behind the program, where it is not reached; the property only
asks that it has been typed.

Where the pipeline is refused or the shell does not outlive it, no code comes back, and there is
nothing to be truthful about.
-/

namespace Labs
namespace MiniBash

open Lib
open Pipeline (Calls Parsed EXIT_SUCCESS EXIT_FAILURE)

variable {home : Bool} {answers : Nat → Answers}

/-- A command of the line is `exit`. -/
def ExitTyped (home : Bool) (buf : List UInt8) : Prop :=
  ∃ tok ∈ (tokens DELIMS buf).1, builtin home tok = .exit

/-- Neither `exec_cmd_list` nor the `free` behind it follows a `NULL`. -/
def Outlives (calls : Calls) (p : Parsed) : Prop :=
  (∃ r, Pipeline.forkLoop calls p p.cmdNum 0 0 = .ok r) ∧ p.redirNum ≤ p.toFrom.length

/-- `parse_cmd` returns `QUIT` and `CHDIR` for an `exit` and a `cd` only, and `pseudo_bash` leaves with
    success only for an `exit`. -/
def Truthful (home : Bool) (answers : Nat → Answers) (buf : List UInt8) (s : Shell) : Prop :=
  ∀ r, parseCmd home answers buf s = .ok r →
    (r.ret = QUIT → ExitTyped home buf) ∧ (r.ret = CHDIR → ∃ target, .cd target true ∈ r.steps) ∧
      (action r.ret = .leave EXIT_SUCCESS → ExitTyped home buf)

/-- The first external command that is reached is refused, ends the shell, or ends with a code that
    says what has happened: `exits` is that the line has an `exit`, `moved` that a `cd` before it has
    succeeded. -/
def Harmless (home : Bool) (answers : Nat → Answers) (exits : Prop) :
    Nat → Prop → List (List UInt8) → Prop
  | _, _, [] => True
  | n, moved, tok :: toks =>
    match builtin home tok with
    | .exit | .homeMissing => True
    | .cd target =>
      Harmless home answers exits (n + 1) (moved ∨ ((answers n).chdir target).isSome) toks
    | .external cmd =>
      ∀ p, (tokens SPACE cmd).1.length = argCount cmd + 1 →
        Pipeline.parse .pipe7 (tokens SPACE cmd).1 = .ok p → Outlives (answers n).calls p →
          ((answers n).calls.LooksLikeQuit p → exits) ∧
            ((answers n).calls.LooksLikeChdir p → moved)

/-! ## 1. The loop over the tokens -/

/-- The turn of an external command. -/
def external (calls : Calls) (cmd : List UInt8) (r : Returned) : Except Trouble Returned :=
  if (tokens SPACE cmd).1.length = argCount cmd + 1 then
    (pipeline calls (tokens SPACE cmd).1 r.shell r.ret).map fun (ret, shell) =>
      ⟨ret, shell, r.steps ++ [.external (tokens SPACE cmd).1]⟩
  else .error .argv

def parseRun (home : Bool) (answers : Nat → Answers) : Nat → List (List UInt8) → Returned →
    Except Trouble Returned
  | _, [], r => .ok r
  | n, tok :: toks, r =>
    match builtin home tok with
    | .exit => .ok { r with ret := QUIT, steps := r.steps ++ [.exit] }
    | .homeMissing => .ok { r with ret := FAIL }
    | .cd target =>
      match (answers n).chdir target with
      | none =>
        parseRun home answers (n + 1) toks
          { r with ret := FAIL, steps := r.steps ++ [.cd target false] }
      | some cwd =>
        parseRun home answers (n + 1) toks
          ⟨CHDIR, { r.shell with cwd }, r.steps ++ [.cd target true]⟩
    | .external cmd => external (answers n).calls cmd r

theorem parseLoop_nil (home : Bool) (answers : Nat → Answers) (fuel n : Nat) (r : Returned) :
    parseLoop home answers fuel n [] r = .ok r := by
  cases fuel with
  | zero => rfl
  | succ fuel => rfl

theorem parseLoop_eq (home : Bool) (answers : Nat → Answers) (fuel n : Nat) (saved : List UInt8)
    (r : Returned) :
    parseLoop home answers fuel n saved r =
      parseRun home answers n (strtokAll DELIMS fuel saved).1 r := by
  induction fuel generalizing n saved r with
  | zero => rfl
  | succ fuel ih =>
    rw [parseLoop, strtokAll]
    cases strtok DELIMS saved with
    | mk tok saved =>
      cases tok with
      | none => rfl
      | some tok =>
        dsimp only
        rw [parseRun]
        cases builtin home tok with
        | exit => rfl
        | homeMissing => rfl
        | cd target =>
          dsimp only
          cases (answers n).chdir target with
          | none => exact ih _ _ _
          | some cwd => exact ih _ _ _
        | external cmd =>
          dsimp only
          rw [external]
          by_cases hargc : (tokens SPACE cmd).1.length = argCount cmd + 1
          · rw [if_pos hargc, if_pos hargc]
            cases pipeline (answers n).calls (tokens SPACE cmd).1 r.shell r.ret with
            | error trouble => rfl
            | ok next =>
              obtain ⟨ret, shell⟩ := next
              -- the inner loop has left nothing for the outer one
              show (if ret = FAIL then _ else parseLoop home answers fuel (n + 1) _ _) = _
              rw [tokens_saved, parseLoop_nil]
              exact ite_self _
          · rw [if_neg hargc, if_neg hargc]

theorem parseCmd_eq (home : Bool) (answers : Nat → Answers) (buf : List UInt8) (s : Shell) :
    parseCmd home answers buf s = parseRun home answers 0 (tokens DELIMS buf).1 ⟨OK, s, []⟩ :=
  parseLoop_eq home answers _ 0 buf _

/-! ## 2. What it does -/

def Step.event : Step → Event
  | .exit => .exit
  | .cd target _ => .cd target
  | .external words => commandOf words

theorem steps_of_external {calls : Calls} {cmd : List UInt8} {r r' : Returned}
    (h : external calls cmd r = .ok r') :
    (tokens SPACE cmd).1.length = argCount cmd + 1 ∧
      r'.steps = r.steps ++ [.external (tokens SPACE cmd).1] := by
  unfold external at h
  split at h
  · rename_i hargc
    refine ⟨hargc, ?_⟩
    cases hp : pipeline calls (tokens SPACE cmd).1 r.shell r.ret with
    | error trouble =>
      rw [hp] at h
      cases h
    | ok next =>
      rw [hp] at h
      cases h
      rfl
  · cases h

theorem events_of_parseRun {n : Nat} {toks : List (List UInt8)} {r r' : Returned}
    (h : parseRun home answers n toks r = .ok r') :
    r'.steps.map Step.event = r.steps.map Step.event ++ (run14 home toks).1 := by
  induction toks generalizing n r with
  | nil =>
    cases h
    exact (List.append_nil _).symm
  | cons tok toks ih =>
    rw [parseRun] at h
    rw [run14]
    cases hb : builtin home tok with
    | exit =>
      rw [hb] at h
      cases h
      simp [Step.event]
    | homeMissing =>
      rw [hb] at h
      cases h
      simp
    | cd target =>
      rw [hb] at h
      dsimp only at h
      cases hcd : (answers n).chdir target with
      | none =>
        rw [hcd] at h
        rw [ih h]
        simp [Run.before, Step.event]
      | some cwd =>
        rw [hcd] at h
        rw [ih h]
        simp [Run.before, Step.event]
    | external cmd =>
      rw [hb] at h
      obtain ⟨hargc, hsteps⟩ := steps_of_external h
      dsimp only
      rw [hsteps, if_pos hargc]
      simp [Step.event]

/-- The commands a line comes to are those that `parseCmd14` has. -/
theorem events_of_parseCmd {buf : List UInt8} {s : Shell} {r : Returned}
    (h : parseCmd home answers buf s = .ok r) :
    r.steps.map Step.event = (parseCmd14 home buf).1 := by
  rw [parseCmd_eq] at h
  rw [events_of_parseRun h, parseCmd14, loop14_eq]
  rfl

/-! ## 3. The codes -/

/-- What comes back from the pipeline of an external command. -/
theorem pipeline_cases {calls : Calls} {words : List (List UInt8)} {s s' : Shell} {ret ret' : Int}
    (h : pipeline calls words s ret = .ok (ret', s')) :
    (∃ e, Pipeline.parse .pipe7 words = .error e ∧ ret' = ret ∧ s' = s) ∨
      ∃ p, Pipeline.parse .pipe7 words = .ok p ∧ Outlives calls p ∧ ret' = calls.returned p ∧
        s' = { s with sigint := .default } := by
  unfold pipeline at h
  cases hp : Pipeline.parse .pipe7 words with
  | error e =>
    rw [hp] at h
    refine .inl ⟨e, rfl, ?_⟩
    cases e with
    | outOfBounds => cases h
    | pipe pipeIdx =>
      cases h
      exact ⟨rfl, rfl⟩
    | redirection mark =>
      cases h
      exact ⟨rfl, rfl⟩
  | ok p =>
    rw [hp] at h
    dsimp only at h
    cases hret : Pipeline.execCmdListRet calls p with
    | error e =>
      rw [hret] at h
      cases h
    | ok r =>
      obtain ⟨code, killed⟩ := r
      rw [hret] at h
      dsimp only at h
      split at h
      · cases h
      · rename_i hnull
        cases h
        refine .inr ⟨p, rfl, ⟨?_, Nat.le_of_not_lt hnull⟩, Pipeline.execCmdListRet_eq hret, rfl⟩
        unfold Pipeline.execCmdListRet at hret
        cases hfork : Pipeline.forkLoop calls p p.cmdNum 0 0 with
        | error e =>
          rw [hfork] at hret
          cases hret
        | ok r => exact ⟨r, rfl⟩

theorem execCmdListRet_of_forkLoop {calls : Calls} {p : Parsed}
    (h : ∃ r, Pipeline.forkLoop calls p p.cmdNum 0 0 = .ok r) :
    ∃ killed, Pipeline.execCmdListRet calls p = .ok (calls.returned p, killed) := by
  obtain ⟨⟨n, failed⟩, hfork⟩ := h
  obtain ⟨ret, killed, hret⟩ : ∃ ret killed, Pipeline.execCmdListRet calls p = .ok (ret, killed) := by
    unfold Pipeline.execCmdListRet
    rw [hfork]
    cases failed with
    | none => exact ⟨_, _, rfl⟩
    | some failure =>
      cases failure with
      | pipe => exact ⟨_, _, rfl⟩
      | fork => exact ⟨_, _, rfl⟩
  exact ⟨killed, Pipeline.execCmdListRet_eq hret ▸ hret⟩

theorem pipeline_of_parse {calls : Calls} {words : List (List UInt8)} {s : Shell} {ret : Int}
    {p : Parsed} (hp : Pipeline.parse .pipe7 words = .ok p) (ho : Outlives calls p) :
    pipeline calls words s ret = .ok (calls.returned p, { s with sigint := .default }) := by
  obtain ⟨killed, hret⟩ := execCmdListRet_of_forkLoop ho.1
  unfold pipeline
  rw [hp]
  dsimp only
  rw [hret]
  exact if_neg (Nat.not_lt_of_le ho.2)

/-- The codes from turn `n` on, `r` being what was returned so far. -/
theorem truthful_run_iff {exits moved : Prop} {n : Nat} {toks : List (List UInt8)} {r : Returned}
    (hquit : r.ret = QUIT → exits) (hchdir : r.ret = CHDIR → moved)
    (hmoved : moved ↔ ∃ target, .cd target true ∈ r.steps)
    (hexit : ∀ tok ∈ toks, builtin home tok = .exit → exits) :
    (∀ r', parseRun home answers n toks r = .ok r' →
      (r'.ret = QUIT → exits) ∧ (r'.ret = CHDIR → ∃ target, .cd target true ∈ r'.steps)) ↔
      Harmless home answers exits n moved toks := by
  induction toks generalizing n moved r with
  | nil =>
    refine ⟨fun _ => trivial, fun _ r' h => ?_⟩
    cases h
    exact ⟨hquit, fun h => hmoved.mp (hchdir h)⟩
  | cons tok toks ih =>
    have hexit' : ∀ tok ∈ toks, builtin home tok = .exit → exits :=
      fun tok htok => hexit tok (List.mem_cons_of_mem _ htok)
    rw [parseRun, Harmless]
    cases hb : builtin home tok with
    | exit =>
      refine ⟨fun _ => trivial, fun _ r' h => ?_⟩
      cases h
      exact ⟨fun _ => hexit tok List.mem_cons_self hb,
        fun h => absurd h (show QUIT ≠ CHDIR by decide)⟩
    | homeMissing =>
      refine ⟨fun _ => trivial, fun _ r' h => ?_⟩
      cases h
      exact ⟨fun h => absurd h (show FAIL ≠ QUIT by decide),
        fun h => absurd h (show FAIL ≠ CHDIR by decide)⟩
    | cd target =>
      dsimp only
      cases hcd : (answers n).chdir target with
      | none =>
        simp only [Option.isSome_none, Bool.false_eq_true, or_false]
        refine ih (fun h => absurd h (show FAIL ≠ QUIT by decide))
          (fun h => absurd h (show FAIL ≠ CHDIR by decide)) ?_ hexit'
        rw [hmoved]
        simp
      | some cwd =>
        simp only [Option.isSome_some, or_true]
        refine ih (fun h => absurd h (show CHDIR ≠ QUIT by decide)) (fun _ => trivial) ?_ hexit'
        simp only [true_iff]
        exact ⟨target, by simp⟩
    | external cmd =>
      dsimp only
      rw [external]
      by_cases hargc : (tokens SPACE cmd).1.length = argCount cmd + 1
      · rw [if_pos hargc]
        constructor
        · intro hrun p _ hp ho
          have h := hrun _ (by rw [pipeline_of_parse hp ho]; rfl)
          refine ⟨fun hq => h.1 (Calls.returned_eq_one.mpr hq), fun hc => ?_⟩
          have hsteps := h.2 (Calls.returned_eq_two.mpr hc)
          rw [hmoved]
          simpa using hsteps
        · intro hharm r' h
          cases hpipe : pipeline (answers n).calls (tokens SPACE cmd).1 r.shell r.ret with
          | error trouble =>
            rw [hpipe] at h
            cases h
          | ok next =>
            obtain ⟨ret', s'⟩ := next
            rw [hpipe] at h
            cases h
            rcases pipeline_cases hpipe with ⟨e, he, rfl, rfl⟩ | ⟨p, hp, ho, rfl, rfl⟩
            · refine ⟨hquit, fun hc => ?_⟩
              simpa using hmoved.mp (hchdir hc)
            · obtain ⟨hq, hc⟩ := hharm p hargc hp ho
              refine ⟨fun h => hq (Calls.returned_eq_one.mp h), fun h => ?_⟩
              simpa using hmoved.mp (hc (Calls.returned_eq_two.mp h))
      · rw [if_neg hargc]
        exact ⟨fun _ p hargc' => absurd hargc' hargc, fun _ r' h => by cases h⟩

theorem action_success {ret : Int} (h : action ret = .leave EXIT_SUCCESS) : ret = QUIT := by
  unfold action at h
  split at h
  · assumption
  · split at h
    · cases h
    · split at h <;> cases h

/-- **The codes of a line say what happened exactly when it is harmless.** -/
theorem codes_truthful_iff (home : Bool) (answers : Nat → Answers) (buf : List UInt8) (s : Shell) :
    Truthful home answers buf s ↔
      Harmless home answers (ExitTyped home buf) 0 False (tokens DELIMS buf).1 := by
  have hstart : False ↔ ∃ target, Step.cd target true ∈ (⟨OK, s, []⟩ : Returned).steps := by simp
  have hrun := @truthful_run_iff home answers (ExitTyped home buf) False 0 _ ⟨OK, s, []⟩
    (fun h => absurd h (show OK ≠ QUIT by decide))
    (fun h => absurd h (show OK ≠ CHDIR by decide)) hstart fun tok htok hb => ⟨tok, htok, hb⟩
  rw [← hrun, Truthful, parseCmd_eq]
  constructor
  · intro h r' hr
    exact ⟨(h r' hr).1, (h r' hr).2.1⟩
  · intro h r' hr
    obtain ⟨hq, hc⟩ := h r' hr
    exact ⟨hq, hc, fun ha => hq (action_success ha)⟩

/-- A process that dies of `SIGHUP`. -/
def hangup : Answers := ⟨fun _ => none, fun _ => true, fun _ => true,
  fun _ => some (.signaled Pipeline.SIGHUP false)⟩

theorem hangup_quits :
    parseCmd true (fun _ => hangup) (ascii "a") ⟨ascii "/", .handler⟩ =
      .ok ⟨QUIT, ⟨ascii "/", .default⟩, [.external [ascii "a"]]⟩ ∧
    action QUIT = .leave EXIT_SUCCESS ∧
    ¬ ExitTyped true (ascii "a") ∧
    ¬ Truthful true (fun _ => hangup) (ascii "a") ⟨ascii "/", .handler⟩ := by
  have hrun : parseCmd true (fun _ => hangup) (ascii "a") ⟨ascii "/", .handler⟩ =
      .ok ⟨QUIT, ⟨ascii "/", .default⟩, [.external [ascii "a"]]⟩ := by decide
  have hexit : ¬ ExitTyped true (ascii "a") := by
    unfold ExitTyped
    decide
  exact ⟨hrun, by decide, hexit, fun h => hexit ((h _ hrun).1 rfl)⟩

end MiniBash
end Labs
