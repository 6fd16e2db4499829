import Labs.MiniBash.ArgArray
import Labs.MiniBash.Bash12
import Labs.MiniBash.Codes

/-!
# Builtins by their first word

What a command asks for should depend on its first word: `cd`, `exit`, or a program; `asked`. The `if`
chain of `parse_cmd` compares the whole command with `exit`, and its first two bytes with `cd`. The two
are the same for the commands that are `Plain`, and for no others (`builtin_eq_asked_iff`).

`AsTyped12` and `AsTyped14` say when a line does what its commands ask for, one after the other, and
quits for an `exit` only. Besides plain commands that takes an array that holds the words of each program.
In `LAB_14` it also takes that nothing is asked for behind the first program, which would be skipped, and
a pipeline whose code does not read as `QUIT`.

## Two readings of a command

`asked` is the specification: it splits off the first word and looks at nothing else. `builtin` is
the chain of comparisons as it stands in the source. They are compared command by command first,
where there are two ways to differ and no third (`Mistaken`): two bytes `cd` that begin a longer
word, and an `exit` with something behind it. Each of the two leaves an event that `asked` does not
have, which is what the direction from the behaviour back to the text needs (`mistaken_events`).

A line is a list of commands, and what one of them asks for may end it. So the comparison of a line
is a recursion that stops where `asked` does: behind an `exit`, behind a `cd` without a `HOME`, and
in `LAB_14` behind the first program. What stands behind that is not read, and no condition is put
on it, but for the one that nothing is asked for there (`Silent`), because it will not be done.

The code that comes back is part of what is asked: a line quits for an `exit` only. In `LAB_14` the
code of a pipeline can say `QUIT` as well, which `Codes` explains, so the condition for a program is
that it `EndsQuietly`.
-/

namespace Labs
namespace MiniBash

open Lib
open Pipeline (Calls)

variable {home : Bool} {answers : Nat → Answers}

/-! ## 1. One command -/

def firstWord (tok : List UInt8) : List UInt8 :=
  (tok.dropWhile isspace).takeWhile fun b => !isspace b

/-- What the first word of a command asks for. -/
def asked (home : Bool) (tok : List UInt8) : Builtin :=
  let cmd := tok.dropWhile isspace
  if firstWord tok = ascii "exit" then .exit
  else if firstWord tok = ascii "cd" then
    let arg := (cmd.drop 2).dropWhile isspace
    if arg = [] then goHome home else .cd (.dir (arg.takeWhile fun b => !isspace b))
  else .external cmd

/-- Two bytes `cd` at the start are a word, and nothing is behind a word `exit`. -/
structure Plain (tok : List UInt8) : Prop where
  cd : (tok.dropWhile isspace).take 2 = ascii "cd" →
    ∀ b, (tok.dropWhile isspace)[2]? = some b → isspace b = true
  exit : firstWord tok = ascii "exit" → tok.dropWhile isspace = ascii "exit"

/-- A command that is not plain is one thing for the shell, and another by its first word. -/
inductive Mistaken (home : Bool) (tok : List UInt8) : Prop
  | cd (dir : List UInt8) (hbuiltin : builtin home tok = .cd (.dir dir))
      (hasked : asked home tok = .external (tok.dropWhile isspace))
  | exit (hbuiltin : builtin home tok = .external (tok.dropWhile isspace))
      (hasked : asked home tok = .exit)

theorem cd_ne_exit (more : List UInt8) : ascii "cd" ++ more ≠ ascii "exit" := by simp [ascii]

theorem firstWord_of_cd {tok arg : List UInt8} (h : tok.dropWhile isspace = ascii "cd" ++ arg) :
    firstWord tok = ascii "cd" ++ arg.takeWhile fun b => !isspace b := by
  rw [firstWord, h]
  rfl

/-- A command that starts with `cd`, with a white space or the end behind it. -/
theorem asked_of_cd {tok arg : List UInt8} (h : tok.dropWhile isspace = ascii "cd" ++ arg)
    (hend : arg.takeWhile (fun b => !isspace b) = []) :
    asked home tok =
      if arg.dropWhile isspace = [] then goHome home
      else .cd (.dir ((arg.dropWhile isspace).takeWhile fun b => !isspace b)) := by
  have hword : firstWord tok = ascii "cd" := by rw [firstWord_of_cd h, hend, List.append_nil]
  unfold asked
  rw [hword, h]
  rfl

theorem builtin_of_cd {tok arg : List UInt8} (h : tok.dropWhile isspace = ascii "cd" ++ arg) :
    builtin home tok =
      if arg = [] then goHome home
      else if arg.dropWhile isspace = [] then goHome home
      else .cd (.dir ((arg.dropWhile isspace).takeWhile fun b => !isspace b)) := by
  unfold builtin
  rw [h]
  rfl

theorem plain_of_exit {tok : List UInt8} (hexit : tok.dropWhile isspace = ascii "exit") :
    Plain tok ∧ builtin home tok = asked home tok := by
  refine ⟨⟨fun hcd => ?_, fun _ => hexit⟩, ?_⟩
  · rw [hexit] at hcd
    exact absurd hcd (by decide)
  · have hword : firstWord tok = ascii "exit" := by
      rw [firstWord, hexit]
      rfl
    unfold builtin asked
    rw [hexit, hword]
    rfl

/-- What is behind the two bytes decides. -/
theorem plain_or_mistaken_of_cd {tok arg : List UInt8}
    (harg : tok.dropWhile isspace = ascii "cd" ++ arg) :
    Plain tok ∧ builtin home tok = asked home tok ∨ ¬ Plain tok ∧ Mistaken home tok := by
  have hcd : (tok.dropWhile isspace).take 2 = ascii "cd" := by
    rw [harg]
    rfl
  have hbehind : (tok.dropWhile isspace)[2]? = arg[0]? := by
    rw [harg]
    rfl
  have hnoexit : firstWord tok = ascii "exit" → tok.dropWhile isspace = ascii "exit" := by
    intro hword
    rw [firstWord_of_cd harg] at hword
    exact absurd hword (cd_ne_exit _)
  cases arg with
  | nil =>
    refine .inl ⟨⟨fun _ b hb => ?_, hnoexit⟩, ?_⟩
    · rw [hbehind] at hb
      cases hb
    · rw [builtin_of_cd harg, asked_of_cd harg rfl]
      rfl
  | cons c more =>
    cases hc : isspace c with
    | true =>
      refine .inl ⟨⟨fun _ b hb => ?_, hnoexit⟩, ?_⟩
      · rw [hbehind] at hb
        cases hb
        exact hc
      · rw [builtin_of_cd harg, asked_of_cd harg (by simp [hc])]
        exact if_neg (List.cons_ne_nil _ _)
    | false =>
      refine .inr ⟨fun hplain => ?_, .cd ((c :: more).takeWhile fun b => !isspace b) ?_ ?_⟩
      · have hspace := hplain.cd hcd c (by rw [hbehind]; rfl)
        rw [hc] at hspace
        cases hspace
      · rw [builtin_of_cd harg, List.dropWhile_cons_of_neg (by simp [hc])]
        exact (if_neg (List.cons_ne_nil _ _)).trans (if_neg (List.cons_ne_nil _ _))
      · have hword := firstWord_of_cd harg
        rw [List.takeWhile_cons_of_pos (by simp [hc])] at hword
        unfold asked
        rw [hword, if_neg (cd_ne_exit _),
          if_neg fun h => by simpa [ascii] using congrArg List.length h]

/-- The chain takes it for a program. -/
theorem plain_or_mistaken_of_other {tok : List UInt8}
    (hexit : tok.dropWhile isspace ≠ ascii "exit")
    (hcd : (tok.dropWhile isspace).take 2 ≠ ascii "cd") :
    Plain tok ∧ builtin home tok = asked home tok ∨ ¬ Plain tok ∧ Mistaken home tok := by
  have hbuiltin : builtin home tok = .external (tok.dropWhile isspace) :=
    builtin_external_iff.mpr ⟨rfl, hexit, hcd⟩
  by_cases hword : firstWord tok = ascii "exit"
  · refine .inr ⟨fun hplain => hexit (hplain.exit hword), .exit hbuiltin ?_⟩
    unfold asked
    rw [if_pos hword]
  · refine .inl ⟨⟨fun h => absurd h hcd, fun h => absurd h hword⟩, ?_⟩
    have hnocd : firstWord tok ≠ ascii "cd" := by
      intro h
      have hpre : firstWord tok <+: tok.dropWhile isspace := List.takeWhile_prefix _
      rw [h, List.prefix_iff_eq_take] at hpre
      exact hcd hpre.symm
    rw [hbuiltin]
    unfold asked
    rw [if_neg hword, if_neg hnocd]

theorem plain_or_mistaken (home : Bool) (tok : List UInt8) :
    Plain tok ∧ builtin home tok = asked home tok ∨ ¬ Plain tok ∧ Mistaken home tok := by
  by_cases hexit : tok.dropWhile isspace = ascii "exit"
  · exact .inl (plain_of_exit hexit)
  by_cases hcd : (tok.dropWhile isspace).take 2 = ascii "cd"
  · have harg : tok.dropWhile isspace = ascii "cd" ++ (tok.dropWhile isspace).drop 2 := by
      rw [← hcd, List.take_append_drop]
    exact plain_or_mistaken_of_cd harg
  · exact plain_or_mistaken_of_other hexit hcd

theorem builtin_eq_asked_iff (home : Bool) (tok : List UInt8) :
    builtin home tok = asked home tok ↔ Plain tok := by
  rcases plain_or_mistaken home tok with ⟨hplain, heq⟩ | ⟨hnot, ⟨dir, hb, ha⟩ | ⟨hb, ha⟩⟩
  · exact ⟨fun _ => hplain, fun _ => heq⟩
  · rw [hb, ha]
    exact ⟨fun h => Builtin.noConfusion h, fun h => absurd h hnot⟩
  · rw [hb, ha]
    exact ⟨fun h => Builtin.noConfusion h, fun h => absurd h hnot⟩

/-! ## 2. A line -/

/-- The commands of a line, each for what it asks; `program` is what becomes of the words. -/
def askedRun (home : Bool) (program : List (List UInt8) → Event) : List (List UInt8) → Run
  | [] => ([], .finished)
  | tok :: toks =>
    match asked home tok with
    | .exit => ([.exit], .quit)
    | .homeMissing => ([], .fail)
    | .cd target => (askedRun home program toks).before (.cd target)
    | .external cmd => (askedRun home program toks).before (program (tokens SPACE cmd).1)

/-- The mini bash does what the line asks for, and quits if it asks for that. -/
def Obeys12 (home : Bool) (chdir : Nat → Target → Option (List UInt8)) (buf cwd : List UInt8) : Prop :=
  (parseCmdRet12 home chdir buf cwd).events = (askedRun home .exec (tokens DELIMS buf).1).1 ∧
    ((parseCmdRet12 home chdir buf cwd).ret = QUIT ↔
      (askedRun home .exec (tokens DELIMS buf).1).2 = .quit)

/-- The same of the mini shell, which has to get through the line. -/
def Obeys14 (home : Bool) (answers : Nat → Answers) (buf : List UInt8) (s : Shell) : Prop :=
  ∃ r, parseCmd home answers buf s = .ok r ∧
    r.steps.map Step.event = (askedRun home commandOf (tokens DELIMS buf).1).1 ∧
      (r.ret = QUIT ↔ (askedRun home commandOf (tokens DELIMS buf).1).2 = .quit)

def AsTyped12 (home : Bool) : List (List UInt8) → Prop
  | [] => True
  | tok :: toks =>
    Plain tok ∧
      match asked home tok with
      | .exit | .homeMissing => True
      | .cd _ => AsTyped12 home toks
      | .external cmd => strays cmd ≤ hidden cmd ∧ AsTyped12 home toks

/-- Nothing is done for these commands: there is none, or the first one is a `cd` without `HOME`. -/
def Silent (home : Bool) : List (List UInt8) → Prop
  | [] => True
  | tok :: _ => asked home tok = .homeMissing

/-- The pipeline is refused, or gets a code that is not that of `exit`. -/
def EndsQuietly (calls : Calls) (words : List (List UInt8)) : Prop :=
  match Pipeline.parse .pipe7 words with
  | .error e => e ≠ .outOfBounds
  | .ok p => Outlives calls p ∧ ¬ calls.LooksLikeQuit p

/-- `n` turns are done. -/
def AsTyped14 (home : Bool) (answers : Nat → Answers) : Nat → List (List UInt8) → Prop
  | _, [] => True
  | n, tok :: toks =>
    Plain tok ∧
      match asked home tok with
      | .exit | .homeMissing => True
      | .cd _ => AsTyped14 home answers (n + 1) toks
      | .external cmd =>
        (cmd ≠ [] ∧ strays cmd = hidden cmd) ∧ Silent home toks ∧
          EndsQuietly (answers n).calls (tokens SPACE cmd).1

theorem childEvent_ne_exit (cmd : List UInt8) : childEvent cmd ≠ .exit := by
  unfold childEvent
  dsimp only
  split <;> exact Event.noConfusion

theorem run12_obeys_iff (home : Bool) (toks : List (List UInt8)) :
    ((run12 home toks).1 = (askedRun home .exec toks).1 ∧
      ((run12 home toks).2 = .quit ↔ (askedRun home .exec toks).2 = .quit)) ↔
        AsTyped12 home toks := by
  induction toks with
  | nil => exact ⟨fun _ => trivial, fun _ => ⟨rfl, Iff.rfl⟩⟩
  | cons tok toks ih =>
    rw [run12, askedRun, AsTyped12]
    rcases plain_or_mistaken home tok with ⟨hplain, heq⟩ | ⟨hnot, ⟨dir, hb, ha⟩ | ⟨hb, ha⟩⟩
    · rw [heq]
      cases ha : asked home tok with
      | exit => exact ⟨fun _ => ⟨hplain, trivial⟩, fun _ => ⟨rfl, Iff.rfl⟩⟩
      | homeMissing => exact ⟨fun _ => ⟨hplain, trivial⟩, fun _ => ⟨rfl, Iff.rfl⟩⟩
      | cd target =>
        simp only [Run.before, List.cons.injEq, true_and, hplain]
        exact ih
      | external cmd =>
        rw [ha] at heq
        simp only [Run.before, List.cons.injEq, true_and, hplain, and_assoc]
        rw [childEvent_exec_iff, terminated_iff_strays heq, ih]
    · rw [hb, ha]
      simp [Run.before, hnot]
    · rw [hb, ha]
      simp [Run.before, hnot, childEvent_ne_exit]

theorem obeys12_iff (home : Bool) (chdir : Nat → Target → Option (List UInt8))
    (buf cwd : List UInt8) :
    Obeys12 home chdir buf cwd ↔ AsTyped12 home (tokens DELIMS buf).1 := by
  rw [← run12_obeys_iff, Obeys12, events_of_parse12, ret12_quit_iff, parseCmd12, loop12_eq]
  rfl

theorem silent_iff (program : List (List UInt8) → Event) (toks : List (List UInt8)) :
    Silent home toks ↔ (askedRun home program toks).1 = [] := by
  cases toks with
  | nil => exact ⟨fun _ => rfl, fun _ => trivial⟩
  | cons tok toks =>
    rw [askedRun, Silent]
    cases asked home tok <;> simp [Run.before]

/-- A line that does nothing does not quit. -/
theorem askedRun_quit {program : List (List UInt8) → Event} {toks : List (List UInt8)}
    (h : (askedRun home program toks).1 = []) : (askedRun home program toks).2 ≠ .quit := by
  cases toks with
  | nil => exact fun h => Ending.noConfusion h
  | cons tok toks =>
    rw [askedRun] at h ⊢
    cases ha : asked home tok with
    | homeMissing => exact fun h => Ending.noConfusion h
    | exit =>
      rw [ha] at h
      exact absurd h (List.cons_ne_nil _ _)
    | cd target =>
      rw [ha] at h
      exact absurd h (List.cons_ne_nil _ _)
    | external cmd =>
      rw [ha] at h
      exact absurd h (List.cons_ne_nil _ _)

/-- What the pipeline of a command leaves when the line goes on to its end. -/
theorem pipeline_quiet_iff {calls : Calls} {words : List (List UInt8)} {s : Shell} {ret : Int}
    (hret : ret ≠ QUIT) :
    (∃ ret' s', pipeline calls words s ret = .ok (ret', s') ∧ ret' ≠ QUIT) ↔
      EndsQuietly calls words := by
  unfold EndsQuietly
  constructor
  · rintro ⟨ret', s', hpipe, hquit⟩
    rcases pipeline_cases hpipe with ⟨e, he, -, -⟩ | ⟨p, hp, ho, rfl, -⟩
    · rw [he]
      rintro rfl
      unfold pipeline at hpipe
      rw [he] at hpipe
      cases hpipe
    · rw [hp]
      exact ⟨ho, fun hlooks => hquit (Calls.returned_eq_one.mpr hlooks)⟩
  · intro h
    cases hp : Pipeline.parse .pipe7 words with
    | error e =>
      rw [hp] at h
      refine ⟨ret, s, ?_, hret⟩
      unfold pipeline
      rw [hp]
      cases e with
      | outOfBounds => exact absurd rfl h
      | pipe pipeIdx => rfl
      | redirection mark => rfl
    | ok p =>
      rw [hp] at h
      exact ⟨_, _, pipeline_of_parse hp h.1, fun hq => h.2 (Calls.returned_eq_one.mp hq)⟩

/-- The turn of an external command, behind which nothing is done. -/
theorem external_quiet_iff {calls : Calls} {cmd : List UInt8} {r : Returned}
    (hret : r.ret ≠ QUIT) :
    (∃ r', external calls cmd r = .ok r' ∧ r'.ret ≠ QUIT) ↔
      Filled cmd ∧ EndsQuietly calls (tokens SPACE cmd).1 := by
  rw [filled_iff, ← pipeline_quiet_iff (s := r.shell) hret, external]
  by_cases hargc : (tokens SPACE cmd).1.length = argCount cmd + 1
  · rw [if_pos hargc]
    constructor
    · rintro ⟨r', h, hquit⟩
      cases hpipe : pipeline calls (tokens SPACE cmd).1 r.shell r.ret with
      | error trouble =>
        rw [hpipe] at h
        cases h
      | ok next =>
        obtain ⟨ret', s'⟩ := next
        rw [hpipe] at h
        cases h
        exact ⟨hargc, ret', s', rfl, hquit⟩
    · rintro ⟨-, ret', s', hpipe, hquit⟩
      rw [hpipe]
      exact ⟨_, rfl, hquit⟩
  · rw [if_neg hargc]
    constructor
    · rintro ⟨r', h, -⟩
      cases h
    · intro h
      exact absurd h.1 hargc

theorem commandOf_ne {words : List (List UInt8)} {e : Event} (hexec : e ≠ .exec words)
    (hoperators : e ≠ .operators words) : commandOf words ≠ e := by
  unfold commandOf
  split
  · exact Ne.symm hoperators
  · exact Ne.symm hexec

/-- A mistaken command has left something else behind than it asks for. -/
theorem mistaken_events {tok : List UInt8} (toks : List (List UInt8)) (h : Mistaken home tok) :
    (run14 home (tok :: toks)).1 ≠ (askedRun home commandOf (tok :: toks)).1 := by
  rw [run14, askedRun]
  cases h with
  | cd dir hb ha =>
    rw [hb, ha]
    intro heq
    have hhead := (List.cons.inj heq).1
    exact commandOf_ne Event.noConfusion Event.noConfusion hhead.symm
  | exit hb ha =>
    rw [hb, ha]
    dsimp only
    split
    · intro heq
      exact commandOf_ne Event.noConfusion Event.noConfusion (List.cons.inj heq).1
    · exact fun heq => List.cons_ne_nil _ _ heq.symm

/-- The commands from turn `n` on, `r` being what was returned so far. -/
theorem parseRun_obeys_iff {n : Nat} {toks : List (List UInt8)} {r : Returned} (hret : r.ret ≠ QUIT) :
    (∃ r', parseRun home answers n toks r = .ok r' ∧
      r'.steps.map Step.event =
        r.steps.map Step.event ++ (askedRun home commandOf toks).1 ∧
      (r'.ret = QUIT ↔ (askedRun home commandOf toks).2 = .quit)) ↔
        AsTyped14 home answers n toks := by
  induction toks generalizing n r with
  | nil =>
    refine ⟨fun _ => trivial, fun _ => ⟨r, rfl, (List.append_nil _).symm, ?_⟩⟩
    exact ⟨fun h => absurd h hret, fun h => Ending.noConfusion h⟩
  | cons tok toks ih =>
    rcases plain_or_mistaken home tok with ⟨hplain, heq⟩ | ⟨hnot, hmistaken⟩
    · rw [askedRun, AsTyped14, parseRun, heq]
      cases ha : asked home tok with
      | exit =>
        exact ⟨fun _ => ⟨hplain, trivial⟩,
          fun _ => ⟨_, rfl, by simp [Step.event], ⟨fun _ => rfl, fun _ => rfl⟩⟩⟩
      | homeMissing =>
        refine ⟨fun _ => ⟨hplain, trivial⟩, fun _ => ⟨_, rfl, (List.append_nil _).symm, ?_⟩⟩
        exact ⟨fun h => absurd h (show FAIL ≠ QUIT by decide), fun h => Ending.noConfusion h⟩
      | cd target =>
        dsimp only
        have hbefore : ∀ steps : List Step, ∀ moved : Bool,
            steps.map Step.event ++
                ((askedRun home commandOf toks).before (.cd target)).1 =
              (steps ++ [Step.cd target moved]).map Step.event ++ (askedRun home commandOf toks).1 := by
          intro steps moved
          simp [Run.before, Step.event]
        cases (answers n).chdir target with
        | none =>
          rw [hbefore r.steps false, and_iff_right hplain]
          exact ih (r := ⟨FAIL, r.shell, r.steps ++ [.cd target false]⟩) (show FAIL ≠ QUIT by decide)
        | some cwd =>
          rw [hbefore r.steps true, and_iff_right hplain]
          exact ih (r := ⟨CHDIR, { r.shell with cwd }, r.steps ++ [.cd target true]⟩)
            (show CHDIR ≠ QUIT by decide)
      | external cmd =>
        rw [ha] at heq
        dsimp only
        rw [← filled_iff_strays heq, silent_iff commandOf, and_iff_right hplain]
        have hsteps : ∀ r', external (answers n).calls cmd r = .ok r' →
            r'.steps.map Step.event = r.steps.map Step.event ++ [commandOf (tokens SPACE cmd).1] := by
          intro r' h
          rw [(steps_of_external h).2, List.map_append]
          rfl
        constructor
        · rintro ⟨r', h, hevents, hquit⟩
          rw [hsteps r' h] at hevents
          have hnil := ((List.cons.inj (List.append_cancel_left hevents)).2).symm
          have hleft := (external_quiet_iff hret).mp
            ⟨r', h, fun hq => askedRun_quit hnil (hquit.mp hq)⟩
          exact ⟨hleft.1, hnil, hleft.2⟩
        · rintro ⟨hfilled, hnil, hquiet⟩
          obtain ⟨r', h, hne⟩ := (external_quiet_iff hret).mpr ⟨hfilled, hquiet⟩
          refine ⟨r', h, ?_, fun hq => absurd hq hne, fun hq => absurd hq (askedRun_quit hnil)⟩
          rw [hsteps r' h, Run.before, hnil]
    · refine ⟨?_, fun h => absurd h.1 hnot⟩
      rintro ⟨r', hrun, hevents, -⟩
      rw [events_of_parseRun hrun] at hevents
      exact absurd (List.append_cancel_left hevents) (mistaken_events toks hmistaken)

theorem obeys14_iff (home : Bool) (answers : Nat → Answers) (buf : List UInt8) (s : Shell) :
    Obeys14 home answers buf s ↔ AsTyped14 home answers 0 (tokens DELIMS buf).1 := by
  rw [Obeys14, parseCmd_eq]
  exact parseRun_obeys_iff (r := ⟨OK, s, []⟩) (show OK ≠ QUIT by decide)

/-- **A line does what the first words of its commands ask for exactly when it is typed so that the
    comparisons of `parse_cmd` see them**, and nothing comes behind a program in `LAB_14`. -/
theorem builtins_iff (home : Bool) (chdir : Nat → Target → Option (List UInt8))
    (answers : Nat → Answers) (buf cwd : List UInt8) (s : Shell) :
    (Obeys12 home chdir buf cwd ↔ AsTyped12 home (tokens DELIMS buf).1) ∧
      (Obeys14 home answers buf s ↔ AsTyped14 home answers 0 (tokens DELIMS buf).1) :=
  ⟨obeys12_iff home chdir buf cwd, obeys14_iff home answers buf s⟩

/-- Every `cd` goes to `/b`, and every process exits with `0`. -/
def obliging : Answers := ⟨fun _ => some (ascii "/b"), fun _ => true, fun _ => true,
  fun _ => some (.exited 0)⟩

/-- `cdrom` goes to the directory `rom`, and `exit` with a blank behind it is a program. -/
theorem builtins_mistaken :
    builtin true (ascii "cdrom") = .cd (.dir (ascii "rom")) ∧
      builtin true (ascii "exit ") = .external (ascii "exit ") ∧
      ¬ Obeys12 true (fun _ _ => none) (ascii "cdrom") (ascii "/") ∧
      ¬ Obeys12 true (fun _ _ => none) (ascii "exit ") (ascii "/") ∧
      ¬ Obeys14 true (fun _ => obliging) (ascii "cdrom") ⟨ascii "/", .handler⟩ ∧
      ¬ Obeys14 true (fun _ => obliging) (ascii "exit ") ⟨ascii "/", .handler⟩ := by
  have hrom : ¬ Plain (ascii "cdrom") := by
    intro h
    have hspace := h.cd (by decide) 114 (by decide)
    exact absurd hspace (by decide)
  have hblank : ¬ Plain (ascii "exit ") := by
    intro h
    exact absurd (h.exit (by decide)) (by decide)
  have htokens : ∀ tok ∈ [ascii "cdrom", ascii "exit "], (tokens DELIMS tok).1 = [tok] := by decide
  have hone := htokens (ascii "cdrom") List.mem_cons_self
  have htwo := htokens (ascii "exit ") (List.mem_cons_of_mem _ List.mem_cons_self)
  refine ⟨by decide, by decide, ?_, ?_, ?_, ?_⟩
  · rw [obeys12_iff, hone]
    exact fun h => hrom h.1
  · rw [obeys12_iff, htwo]
    exact fun h => hblank h.1
  · rw [obeys14_iff, hone]
    exact fun h => hrom h.1
  · rw [obeys14_iff, htwo]
    exact fun h => hblank h.1

end MiniBash
end Labs
