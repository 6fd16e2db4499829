import Labs.MiniBash.Codes

/-!
# What a prompt shows

At a prompt the directory that is shown should be the current one, and `SIGINT` should still run the
handler of `main`: `InOrder`. A line without a pipeline keeps this. `dir` is read again behind a
`CHDIR`, and whatever else a `cd` leaves behind ends the session.

A line that starts a pipeline does not. `signal(SIGINT, SIG_DFL)` is called in the shell and not in
the child, and nothing takes it back; and the code of the pipeline replaces a `CHDIR` from the same
line, so that `dir` stays as it was. Only the first of these is needed for `in_order_iff`: behind such
a line every prompt is out of order.

## What the shell keeps

`pseudo_bash` has its own copy of the directory, and a handler for `SIGINT` that it gives up when it
starts a pipeline. `InOrder` compares both with what they should be. The comparison is made at a
prompt, where a line has been dealt with, and not in between.

A session is a sequence of turns with the same function for each line (`bashLoop_cases`), so the
proof is about one line: what it leaves of the handler, and what its code says about the directory.
A line without a pipeline leaves the handler, and a code other than `CHDIR` means that the shell has
not moved, or that the session ends (`parseRun_quiet`). A line with a pipeline takes the handler
away for good (`parseRun_started`). From the first such line on every prompt is out of order, so the
condition is that no line with a prompt behind it is one.
-/

namespace Labs
namespace MiniBash

open Lib

variable {home : Bool} {answers : Nat → Answers} {w : World}

def InOrder (p : Prompt) : Prop := p.dir = p.shell.cwd ∧ p.shell.sigint = .handler
deriving Decidable

/-- The first external command that is reached gets past the parser. -/
def StartsPipeline (home : Bool) : List (List UInt8) → Prop
  | [] => False
  | tok :: toks =>
    match builtin home tok with
    | .exit | .homeMissing => False
    | .cd _ => StartsPipeline home toks
    | .external cmd =>
      (tokens SPACE cmd).1.length = argCount cmd + 1 ∧
        ∃ p, Pipeline.parse .pipe7 (tokens SPACE cmd).1 = .ok p

/-! ## 1. One line -/

/-- Without a pipeline the handler stays, and a code that goes on without reading `dir` again comes
    from a shell that has not moved. -/
theorem parseRun_quiet {n : Nat} {toks : List (List UInt8)} {r r' : Returned} {cwd : List UInt8}
    (hquiet : ¬ StartsPipeline home toks) (hmoved : action r.ret = .goOn → r.shell.cwd = cwd)
    (h : parseRun home answers n toks r = .ok r') :
    r'.shell.sigint = r.shell.sigint ∧ (action r'.ret = .goOn → r'.shell.cwd = cwd) := by
  induction toks generalizing n r with
  | nil =>
    cases h
    exact ⟨rfl, hmoved⟩
  | cons tok toks ih =>
    rw [StartsPipeline] at hquiet
    rw [parseRun] at h
    cases hb : builtin home tok with
    | exit =>
      rw [hb] at h
      cases h
      exact ⟨rfl, fun hgo => absurd hgo (show action QUIT ≠ .goOn by decide)⟩
    | homeMissing =>
      rw [hb] at h
      cases h
      exact ⟨rfl, fun hgo => absurd hgo (show action FAIL ≠ .goOn by decide)⟩
    | cd target =>
      rw [hb] at h hquiet
      dsimp only at h
      cases hcd : (answers n).chdir target with
      | none =>
        rw [hcd] at h
        exact ih (r := ⟨FAIL, r.shell, r.steps ++ [.cd target false]⟩) hquiet
          (fun hgo => absurd hgo (show action FAIL ≠ .goOn by decide)) h
      | some dir =>
        rw [hcd] at h
        exact ih (r := ⟨CHDIR, { r.shell with cwd := dir }, r.steps ++ [.cd target true]⟩) hquiet
          (fun hgo => absurd hgo (show action CHDIR ≠ .goOn by decide)) h
    | external cmd =>
      rw [hb] at h hquiet
      have hargc := (steps_of_external h).1
      dsimp only at h
      rw [external, if_pos hargc] at h
      cases hpipe : pipeline (answers n).calls (tokens SPACE cmd).1 r.shell r.ret with
      | error trouble =>
        rw [hpipe] at h
        cases h
      | ok next =>
        obtain ⟨ret', s'⟩ := next
        rw [hpipe] at h
        cases h
        rcases pipeline_cases hpipe with ⟨e, he, rfl, rfl⟩ | ⟨p, hp, -, -, -⟩
        · exact ⟨rfl, hmoved⟩
        · exact absurd ⟨hargc, p, hp⟩ hquiet

/-- With a pipeline the handler is gone. -/
theorem parseRun_started {n : Nat} {toks : List (List UInt8)} {r r' : Returned}
    (hstarts : StartsPipeline home toks) (h : parseRun home answers n toks r = .ok r') :
    r'.shell.sigint = .default := by
  induction toks generalizing n r with
  | nil => exact hstarts.elim
  | cons tok toks ih =>
    rw [StartsPipeline] at hstarts
    rw [parseRun] at h
    cases hb : builtin home tok with
    | exit =>
      rw [hb] at hstarts
      exact hstarts.elim
    | homeMissing =>
      rw [hb] at hstarts
      exact hstarts.elim
    | cd target =>
      rw [hb] at h hstarts
      dsimp only at h
      cases hcd : (answers n).chdir target with
      | none =>
        rw [hcd] at h
        exact ih hstarts h
      | some dir =>
        rw [hcd] at h
        exact ih hstarts h
    | external cmd =>
      rw [hb] at h hstarts
      obtain ⟨hargc, p, hp⟩ := hstarts
      dsimp only at h
      rw [external, if_pos hargc] at h
      cases hpipe : pipeline (answers n).calls (tokens SPACE cmd).1 r.shell r.ret with
      | error trouble =>
        rw [hpipe] at h
        cases h
      | ok next =>
        obtain ⟨ret', s'⟩ := next
        rw [hpipe] at h
        cases h
        rcases pipeline_cases hpipe with ⟨e, he, -, -⟩ | ⟨p', -, -, rfl, rfl⟩
        · rw [hp] at he
          cases he
        · rfl

/-! ## 2. One turn of `pseudo_bash` -/

/-- What lies between a prompt with directory `dir` and the next one. -/
inductive Next (w : World) (n : Nat) (dir : List UInt8) (s : Shell) :
    Option (List UInt8) → List UInt8 → Shell → Prop
  | skipped : Next w n dir s none dir s
  | refreshed {cmds : List UInt8} {r : Returned} :
      parseCmd w.home (w.answers n) cmds s = .ok r → action r.ret = .refresh →
        Next w n dir s (some cmds) [] r.shell
  | wentOn {cmds : List UInt8} {r : Returned} :
      parseCmd w.home (w.answers n) cmds s = .ok r → action r.ret = .goOn →
        Next w n dir s (some cmds) dir r.shell

def shown (dir : List UInt8) (s : Shell) : List UInt8 := if dir = [] then s.cwd else dir

/-- A turn has no prompt, the last prompt, or a prompt with another turn behind it. -/
theorem bashLoop_cases (w : World) (fuel n : Nat) (dir : List UInt8) (s : Shell) (ret : Int)
    (inp : List UInt8) :
    (bashLoop w (fuel + 1) n dir s ret inp).1 = [] ∨
      (∃ read, (bashLoop w (fuel + 1) n dir s ret inp).1 = [⟨shown dir s, s, read⟩]) ∨
      ∃ read dir' s' ret' inp', Next w n (shown dir s) s read dir' s' ∧
        (bashLoop w (fuel + 1) n dir s ret inp).1 =
          ⟨shown dir s, s, read⟩ :: (bashLoop w fuel (n + 1) dir' s' ret' inp').1 := by
  rw [bashLoop]
  by_cases hcwd : dir = [] ∧ w.getcwd n = false
  · rw [if_pos hcwd]
    exact .inl rfl
  · rw [if_neg hcwd]
    refine .inr ?_
    cases hread : fgets (BUFSIZ + 1) inp with
    | none => exact .inl ⟨none, rfl⟩
    | some lineRest =>
      obtain ⟨buf, inp'⟩ := lineRest
      dsimp only
      by_cases hempty : buf.head? = some NEWLINE
      · rw [if_pos hempty]
        exact .inr ⟨none, _, s, ret, inp', .skipped, rfl⟩
      · rw [if_neg hempty]
        cases hchp : memchr (cstr buf) NEWLINE with
        | none =>
          dsimp only
          cases hskip : skipLine inp' with
          | none => exact .inl ⟨none, rfl⟩
          | some inp'' => exact .inr ⟨none, _, s, ret, inp'', .skipped, rfl⟩
        | some chp =>
          dsimp only
          cases hparse : parseCmd w.home (w.answers n) (buf.take chp) s with
          | error trouble => exact .inl ⟨some (buf.take chp), rfl⟩
          | ok r =>
            dsimp only
            cases hact : action r.ret with
            | leave code => exact .inl ⟨some (buf.take chp), rfl⟩
            | refresh =>
              exact .inr ⟨some (buf.take chp), [], r.shell, r.ret, inp', .refreshed hparse hact, rfl⟩
            | goOn =>
              exact .inr ⟨some (buf.take chp), _, r.shell, r.ret, inp', .wentOn hparse hact, rfl⟩

theorem shell_of_head {fuel n : Nat} {dir : List UInt8} {s : Shell} {ret : Int}
    {inp : List UInt8} {p : Prompt} (h : (bashLoop w fuel n dir s ret inp).1.head? = some p) :
    p.shell = s := by
  cases fuel with
  | zero => cases h
  | succ fuel =>
    rcases bashLoop_cases w fuel n dir s ret inp with hnil | ⟨read, hlast⟩ | ⟨read, _, _, _, _, -, hcons⟩
    · rw [hnil] at h
      cases h
    · rw [hlast] at h
      cases h
      rfl
    · rw [hcons] at h
      cases h
      rfl

/-! ## 3. The session -/

/-- No line with a prompt behind it starts a pipeline. -/
def Quiet (home : Bool) (prompts : List Prompt) : Prop :=
  ∀ p ∈ prompts.dropLast, ∀ cmds, p.read = some cmds →
    ¬ StartsPipeline home (tokens DELIMS cmds).1

theorem quiet_cons {p : Prompt} {prompts : List Prompt} (hne : prompts ≠ []) :
    Quiet home (p :: prompts) ↔
      (∀ cmds, p.read = some cmds → ¬ StartsPipeline home (tokens DELIMS cmds).1) ∧
        Quiet home prompts := by
  unfold Quiet
  rw [List.dropLast_cons_of_ne_nil hne, List.forall_mem_cons]

/-- A quiet line keeps the shell in order. -/
theorem Next.keeps {n : Nat} {dir dir' : List UInt8} {s s' : Shell} {read : Option (List UInt8)}
    (h : Next w n dir s read dir' s') (hdir : dir = s.cwd) (hsig : s.sigint = .handler)
    (hquiet : ∀ cmds, read = some cmds → ¬ StartsPipeline w.home (tokens DELIMS cmds).1) :
    (dir' = [] ∨ dir' = s'.cwd) ∧ s'.sigint = .handler := by
  cases h with
  | skipped => exact ⟨.inr hdir, hsig⟩
  | @refreshed cmds r hparse hact =>
    rw [parseCmd_eq] at hparse
    obtain ⟨hkept, -⟩ := parseRun_quiet (hquiet cmds rfl) (fun _ => rfl) hparse
    exact ⟨.inl rfl, hkept.trans hsig⟩
  | @wentOn cmds r hparse hact =>
    rw [parseCmd_eq] at hparse
    obtain ⟨hkept, hcwd⟩ := parseRun_quiet (hquiet cmds rfl) (fun _ => rfl) hparse
    exact ⟨.inr (hdir.trans (hcwd hact).symm), hkept.trans hsig⟩

theorem bashLoop_in_order_iff {fuel n : Nat} {dir : List UInt8} {s : Shell} {ret : Int}
    {inp : List UInt8} (hdir : dir = [] ∨ dir = s.cwd) (hsig : s.sigint = .handler) :
    (∀ p ∈ (bashLoop w fuel n dir s ret inp).1, InOrder p) ↔
      Quiet w.home (bashLoop w fuel n dir s ret inp).1 := by
  induction fuel generalizing n dir s ret inp with
  | zero => exact ⟨fun _ p hp => absurd hp List.not_mem_nil, fun _ p hp => absurd hp List.not_mem_nil⟩
  | succ fuel ih =>
    have hshown : shown dir s = s.cwd := by
      unfold shown
      rcases hdir with rfl | rfl
      · exact if_pos rfl
      · exact ite_self _
    rcases bashLoop_cases w fuel n dir s ret inp with
      hnil | ⟨read, hlast⟩ | ⟨read, dir', s', ret', inp', hnext, hcons⟩
    · rw [hnil]
      exact ⟨fun _ p hp => absurd hp List.not_mem_nil,
        fun _ p hp => absurd hp List.not_mem_nil⟩
    · rw [hlast]
      refine ⟨fun _ p hp => absurd hp List.not_mem_nil, fun _ p hp => ?_⟩
      rw [List.mem_singleton.mp hp]
      exact ⟨hshown, hsig⟩
    · rw [hcons, List.forall_mem_cons]
      have hfirst : InOrder ⟨shown dir s, s, read⟩ := ⟨hshown, hsig⟩
      by_cases hrest : (bashLoop w fuel (n + 1) dir' s' ret' inp').1 = []
      · rw [hrest]
        exact ⟨fun _ p hp => absurd hp List.not_mem_nil,
          fun _ => ⟨hfirst, fun p hp => absurd hp List.not_mem_nil⟩⟩
      · rw [quiet_cons hrest]
        by_cases hquiet : ∀ cmds, read = some cmds →
            ¬ StartsPipeline w.home (tokens DELIMS cmds).1
        · obtain ⟨hdir', hsig'⟩ := hnext.keeps hshown hsig hquiet
          rw [ih hdir' hsig']
          exact ⟨fun h => ⟨hquiet, h.2⟩, fun h => ⟨hfirst, h.2⟩⟩
        · refine ⟨fun h => absurd ?_ hquiet, fun h => absurd h.1 hquiet⟩
          -- the next prompt has the shell that the pipeline has left
          obtain ⟨p, prompts, hp⟩ := List.exists_cons_of_ne_nil hrest
          have hshell : p.shell = s' := shell_of_head (by rw [hp]; rfl)
          have horder := h.2 p (by rw [hp]; exact List.mem_cons_self)
          intro cmds hread hstarts
          have hdefault : s'.sigint = .default := by
            cases hnext with
            | skipped => cases hread
            | refreshed hparse hact =>
              cases hread
              rw [parseCmd_eq] at hparse
              exact parseRun_started hstarts hparse
            | wentOn hparse hact =>
              cases hread
              rw [parseCmd_eq] at hparse
              exact parseRun_started hstarts hparse
          have hhandler := horder.2
          rw [hshell, hdefault] at hhandler
          cases hhandler

/-- **The prompts of a session are in order exactly when no line before the last prompt starts a
    pipeline.** -/
theorem in_order_iff (w : World) (cwd inp : List UInt8) :
    (∀ p ∈ (pseudoBash w cwd inp).1, InOrder p) ↔ Quiet w.home (pseudoBash w cwd inp).1 :=
  bashLoop_in_order_iff (.inl rfl) rfl

/-- Every `cd` goes to `/b`, and every process exits with `0`. -/
def calm : World := ⟨true, fun _ => true, fun _ _ => ⟨fun _ => some (ascii "/b"), fun _ => true,
  fun _ => true, fun _ => some (.exited 0)⟩⟩

/-- `cd b;a` at `/`: the second prompt shows `/` in `/b`, and the handler is gone. -/
theorem prompt_out_of_order :
    (pseudoBash calm (ascii "/") (ascii "cd b;a\n")).1 =
        [⟨ascii "/", ⟨ascii "/", .handler⟩, some (ascii "cd b;a")⟩,
          ⟨ascii "/", ⟨ascii "/b", .default⟩, none⟩] ∧
      ¬ ∀ p ∈ (pseudoBash calm (ascii "/") (ascii "cd b;a\n")).1, InOrder p := by
  have hrun : (pseudoBash calm (ascii "/") (ascii "cd b;a\n")).1 =
      [⟨ascii "/", ⟨ascii "/", .handler⟩, some (ascii "cd b;a")⟩,
        ⟨ascii "/", ⟨ascii "/b", .default⟩, none⟩] := by
    decide +kernel
  refine ⟨hrun, ?_⟩
  rw [hrun]
  decide

end MiniBash
end Labs
