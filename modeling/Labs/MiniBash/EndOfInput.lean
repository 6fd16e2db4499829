import Labs.Lib.Loops
import Labs.MiniBash.Builtins

/-!
# Where the shells do not leave their loop

`pseudo_bash` reads a line into a buffer. Where the buffer holds no newline the rest of the line is
thrown away by `while (getchar() != '\n') ;`, which goes round for ever when the input has ended. The
buffer holds no newline if the line is longer, if the input ends without one, and if there is a `NUL`
before it, where `strchr` stops.

The other way not to get to the end of the loop is to die on the way. In `LAB_14` `parse_cmd` runs in
the shell, and it follows whatever its arrays hold: an element of `argv` that no word was stored in
(a line of one blank), a place behind an array of the pipeline parser, a `NULL` in what that has
built. `GetsThrough` is the condition on the tokens of a line under which none of that happens, up to
the first external command, which ends the line (`parseRun_ok_iff`). In `LAB_12` the child dies.

The text of `pseudo_bash` is the same in `LAB_12` and in `LAB_14`, so that one turn is defined for both,
over their calls of `parse_cmd`, and so is the condition of a turn: `LinesEnd` for the loop that waits
for a newline, and `Parses` for the call. `bashLoop` of `Session` is the loop of these turns
(`bashLoop_outcome`).

## From turns to sessions

A turn consumes a line, so the loop is a recursion on the input that is left (`bashTurn_shrinks`),
and the number of turns needs no bound of its own. `Lib.Loops` turns that into statements about
runs: the loop returns exactly if no turn that it comes to hangs or stops. So both conditions are
conditions of one turn, asked of the turns that are reached.

They are independent. Whether the discarding loop ends depends on the bytes behind the buffer, and
not on what the line says. Whether `parse_cmd` gets through depends on what the line says, and on
the answers of the system to its pipeline, and not on the rest of the input.

`GetsThrough` stops at the first external command, because the loop of `parse_cmd` does. What stands
behind it is never looked at, so a line with a broken tail is harmless.
-/

namespace Labs
namespace MiniBash

open Lib
open Pipeline (Calls EXIT_FAILURE)

/-! ## 1. One turn of `pseudo_bash` -/

/-- At the start of turn `n`. -/
structure Bash where
  n : Nat
  dir : List UInt8
  shell : Shell
  ret : Int
  input : List UInt8

/-- `parse_cmd` in turn `n`: the code, and the shell behind it. -/
abbrev Parser := Nat → List UInt8 → Shell → Except Trouble (Int × Shell)

def parser12 (home : Bool) (chdir : Nat → Nat → Target → Option (List UInt8)) : Parser :=
  fun n buf s =>
    let r := parseCmdRet12 home (chdir n) buf s.cwd
    .ok (r.ret, { s with cwd := r.cwd })

def parser14 (w : World) : Parser :=
  fun n buf s => (parseCmd w.home (w.answers n) buf s).map fun r => (r.ret, r.shell)

def bashTurn (getcwd : Nat → Bool) (parse : Parser) (b : Bash) : Except Stop (Outcome ⊕ Bash) :=
  if b.dir = [] ∧ getcwd b.n = false then .ok (.inl (.left b.ret))
  else
    let dir := if b.dir = [] then b.shell.cwd else b.dir
    match fgets (BUFSIZ + 1) b.input with
    | none => .ok (.inl (.left b.ret))
    | some (buf, inp) =>
      if buf.head? = some NEWLINE then .ok (.inr ⟨b.n + 1, dir, b.shell, b.ret, inp⟩)
      else
        match memchr (cstr buf) NEWLINE with
        | none =>
          match skipLine inp with
          | none => .error .hang
          | some inp => .ok (.inr ⟨b.n + 1, dir, b.shell, b.ret, inp⟩)
        | some chp =>
          match parse b.n (buf.take chp) b.shell with
          | .error trouble => .ok (.inl (.stopped trouble))
          | .ok (ret, shell) =>
            match action ret with
            | .leave ret => .ok (.inl (.left ret))
            | .refresh => .ok (.inr ⟨b.n + 1, [], shell, ret, inp⟩)
            | .goOn => .ok (.inr ⟨b.n + 1, dir, shell, ret, inp⟩)

variable {getcwd : Nat → Bool} {parse : Parser} {b b' : Bash} {w : World} {inp : List UInt8}

/-- Where a turn goes on it has read a line into the buffer, and perhaps the rest of the line. -/
theorem input_of_turn (h : bashTurn getcwd parse b = .ok (.inr b')) :
    ∃ buf rest, fgets (BUFSIZ + 1) b.input = some (buf, rest) ∧
      (b'.input = rest ∨ skipLine rest = some b'.input) := by
  unfold bashTurn at h
  split at h
  · cases h
  · dsimp only at h
    cases hread : fgets (BUFSIZ + 1) b.input with
    | none =>
      rw [hread] at h
      cases h
    | some r =>
      obtain ⟨buf, rest⟩ := r
      rw [hread] at h
      dsimp only at h
      refine ⟨buf, rest, rfl, ?_⟩
      split at h
      · cases h
        exact .inl rfl
      · split at h
        · split at h
          · cases h
          · rename_i hskip
            cases h
            exact .inr hskip
        · split at h
          · cases h
          · split at h
            · cases h
            · cases h
              exact .inl rfl
            · cases h
              exact .inl rfl

theorem bashTurn_shrinks : Shrinking (bashTurn getcwd parse) fun b => b.input.length := by
  intro b b' h
  obtain ⟨buf, rest, hread, hrest | hskip⟩ := input_of_turn h
  · subst hrest
    exact fgets_rest_length_lt (by decide) hread
  · exact Nat.lt_of_lt_of_le (skipLine_length_lt hskip) (fgets_rest_length hread)

/-- `main`, started in `cwd`. -/
def Bash.start (cwd inp : List UInt8) : Bash := ⟨0, [], ⟨cwd, .handler⟩, EXIT_FAILURE, inp⟩

def runBash (getcwd : Nat → Bool) (parse : Parser) (b : Bash) : Except Stop Outcome :=
  loop (bashTurn getcwd parse) (fun b => b.input.length) bashTurn_shrinks b

/-- `pseudo_bash` of `LAB_12`. -/
def pseudoBash12 (home : Bool) (getcwd : Nat → Bool)
    (chdir : Nat → Nat → Target → Option (List UInt8)) (cwd inp : List UInt8) : Except Stop Outcome :=
  runBash getcwd (parser12 home chdir) (.start cwd inp)

/-- `pseudo_bash` of `LAB_14`. -/
def pseudoBash14 (w : World) (cwd inp : List UInt8) : Except Stop Outcome :=
  runBash w.getcwd (parser14 w) (.start cwd inp)

/-! ## 2. The loop of `Session` -/

/-- A loop that hangs is one of the troubles there. -/
def ended : Except Stop Outcome → Outcome
  | .ok outcome => outcome
  | .error _ => .stopped .hangs

theorem bashLoop_turn (w : World) (fuel n : Nat) (dir : List UInt8) (s : Shell) (ret : Int)
    (inp : List UInt8) :
    (bashLoop w (fuel + 1) n dir s ret inp).2 =
      match bashTurn w.getcwd (parser14 w) ⟨n, dir, s, ret, inp⟩ with
      | .error _ => .stopped .hangs
      | .ok (.inl outcome) => outcome
      | .ok (.inr b) => (bashLoop w fuel b.n b.dir b.shell b.ret b.input).2 := by
  rw [bashLoop, bashTurn]
  by_cases hcwd : dir = [] ∧ w.getcwd n = false
  · rw [if_pos hcwd, if_pos hcwd]
  · rw [if_neg hcwd, if_neg hcwd]
    dsimp only
    cases hread : fgets (BUFSIZ + 1) inp with
    | none => rfl
    | some r =>
      obtain ⟨buf, rest⟩ := r
      dsimp only
      by_cases hempty : buf.head? = some NEWLINE
      · rw [if_pos hempty, if_pos hempty]
      · rw [if_neg hempty, if_neg hempty]
        cases hchp : memchr (cstr buf) NEWLINE with
        | none =>
          dsimp only
          cases hskip : skipLine rest with
          | none => rfl
          | some rest' => rfl
        | some chp =>
          dsimp only
          rw [parser14]
          cases hparse : parseCmd w.home (w.answers n) (buf.take chp) s with
          | error trouble => rfl
          | ok r =>
            dsimp only [Except.map]
            cases hact : action r.ret with
            | leave code => rfl
            | refresh => rfl
            | goOn => rfl

theorem bashLoop_outcome {fuel : Nat} (b : Bash) (h : b.input.length < fuel) :
    (bashLoop w fuel b.n b.dir b.shell b.ret b.input).2 =
      ended (runBash w.getcwd (parser14 w) b) := by
  induction fuel generalizing b with
  | zero => exact absurd h (Nat.not_lt_zero _)
  | succ fuel ih =>
    rw [bashLoop_turn]
    cases hturn : bashTurn w.getcwd (parser14 w) b with
    | error e =>
      rw [runBash, loop_of_error hturn]
      rfl
    | ok r =>
      cases r with
      | inl outcome =>
        rw [runBash, loop_of_inl hturn]
        rfl
      | inr b' =>
        rw [runBash, loop_of_inr hturn]
        exact ih b' (Nat.lt_of_lt_of_le (bashTurn_shrinks b b' hturn) (Nat.le_of_lt_succ h))

/-- The session of `LAB_14` ends as the loop of its turns does. -/
theorem pseudoBash_outcome (w : World) (cwd inp : List UInt8) :
    (pseudoBash w cwd inp).2 = ended (pseudoBash14 w cwd inp) :=
  bashLoop_outcome (.start cwd inp) (Nat.lt_succ_self _)

/-! ## 3. Where a turn hangs -/

/-- A line that is not in the buffer ends in what is left of the input. -/
def Bash.LinesEnd (getcwd : Nat → Bool) (b : Bash) : Prop :=
  (b.dir = [] → getcwd b.n = true) →
    ∀ buf rest, fgets (BUFSIZ + 1) b.input = some (buf, rest) → NEWLINE ∉ cstr buf → NEWLINE ∈ rest

theorem mem_cstr_of_head {bs : List UInt8} (h : bs.head? = some NEWLINE) : NEWLINE ∈ cstr bs := by
  cases bs with
  | nil => cases h
  | cons b bs =>
    cases h
    exact List.mem_cons_self

/-- The only call of a turn that does not return is the loop that waits for a newline. -/
theorem bashTurn_error {e : Stop} :
    bashTurn getcwd parse b = .error e ↔ e = .hang ∧ ¬ b.LinesEnd getcwd := by
  unfold bashTurn Bash.LinesEnd
  by_cases hcwd : b.dir = [] ∧ getcwd b.n = false
  · rw [if_pos hcwd]
    refine ⟨nofun, fun h => absurd (fun hdir => ?_) h.2⟩
    rw [hdir hcwd.1] at hcwd
    cases hcwd.2
  · rw [if_neg hcwd]
    have hdir : b.dir = [] → getcwd b.n = true := by
      intro hnil
      by_contra hfails
      exact hcwd ⟨hnil, Bool.eq_false_of_not_eq_true hfails⟩
    dsimp only
    cases hread : fgets (BUFSIZ + 1) b.input with
    | none => simp
    | some r =>
      obtain ⟨buf, rest⟩ := r
      have hlines : (¬ ((b.dir = [] → getcwd b.n = true) → ∀ buf' rest',
          some (buf, rest) = some (buf', rest') → NEWLINE ∉ cstr buf' → NEWLINE ∈ rest')) ↔
            NEWLINE ∉ cstr buf ∧ NEWLINE ∉ rest := by
        constructor
        · intro h
          by_contra hboth
          apply h
          intro _ buf' rest' heq hbuf
          cases heq
          by_contra hrest
          exact hboth ⟨hbuf, hrest⟩
        · intro h hall
          exact h.2 (hall hdir buf rest rfl h.1)
      dsimp only
      rw [hlines]
      by_cases hempty : buf.head? = some NEWLINE
      · rw [if_pos hempty]
        exact ⟨nofun, fun h => absurd (mem_cstr_of_head hempty) h.2.1⟩
      · rw [if_neg hempty]
        cases hchp : memchr (cstr buf) NEWLINE with
        | none =>
          rw [memchr_eq_none] at hchp
          rw [and_iff_right hchp, ← skipLine_eq_none]
          dsimp only
          cases hskip : skipLine rest with
          | none =>
            refine ⟨fun h => ⟨?_, rfl⟩, fun h => by rw [h.1]⟩
            cases h
            rfl
          | some rest' => exact ⟨fun h => (by cases h), fun h => (by cases h.2)⟩
        | some chp =>
          have hmem : ¬ NEWLINE ∉ cstr buf := by
            intro hnot
            rw [memchr_eq_none.mpr hnot] at hchp
            cases hchp
          refine ⟨fun h => ?_, fun h => absurd h.2.1 hmem⟩
          dsimp only at h
          split at h
          · cases h
          · split at h <;> cases h

/-! ## 4. The lines that `parse_cmd` gets through -/

/-- The pipeline is refused, or nothing that is followed for it is missing. -/
def Survives (calls : Calls) (words : List (List UInt8)) : Prop :=
  match Pipeline.parse .pipe7 words with
  | .error e => e ≠ .outOfBounds
  | .ok p => Outlives calls p

/-- `n` turns are done. -/
def GetsThrough (home : Bool) (answers : Nat → Answers) : Nat → List (List UInt8) → Prop
  | _, [] => True
  | n, tok :: toks =>
    match builtin home tok with
    | .exit | .homeMissing => True
    | .cd _ => GetsThrough home answers (n + 1) toks
    | .external cmd =>
      (cmd ≠ [] ∧ strays cmd = hidden cmd) ∧ Survives (answers n).calls (tokens SPACE cmd).1

theorem not_ok_of_error {ε α : Type} {e : ε} : ¬ ∃ r : α, (Except.error e : Except ε α) = .ok r := by
  rintro ⟨r, h⟩
  cases h

theorem pipeline_ok_iff {calls : Calls} {words : List (List UInt8)} {s : Shell} {ret : Int} :
    (∃ r, pipeline calls words s ret = .ok r) ↔ Survives calls words := by
  unfold Survives
  constructor
  · rintro ⟨⟨ret', s'⟩, hpipe⟩
    rcases pipeline_cases hpipe with ⟨e, he, -, -⟩ | ⟨p, hp, ho, -, -⟩
    · rw [he]
      rintro rfl
      unfold pipeline at hpipe
      rw [he] at hpipe
      cases hpipe
    · rw [hp]
      exact ho
  · intro h
    cases hp : Pipeline.parse .pipe7 words with
    | error e =>
      rw [hp] at h
      refine ⟨(ret, s), ?_⟩
      unfold pipeline
      rw [hp]
      cases e with
      | outOfBounds => exact absurd rfl h
      | pipe pipeIdx => rfl
      | redirection mark => rfl
    | ok p =>
      rw [hp] at h
      exact ⟨_, pipeline_of_parse hp h⟩

theorem external_ok_iff {home : Bool} {calls : Calls} {tok cmd : List UInt8} {r : Returned}
    (hb : builtin home tok = .external cmd) :
    (∃ r', external calls cmd r = .ok r') ↔
      (cmd ≠ [] ∧ strays cmd = hidden cmd) ∧ Survives calls (tokens SPACE cmd).1 := by
  rw [← filled_iff_strays hb, filled_iff,
    ← @pipeline_ok_iff calls (tokens SPACE cmd).1 r.shell r.ret, external]
  by_cases hargc : (tokens SPACE cmd).1.length = argCount cmd + 1
  · rw [if_pos hargc, and_iff_right hargc]
    cases pipeline calls (tokens SPACE cmd).1 r.shell r.ret with
    | error trouble => exact iff_of_false not_ok_of_error not_ok_of_error
    | ok next => exact iff_of_true ⟨_, rfl⟩ ⟨next, rfl⟩
  · rw [if_neg hargc]
    exact iff_of_false not_ok_of_error fun h => hargc h.1

theorem parseRun_ok_iff {home : Bool} {answers : Nat → Answers} {n : Nat}
    {toks : List (List UInt8)} {r : Returned} :
    (∃ r', parseRun home answers n toks r = .ok r') ↔ GetsThrough home answers n toks := by
  induction toks generalizing n r with
  | nil => exact iff_of_true ⟨r, rfl⟩ trivial
  | cons tok toks ih =>
    rw [parseRun, GetsThrough]
    cases hb : builtin home tok with
    | exit => exact iff_of_true ⟨_, rfl⟩ trivial
    | homeMissing => exact iff_of_true ⟨_, rfl⟩ trivial
    | cd target =>
      dsimp only
      cases (answers n).chdir target with
      | none => exact ih
      | some cwd => exact ih
    | external cmd => exact external_ok_iff hb

theorem parseCmd_ok_iff {home : Bool} {answers : Nat → Answers} {buf : List UInt8} {s : Shell} :
    (∃ r, parseCmd home answers buf s = .ok r) ↔ GetsThrough home answers 0 (tokens DELIMS buf).1 := by
  rw [parseCmd_eq]
  exact parseRun_ok_iff

/-- `parse_cmd` gets through a line or does not, whatever the shell is like. -/
def IsThrough (parse : Parser) (through : Nat → List UInt8 → Prop) : Prop :=
  ∀ n buf s, (∃ r, parse n buf s = .ok r) ↔ through n buf

theorem isThrough_parser12 (home : Bool) (chdir : Nat → Nat → Target → Option (List UInt8)) :
    IsThrough (parser12 home chdir) fun _ _ => True :=
  fun _ _ _ => iff_of_true ⟨_, rfl⟩ trivial

theorem isThrough_parser14 (w : World) :
    IsThrough (parser14 w) fun n buf => GetsThrough w.home (w.answers n) 0 (tokens DELIMS buf).1 := by
  intro n buf s
  refine Iff.trans ?_ (parseCmd_ok_iff (s := s))
  rw [parser14]
  cases parseCmd w.home (w.answers n) buf s with
  | error trouble => exact iff_of_false not_ok_of_error not_ok_of_error
  | ok r => exact iff_of_true ⟨_, rfl⟩ ⟨r, rfl⟩

/-- A line that is given to `parse_cmd` gets through it. -/
def Bash.Parses (getcwd : Nat → Bool) (through : Nat → List UInt8 → Prop) (b : Bash) : Prop :=
  (b.dir = [] → getcwd b.n = true) →
    ∀ buf rest chp, fgets (BUFSIZ + 1) b.input = some (buf, rest) → buf.head? ≠ some NEWLINE →
      memchr (cstr buf) NEWLINE = some chp → through b.n (buf.take chp)

theorem parses_of_none {through : Nat → List UInt8 → Prop}
    (hread : fgets (BUFSIZ + 1) b.input = none) : b.Parses getcwd through := by
  intro _ buf rest chp hsome
  cases hread.symm.trans hsome

theorem parses_iff_of_read {through : Nat → List UInt8 → Prop} {buf rest : List UInt8}
    (hdir : b.dir = [] → getcwd b.n = true)
    (hread : fgets (BUFSIZ + 1) b.input = some (buf, rest)) :
    b.Parses getcwd through ↔ (buf.head? ≠ some NEWLINE →
      ∀ chp, memchr (cstr buf) NEWLINE = some chp → through b.n (buf.take chp)) := by
  constructor
  · intro h hhead chp hchp
    exact h hdir buf rest chp hread hhead hchp
  · intro h _ buf' rest' chp hread' hhead hchp
    cases hread.symm.trans hread'
    exact h hhead chp hchp

/-- The shell dies in a turn just where the line of the turn does not get through `parse_cmd`. -/
theorem bashTurn_stopped {through : Nat → List UInt8 → Prop} (hthrough : IsThrough parse through) :
    (∃ trouble, bashTurn getcwd parse b = .ok (.inl (.stopped trouble))) ↔
      ¬ b.Parses getcwd through := by
  unfold bashTurn
  by_cases hcwd : b.dir = [] ∧ getcwd b.n = false
  · rw [if_pos hcwd]
    refine iff_of_false (by rintro ⟨_, h⟩; cases h) fun h => h fun hdir => ?_
    rw [hdir hcwd.1] at hcwd
    cases hcwd.2
  · rw [if_neg hcwd]
    have hdir : b.dir = [] → getcwd b.n = true := by
      intro hnil
      by_contra hfails
      exact hcwd ⟨hnil, Bool.eq_false_of_not_eq_true hfails⟩
    dsimp only
    cases hread : fgets (BUFSIZ + 1) b.input with
    | none => exact iff_of_false (by rintro ⟨_, h⟩; cases h) fun h => h (parses_of_none hread)
    | some r =>
      obtain ⟨buf, rest⟩ := r
      rw [parses_iff_of_read hdir hread]
      dsimp only
      by_cases hempty : buf.head? = some NEWLINE
      · rw [if_pos hempty]
        exact iff_of_false (by rintro ⟨_, h⟩; cases h) fun h => h fun hne => absurd hempty hne
      · rw [if_neg hempty]
        cases hchp : memchr (cstr buf) NEWLINE with
        | none =>
          dsimp only
          refine iff_of_false (fun h => ?_) fun h => h fun _ chp hsome => (by cases hsome)
          obtain ⟨trouble, h⟩ := h
          split at h <;> cases h
        | some chp =>
          dsimp only
          have hline : (buf.head? ≠ some NEWLINE → ∀ chp', some chp = some chp' →
              through b.n (buf.take chp')) ↔ ∃ r, parse b.n (buf.take chp) b.shell = .ok r := by
            rw [hthrough]
            refine ⟨fun h => h hempty chp rfl, fun h _ chp' heq => ?_⟩
            cases heq
            exact h
          rw [hline]
          cases parse b.n (buf.take chp) b.shell with
          | error trouble => exact iff_of_true ⟨trouble, rfl⟩ not_ok_of_error
          | ok r =>
            refine iff_of_false (fun h => ?_) fun h => h ⟨r, rfl⟩
            obtain ⟨trouble, h⟩ := h
            dsimp only at h
            split at h <;> cases h

/-! ## 5. The sessions that end -/

/-- The turns of a session that starts in `b`. -/
abbrev Bash.Reached (getcwd : Nat → Bool) (parse : Parser) (b b' : Bash) : Prop :=
  Reaches (nextOf (bashTurn getcwd parse)) (fun _ _ => True) b b'

/-- A session leaves its loop exactly when the lines end in each of its turns. -/
theorem runBash_ends_iff (getcwd : Nat → Bool) (parse : Parser) (b : Bash) :
    (∃ outcome, runBash getcwd parse b = .ok outcome) ↔
      ∀ b', b.Reached getcwd parse b' → b'.LinesEnd getcwd := by
  constructor
  · rintro ⟨outcome, hrun⟩ b' hreached
    by_contra hlines
    have hturn : bashTurn getcwd parse b' = .error .hang := bashTurn_error.mpr ⟨rfl, hlines⟩
    rw [runBash, loop_reaches hreached, loop_of_error hturn] at hrun
    cases hrun
  · intro hlines
    obtain ⟨b', hreached, ⟨e, hturn, -⟩ | ⟨outcome, -, hrun⟩⟩ := loop_last bashTurn_shrinks b
    · exact absurd (hlines b' hreached) (bashTurn_error.mp hturn).2
    · exact ⟨outcome, hrun⟩

theorem reached_suffix (h : b.Reached getcwd parse b') : b'.input <:+ b.input := by
  induction h with
  | start => exact List.suffix_refl _
  | @next t t' i before ok moves ih =>
    obtain ⟨buf, rest, hread, hrest⟩ := input_of_turn (nextOf_eq_some.mp moves)
    have hsuf : rest <:+ t.input := ⟨buf, fgets_append hread⟩
    rcases hrest with hrest | hskip
    · rw [hrest]
      exact hsuf.trans ih
    · exact ((skipLine_suffix hskip).trans hsuf).trans ih

/-- An input without `NUL` that ends with a newline is enough for that. -/
theorem runBash_ends_of_newline (hnul : NUL ∉ b.input)
    (hend : b.input = [] ∨ ∃ init, b.input = init ++ [NEWLINE]) :
    ∃ outcome, runBash getcwd parse b = .ok outcome := by
  rw [runBash_ends_iff]
  intro b' hreached _ buf rest hread hbuf
  have happ := fgets_append hread
  obtain ⟨before, hbefore⟩ := reached_suffix hreached
  have hcstr : cstr buf = buf := cstr_eq_self fun hmem => hnul (by
    rw [← hbefore, ← happ]
    exact List.mem_append_right _ (List.mem_append_left _ hmem))
  rw [hcstr] at hbuf
  have hne : buf ≠ [] := fgets_ne_nil (by decide) hread
  rcases hend with hnil | ⟨init, hinit⟩
  · rw [hnil, ← happ] at hbefore
    simp [hne] at hbefore
  · cases hrest : rest.getLast? with
    | none =>
      -- then the buffer holds the last byte
      rw [List.getLast?_eq_none_iff] at hrest
      rw [hinit, ← happ, hrest, List.append_nil] at hbefore
      have hlast := congrArg List.getLast? hbefore
      rw [List.getLast?_append_of_ne_nil _ hne, List.getLast?_concat] at hlast
      exact absurd (List.mem_of_getLast? hlast) hbuf
    | some c =>
      have hne' : rest ≠ [] := by
        rintro rfl
        cases hrest
      rw [hinit, ← happ, ← List.append_assoc] at hbefore
      have hlast := congrArg List.getLast? hbefore
      rw [List.getLast?_append_of_ne_nil _ hne', List.getLast?_concat] at hlast
      exact List.mem_of_getLast? hlast

/-- A session gets to the end of `pseudo_bash` exactly when in each of its turns the line that is
    thrown away ends, and the one that is not gets through `parse_cmd`. -/
theorem runBash_left_iff {through : Nat → List UInt8 → Prop} (hthrough : IsThrough parse through)
    (getcwd : Nat → Bool) (b : Bash) :
    (∃ ret, runBash getcwd parse b = .ok (.left ret)) ↔
      ∀ b', b.Reached getcwd parse b' → b'.LinesEnd getcwd ∧ b'.Parses getcwd through := by
  constructor
  · rintro ⟨ret, hrun⟩ b' hreached
    refine ⟨(runBash_ends_iff getcwd parse b).mp ⟨_, hrun⟩ b' hreached, ?_⟩
    by_contra hparses
    obtain ⟨trouble, hturn⟩ := (bashTurn_stopped hthrough).mpr hparses
    rw [runBash, loop_reaches hreached, loop_of_inl hturn] at hrun
    cases hrun
  · intro hall
    obtain ⟨b', hreached, ⟨e, hturn, -⟩ | ⟨outcome, hturn, hrun⟩⟩ := loop_last bashTurn_shrinks b
    · exact absurd (hall b' hreached).1 (bashTurn_error.mp hturn).2
    · cases outcome with
      | left ret => exact ⟨ret, hrun⟩
      | stopped trouble =>
        exact absurd (hall b' hreached).2 ((bashTurn_stopped hthrough).mp ⟨trouble, hturn⟩)

/-- No line is a builtin, and `getcwd` succeeds. -/
def plainWorld : World := ⟨true, fun _ => true, fun _ _ => ⟨fun _ => none, fun _ => true,
  fun _ => true, fun _ => some (.exited 0)⟩⟩

-- a line of one blank has no word for its array
example : pseudoBash14 plainWorld (ascii "/") (ascii " \n") = .ok (.stopped .argv) := by decide +kernel

end MiniBash
end Labs
