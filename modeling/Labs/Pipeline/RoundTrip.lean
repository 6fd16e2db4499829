import Labs.Pipeline.Parser
import Labs.Pipeline.Redirections

/-!
# The parser gives back the pipeline

A pipeline is written as `line` has it: the words of a command, its redirections, and a `|` before
every further command. `Built` is what should become of the tokens: as many commands as there are,
each with its words, and all redirections in order, each attached to the first word of its own
command.

The two passes are followed separately. Of the counting pass only the numbers matter, and that the
last operator stands at neither end (`count_spec`). In the filling pass the cursors of a turn are
the place where a command starts: `turn_parts` says what one turn makes of the tokens from there
on, and leaves the cursors at the start of the next one. The owner of a redirection is found by
scanning backwards; between the redirection and the start of its command there is no `|`
(`cntIdx_eq`).

## Two steps to the pipeline

The parser never says which redirection belongs to which command. It counts, then fills `cmds` and
`toFrom` side by side, and an entry of `toFrom` finds its command by an index into `argv`. So the
result is related to the pipeline in two steps. First as data: `cmdsAt` and `toFromAt` say what
stands at which index, with the starts of the commands as the turns reach them (`turns_line`). Then
as what `Built` says, where the only number left is that of a command (`parse_pipeline`); that is
proved by looking a command up in the first (`drop_startAt`, `firstOf_command`).

The three variants differ in where the tokens start and in what passes for a word. Both are
parameters of the lemmas about one turn, so nothing is proved three times.

The last section follows the pointers. What `exec_cmd_list` and `my_pipe` do is stated for a
`CmdCtx`, whose commands are lists of words; that the context of the parsed line is the one of the
pipeline (`parse_line_ctx`) lets those results speak of typed lines.
-/

namespace Labs
namespace Pipeline

open Lib
open MiniBash (PIPE REDIR_INPUT REDIR_OUTPUT)

variable {v : Variant} {argv : List (List UInt8)}

/-- The first byte is no operator; where the shell looks for it, it is not the end either. -/
def Plain (v : Variant) (word : List UInt8) : Prop := isWord v word = true

structure Command.Typed (v : Variant) (c : Command) : Prop where
  words_ne_nil : c.words ≠ []
  words : ∀ w ∈ c.words, Plain v w
  files : ∀ d ∈ c.redirs, Plain v d.2

def markOf : End → List UInt8
  | .READ => [REDIR_INPUT]
  | .WRITE => [REDIR_OUTPUT]

def redirTokens (rs : List (End × List UInt8)) : List (List UInt8) :=
  rs.flatMap fun d => [markOf d.1, d.2]

def Command.tokens (c : Command) : List (List UInt8) := c.words ++ redirTokens c.redirs

/-- Further commands, each behind a `|`. -/
def piped (cs : List Command) : List (List UInt8) := cs.flatMap fun c => [PIPE] :: c.tokens

def line (c : Command) (cs : List Command) : List (List UInt8) := c.tokens ++ piped cs

/-- What stands before the tokens: the name of the program, where there is one. -/
def Variant.lead (v : Variant) (prog : List UInt8) : List (List UInt8) :=
  match v with
  | .pipe7 => []
  | .pipe6 | .pipe5 => [prog]

/-- The parser has built the pipeline `cs` of the tokens `argv`. -/
structure Built (argv : List (List UInt8)) (cs : List Command) (p : Parsed) : Prop where
  cmdNum : p.cmdNum = cs.length
  cmds_length : p.cmds.length = cs.length
  cmds : ∀ (i : Nat) (c : Command), cs[i]? = some c → ∃ ptrs : List Nat,
    p.cmds[i]? = some (some (ptrs.map some ++ [none])) ∧
      ptrs.map (argv[·]?) = c.words.map some
  redirNum : p.redirNum = p.toFrom.length
  toFrom : p.toFrom.map (fun e => (e.direct, e.fileName, some e.cmd)) =
    cs.zipIdx.flatMap fun (c, i) => c.redirs.map fun d => (d.1, d.2, p.firstWord i)

/-! ## 1. Tokens -/

theorem Plain.ne {w : List UInt8} (h : Plain v w) :
    w.headD NUL ≠ PIPE ∧ ¬ IsRedir (w.headD NUL) := by
  simp only [Plain, isWord, Bool.and_eq_true, bne_iff_ne] at h
  obtain ⟨⟨⟨-, hpipe⟩, hin⟩, hout⟩ := h
  refine ⟨hpipe, ?_⟩
  rintro (h | h)
  · exact hin h
  · exact hout h

theorem markOf_headD (e : End) :
    (markOf e).headD NUL ≠ PIPE ∧ IsRedir ((markOf e).headD NUL) := by
  cases e with
  | READ => exact ⟨by decide, .inl rfl⟩
  | WRITE => exact ⟨by decide, .inr rfl⟩

@[simp] theorem redirTokens_nil : redirTokens [] = [] := rfl

@[simp] theorem redirTokens_cons (d : End × List UInt8) (rs : List (End × List UInt8)) :
    redirTokens (d :: rs) = markOf d.1 :: d.2 :: redirTokens rs := rfl

theorem length_redirTokens (rs : List (End × List UInt8)) :
    (redirTokens rs).length = 2 * rs.length := by
  induction rs with
  | nil => rfl
  | cons d rs ih =>
    simp only [redirTokens_cons, List.length_cons, ih]
    omega

theorem Command.length_tokens (c : Command) :
    c.tokens.length = c.words.length + 2 * c.redirs.length := by
  rw [tokens, List.length_append, length_redirTokens]

@[simp] theorem piped_nil : piped [] = [] := rfl

@[simp] theorem piped_cons (c : Command) (cs : List Command) :
    piped (c :: cs) = [PIPE] :: (c.tokens ++ piped cs) := rfl

/-! ## 2. Counting -/

def isPipe (w : List UInt8) : Bool := w.headD NUL = PIPE

def isRedir (w : List UInt8) : Bool := IsRedir (w.headD NUL)

/-- An index that the counting pass leaves: the one it started from, or the place of a token. -/
def Found (p : List UInt8 → Bool) (i : Nat) (words : List (List UInt8)) (old new : Int) : Prop :=
  new = old ∨ ∃ k w, words[k]? = some w ∧ p w = true ∧ new = (i + k : Nat)

theorem Found.cons {p : List UInt8 → Bool} {i : Nat} {w : List UInt8} {words : List (List UInt8)}
    {old mid new : Int} (hmid : mid = old ∨ p w = true ∧ mid = i)
    (h : Found p (i + 1) words mid new) : Found p i (w :: words) old new := by
  rcases h with rfl | ⟨k, w', hw', hp, rfl⟩
  · rcases hmid with rfl | ⟨hp, rfl⟩
    · exact .inl rfl
    · exact .inr ⟨0, w, rfl, hp, rfl⟩
  · exact .inr ⟨k + 1, w', hw', hp, by omega⟩

theorem isPipe_of_isRedir {w : List UInt8} (h : isRedir w = true) : isPipe w = false := by
  simp only [isRedir, isPipe, decide_eq_true_eq, decide_eq_false_iff_not] at h ⊢
  rintro hp
  rw [hp] at h
  rcases h with h | h <;> exact absurd h (by decide)

theorem isRedir_of_isPipe {w : List UInt8} (h : isPipe w = true) : isRedir w = false := by
  refine Bool.eq_false_iff.mpr fun hredir => ?_
  rw [isPipe_of_isRedir hredir] at h
  cases h

theorem count_spec (words : List (List UInt8)) (i : Nat) (m : Marks) :
    (count i words m).pipeNum = m.pipeNum + words.countP isPipe ∧
      (count i words m).redirNum = m.redirNum + words.countP isRedir ∧
      Found isPipe i words m.pipeIdx (count i words m).pipeIdx ∧
      Found isRedir i words m.redirIdx (count i words m).redirIdx := by
  induction words generalizing i m with
  | nil => exact ⟨rfl, rfl, .inl rfl, .inl rfl⟩
  | cons w words ih =>
    obtain ⟨hp, hr, hpi, hri⟩ := ih (i + 1) (mark i w m)
    rw [count, hp, hr, List.countP_cons, List.countP_cons]
    by_cases hpipe : isPipe w = true
    · have hredir := isRedir_of_isPipe hpipe
      have hmark : mark i w m = { m with pipeNum := m.pipeNum + 1, pipeIdx := i } :=
        if_pos (of_decide_eq_true hpipe)
      rw [hmark] at hpi hri ⊢
      refine ⟨?_, ?_, hpi.cons (.inr ⟨hpipe, rfl⟩), hri.cons (.inl rfl)⟩
      · simp [hpipe]; omega
      · simp [hredir]
    · have hne : ¬ w.headD NUL = PIPE := fun h => hpipe (decide_eq_true h)
      by_cases hredir : isRedir w = true
      · have hmark : mark i w m = { m with redirNum := m.redirNum + 1, redirIdx := i } := by
          rw [mark, if_neg hne, if_pos (of_decide_eq_true hredir)]
        rw [hmark] at hpi hri ⊢
        refine ⟨?_, ?_, hpi.cons (.inl rfl), hri.cons (.inr ⟨hredir, rfl⟩)⟩
        · simp [hpipe]
        · simp [hredir]; omega
      · have hmark : mark i w m = m := by
          rw [mark, if_neg hne, if_neg fun h => hredir (decide_eq_true h)]
        rw [hmark] at hpi hri ⊢
        exact ⟨by simp [hpipe], by simp [hredir], hpi.cons (.inl rfl), hri.cons (.inl rfl)⟩

/-! ## 3. The owner of a redirection -/

/-- A command can start at `start`: no token stands before it, or a `|`. -/
def Starts (v : Variant) (argv : List (List UInt8)) (start : Nat) : Prop :=
  start = v.start ∨ ∃ n, start = n + 1 ∧ first argv n = PIPE

theorem first_of_drop {j k : Nat} {ws : List (List UInt8)} (h : argv.drop j = ws) :
    first argv (j + k) = (ws[k]?.getD []).headD NUL := by
  rw [← h, List.getElem?_drop]
  rfl

theorem lt_of_drop {j : Nat} {w : List UInt8} {ws : List (List UInt8)}
    (h : argv.drop j = w :: ws) : j < argv.length := by
  by_contra hle
  rw [List.drop_eq_nil_of_le (Nat.le_of_not_lt hle)] at h
  cases h

theorem exists_drop {j : Nat} (h : j < argv.length) : ∃ w rest, argv.drop j = w :: rest :=
  List.exists_cons_of_ne_nil fun hnil => absurd (List.drop_eq_nil_iff.mp hnil) (Nat.not_le_of_lt h)

theorem cntIdx_eq {n j : Nat} (hle : n ≤ j) (hnot : ∀ i, n < i → i ≤ j → first argv i ≠ PIPE)
    (hn : n = 0 ∨ first argv n = PIPE) : cntIdx argv j = n := by
  induction j with
  | zero => exact (Nat.le_zero.mp hle).symm
  | succ j ih =>
    rw [cntIdx]
    by_cases heq : n = j + 1
    · rw [if_pos]
      · exact heq.symm
      · rw [← heq]
        exact hn.resolve_left (by omega)
    · rw [if_neg (hnot (j + 1) (by omega) (Nat.le_refl _))]
      exact ih (by omega) fun i hi hij => hnot i hi (by omega)

theorem owner_eq {start j : Nat} (hs : Starts v argv start) (hle : start ≤ j)
    (hnot : ∀ i, start ≤ i → i ≤ j → first argv i ≠ PIPE) : owner v argv j = start := by
  rcases hs with rfl | ⟨n, rfl, hn⟩
  · have hcnt : cntIdx argv j = 0 := by
      refine cntIdx_eq (Nat.zero_le _) (fun i hi hij => hnot i ?_ hij) (.inl rfl)
      cases v with
      | pipe7 => exact Nat.zero_le i
      | pipe6 => exact hi
      | pipe5 => exact hi
    unfold owner
    rw [hcnt]
    cases v with
    | pipe7 => exact if_neg (hnot 0 (Nat.le_refl _) (Nat.zero_le _))
    | pipe6 => rfl
    | pipe5 => rfl
  · have hcnt : cntIdx argv j = n :=
      cntIdx_eq (by omega) (fun i hi hij => hnot i hi hij) (.inr hn)
    unfold owner
    rw [hcnt]
    cases v with
    | pipe7 => exact if_pos hn
    | pipe6 => rfl
    | pipe5 => rfl

/-! ## 4. One turn -/

/-- What stands behind the tokens looked at begins with no token that satisfies `p`. -/
def Stops (p : List UInt8 → Prop) (rest : List (List UInt8)) : Prop := ∀ w ∈ rest.head?, ¬ p w

theorem argNum_words {j : Nat} {words rest : List (List UInt8)} (h : argv.drop j = words ++ rest)
    (hwords : ∀ w ∈ words, Plain v w) (hrest : Stops (Plain v) rest) :
    argNum v argv j = words.length := by
  rw [argNum, h, List.takeWhile_append_of_pos hwords]
  cases rest with
  | nil => simp
  | cons w rest => simp [eq_false_of_ne_true (hrest w rfl)]

/-- Operators, each with the token behind it. -/
def pairTokens (ds : List (List UInt8 × List UInt8)) : List (List UInt8) :=
  ds.flatMap fun d => [d.1, d.2]

/-- The tokens of one command: words, and redirections of which none has an operator as its
    argument. -/
structure Parts (v : Variant) (words : List (List UInt8)) (ds : List (List UInt8 × List UInt8)) :
    Prop where
  words_ne_nil : words ≠ []
  words : ∀ w ∈ words, Plain v w
  marks : ∀ d ∈ ds, isRedir d.1 = true
  arguments : ∀ d ∈ ds, isPipe d.2 = false ∧ isRedir d.2 = false

/-- What the loop makes of a redirection. -/
def entryOf (cmd : Nat) (d : List UInt8 × List UInt8) : Entry :=
  { direct := if d.1.headD NUL = REDIR_OUTPUT then .WRITE else .READ, fileName := d.2, cmd }

/-- What the loop makes of the tokens from `j` on, taking two by two. -/
def entriesAt (v : Variant) (argv : List (List UInt8)) :
    Nat → List (List UInt8 × List UInt8) → List Entry
  | _, [] => []
  | j, d :: ds => entryOf (owner v argv j) d :: entriesAt v argv (j + 2) ds

@[simp] theorem pairTokens_nil : pairTokens [] = [] := rfl

theorem length_pairTokens (ds : List (List UInt8 × List UInt8)) :
    (pairTokens ds).length = 2 * ds.length := by
  induction ds with
  | nil => rfl
  | cons d ds ih =>
    show (pairTokens ds).length + 1 + 1 = 2 * (ds.length + 1)
    omega

theorem first_eq {j : Nat} {w : List UInt8} {rest : List (List UInt8)}
    (h : argv.drop j = w :: rest) : first argv j = w.headD NUL := by
  have hfirst : first argv (j + 0) = _ := first_of_drop h
  exact hfirst

theorem drop_add {j n : Nat} {ws rest : List (List UInt8)} (h : argv.drop j = ws ++ rest)
    (hn : ws.length = n) : argv.drop (j + n) = rest := by
  rw [← List.drop_drop, h, List.drop_left' hn]

theorem redirLoop_pairs {redirNum fuel j : Nat} {ds : List (List UInt8 × List UInt8)}
    {rest : List (List UInt8)} {toFrom : List Entry} (hdrop : argv.drop j = pairTokens ds ++ rest)
    (hmarks : ∀ d ∈ ds, isRedir d.1 = true) (hfuel : ds.length ≤ fuel)
    (hroom : toFrom.length + ds.length ≤ redirNum)
    (hrest : Stops (fun w => IsRedir (w.headD NUL)) rest) :
    redirLoop v argv redirNum fuel j toFrom =
      .ok (j + 2 * ds.length, toFrom ++ entriesAt v argv j ds) := by
  induction ds generalizing fuel j toFrom with
  | nil =>
    rw [entriesAt, List.append_nil]
    cases fuel with
    | zero => rfl
    | succ fuel =>
      refine if_neg ?_
      rintro ⟨hlt, hredir⟩
      -- the token at `j` is the first of `rest`
      cases rest with
      | nil =>
        have hnil := List.drop_eq_nil_iff.mp hdrop
        omega
      | cons w rest =>
        rw [first_eq hdrop] at hredir
        exact hrest w rfl hredir
  | cons d ds ih =>
    cases fuel with
    | zero => exact absurd hfuel (Nat.not_succ_le_zero _)
    | succ fuel =>
      have hpair : argv.drop j = d.1 :: d.2 :: (pairTokens ds ++ rest) := hdrop
      have hfile : argv[j + 1]? = some d.2 := by
        rw [← List.getElem?_drop, hpair]
        rfl
      have hnext : argv.drop (j + 2) = pairTokens ds ++ rest :=
        drop_add (show argv.drop j = [d.1, d.2] ++ (pairTokens ds ++ rest) from hpair) rfl
      have hredir : IsRedir (first argv j) := by
        rw [first_eq hpair]
        exact of_decide_eq_true (hmarks d List.mem_cons_self)
      rw [List.length_cons] at hfuel hroom
      rw [redirLoop, if_pos ⟨lt_of_drop hpair, hredir⟩, hfile]
      dsimp only
      rw [if_pos (by omega), first_eq hpair]
      have hroom' : (toFrom ++ [entryOf (owner v argv j) d]).length + ds.length ≤ redirNum := by
        rw [List.length_append, List.length_singleton]
        omega
      have hrun := ih hnext (fun d hd => hmarks d (List.mem_cons_of_mem _ hd))
        (Nat.le_of_succ_le_succ hfuel) hroom'
      refine hrun.trans ?_
      rw [entriesAt, List.append_assoc, List.length_cons, List.singleton_append, Nat.mul_add,
        Nat.add_assoc, Nat.add_comm 2]

theorem entriesAt_eq {j cmd : Nat} {ds : List (List UInt8 × List UInt8)}
    (h : ∀ k < ds.length, owner v argv (j + 2 * k) = cmd) :
    entriesAt v argv j ds = ds.map (entryOf cmd) := by
  induction ds generalizing j with
  | nil => rfl
  | cons d ds ih =>
    have hcmd : owner v argv j = cmd := h 0 (Nat.succ_pos _)
    rw [entriesAt, hcmd, List.map_cons, ih fun k hk => ?_]
    have hk' := h (k + 1) (Nat.succ_lt_succ hk)
    rwa [Nat.mul_add, ← Nat.add_assoc, Nat.add_right_comm] at hk'

/-- A command has no `|` among its tokens. -/
theorem Parts.not_pipe {words : List (List UInt8)} {ds : List (List UInt8 × List UInt8)}
    (h : Parts v words ds) : ∀ w ∈ words ++ pairTokens ds, isPipe w = false := by
  intro w hw
  rcases List.mem_append.mp hw with hw | hw
  · exact decide_eq_false (h.words w hw).ne.1
  · obtain ⟨d, hd, hw⟩ := List.mem_flatMap.mp hw
    simp only [List.mem_cons, List.not_mem_nil, or_false] at hw
    rcases hw with rfl | rfl
    · exact isPipe_of_isRedir (h.marks d hd)
    · exact (h.arguments d hd).1

theorem Parts.owner {start : Nat} {words rest : List (List UInt8)}
    {ds : List (List UInt8 × List UInt8)} (h : Parts v words ds) (hs : Starts v argv start)
    (hdrop : argv.drop start = words ++ (pairTokens ds ++ rest)) :
    ∀ k < ds.length, owner v argv (start + words.length + 2 * k) = start := by
  intro k hk
  refine owner_eq hs (by omega) fun i hi hij => ?_
  obtain ⟨n, rfl⟩ := Nat.exists_eq_add_of_le hi
  have hn : n < (words ++ pairTokens ds).length := by
    rw [List.length_append, length_pairTokens]
    omega
  rw [← List.append_assoc] at hdrop
  rw [first_of_drop hdrop, List.getElem?_append_left hn, List.getElem?_eq_getElem hn]
  exact of_decide_eq_false (h.not_pipe _ (List.getElem_mem hn))

/-- What one turn makes of the tokens of a command, with a `|` behind them or nothing. -/
theorem turn_parts {redirNum start : Nat} {words rest : List (List UInt8)}
    {ds : List (List UInt8 × List UInt8)} {s : Cursor} (h : Parts v words ds)
    (hs : Starts v argv start) (hstart : v.cmdStart s.nextCmdIdx = start)
    (hdrop : argv.drop start = words ++ (pairTokens ds ++ rest))
    (hrest : ∀ w ∈ rest.head?, isPipe w = true) (hroom : s.toFrom.length + ds.length ≤ redirNum) :
    ∃ next, turn v argv redirNum s =
        .ok ⟨next, s.cmds ++ [command start words.length], s.toFrom ++ ds.map (entryOf start)⟩ ∧
      (rest ≠ [] → v.cmdStart next = start + words.length + 2 * ds.length + 1) := by
  -- the token behind the words, if there is one
  have hoper : ∀ w ∈ (pairTokens ds ++ rest).head?,
      w.headD NUL = PIPE ∨ IsRedir (w.headD NUL) := by
    intro w hw
    cases ds with
    | nil => exact .inl (of_decide_eq_true (hrest w hw))
    | cons d ds =>
      cases hw
      exact .inr (of_decide_eq_true (h.marks d List.mem_cons_self))
  have hnum : argNum v argv start = words.length := by
    refine argNum_words hdrop h.words fun w hw hplain => ?_
    exact (hoper w hw).elim (Plain.ne hplain).1 (Plain.ne hplain).2
  have hbehind := drop_add hdrop rfl
  unfold turn
  simp only [hstart, hnum]
  by_cases hop : start + words.length < argv.length ∧
      (first argv (start + words.length) = PIPE ∨ IsRedir (first argv (start + words.length)))
  · rw [if_pos hop]
    have hfuel : ds.length ≤ argv.length := by
      have hlen := congrArg List.length hbehind
      rw [List.length_drop, List.length_append, length_pairTokens] at hlen
      omega
    have hstops : Stops (fun w => IsRedir (w.headD NUL)) rest := fun w hw =>
      of_decide_eq_false (isRedir_of_isPipe (hrest w hw))
    have hloop := redirLoop_pairs (v := v) hbehind h.marks hfuel hroom hstops
    rw [entriesAt_eq (h.owner hs hdrop)] at hloop
    refine ⟨v.nextCmd (start + words.length + 2 * ds.length), ?_, fun _ => ?_⟩
    · rw [hloop]
      rfl
    · cases v <;> rfl
  · rw [if_neg hop]
    -- no operator behind the words: nothing at all
    have hnil : pairTokens ds ++ rest = [] := by
      by_contra hne
      obtain ⟨w, more, hw⟩ := List.exists_cons_of_ne_nil hne
      rw [hw] at hbehind hoper
      refine hop ⟨lt_of_drop hbehind, ?_⟩
      rw [first_eq hbehind]
      exact hoper w rfl
    obtain ⟨hds, rfl⟩ := List.append_eq_nil_iff.mp hnil
    have hlen := congrArg List.length hds
    rw [length_pairTokens] at hlen
    obtain rfl : ds = [] := List.eq_nil_of_length_eq_zero (by simpa using hlen)
    refine ⟨start, ?_, fun hne => absurd rfl hne⟩
    rw [List.map_nil, List.append_nil]
    rfl

/-- The redirections of a command, as they are written. -/
def Command.written (c : Command) : List (List UInt8 × List UInt8) :=
  c.redirs.map fun d => (markOf d.1, d.2)

theorem Command.tokens_eq (c : Command) : c.tokens = c.words ++ pairTokens c.written := by
  rw [tokens, redirTokens, pairTokens, written, List.flatMap_map]

theorem Command.map_written (c : Command) (start : Nat) :
    c.written.map (entryOf start) = c.redirs.map fun d => ⟨d.1, d.2, start⟩ := by
  rw [written, List.map_map]
  refine List.map_congr_left fun d _ => ?_
  obtain ⟨e, file⟩ := d
  cases e with
  | READ => rfl
  | WRITE => rfl

theorem Command.Typed.parts {c : Command} (hc : c.Typed v) : Parts v c.words c.written where
  words_ne_nil := hc.words_ne_nil
  words := hc.words
  marks := List.forall_mem_map.mpr fun d _ => decide_eq_true (markOf_headD d.1).2
  arguments := List.forall_mem_map.mpr fun d hd =>
    ⟨decide_eq_false (hc.files d hd).ne.1, decide_eq_false (hc.files d hd).ne.2⟩

/-- What one turn makes of a command. -/
theorem turn_command {redirNum start : Nat} {c : Command} {cs : List Command} {s : Cursor}
    (hc : c.Typed v) (hs : Starts v argv start) (hstart : v.cmdStart s.nextCmdIdx = start)
    (hdrop : argv.drop start = line c cs) (hroom : s.toFrom.length + c.redirs.length ≤ redirNum) :
    ∃ next, turn v argv redirNum s =
        .ok ⟨next, s.cmds ++ [command start c.words.length],
          s.toFrom ++ c.redirs.map fun d => ⟨d.1, d.2, start⟩⟩ ∧
      (cs ≠ [] → v.cmdStart next = start + c.tokens.length + 1) := by
  have hlen : c.written.length = c.redirs.length := List.length_map _
  have hdrop' : argv.drop start = c.words ++ (pairTokens c.written ++ piped cs) := by
    rw [hdrop, line, c.tokens_eq, List.append_assoc]
  have hrest : ∀ w ∈ (piped cs).head?, isPipe w = true := by
    intro w hw
    cases cs with
    | nil => cases hw
    | cons c cs =>
      cases hw
      rfl
  obtain ⟨next, hturn, hnext⟩ := turn_parts hc.parts hs hstart hdrop' hrest (hlen ▸ hroom)
  refine ⟨next, ?_, fun hne => ?_⟩
  · rw [hturn, c.map_written]
  · rw [hnext, hlen, c.length_tokens, ← Nat.add_assoc]
    obtain ⟨c', cs, rfl⟩ := List.exists_cons_of_ne_nil hne
    exact List.cons_ne_nil _ _

/-! ## 5. All turns -/

/-- Where command `i` of `cs` starts, if the first starts at `start`. -/
def startAt : Nat → List Command → Nat → Nat
  | start, [], _ => start
  | start, _, 0 => start
  | start, c :: cs, i + 1 => startAt (start + c.tokens.length + 1) cs i

def cmdsAt : Nat → List Command → List (Option (List (Option Nat)))
  | _, [] => []
  | start, c :: cs => command start c.words.length :: cmdsAt (start + c.tokens.length + 1) cs

def toFromAt : Nat → List Command → List Entry
  | _, [] => []
  | start, c :: cs =>
    c.redirs.map (fun d => ⟨d.1, d.2, start⟩) ++ toFromAt (start + c.tokens.length + 1) cs

def redirTotal (cs : List Command) : Nat := (cs.map fun c => c.redirs.length).sum

theorem length_toFromAt (start : Nat) (cs : List Command) :
    (toFromAt start cs).length = redirTotal cs := by
  induction cs generalizing start with
  | nil => rfl
  | cons c cs ih => simp [toFromAt, redirTotal, ih]

theorem turns_line {redirNum start : Nat} {c : Command} {cs : List Command} {s : Cursor}
    (htyped : ∀ d ∈ c :: cs, d.Typed v) (hs : Starts v argv start)
    (hstart : v.cmdStart s.nextCmdIdx = start) (hdrop : argv.drop start = line c cs)
    (hroom : s.toFrom.length + redirTotal (c :: cs) ≤ redirNum) :
    ∃ next, turns v argv redirNum (cs.length + 1) s =
      .ok ⟨next, s.cmds ++ cmdsAt start (c :: cs), s.toFrom ++ toFromAt start (c :: cs)⟩ := by
  induction cs generalizing c start s with
  | nil =>
    obtain ⟨next, hturn, -⟩ := turn_command (htyped c List.mem_cons_self) hs hstart hdrop hroom
    refine ⟨next, ?_⟩
    rw [List.length_nil, turns, hturn]
    simp [cmdsAt, toFromAt]
    rfl
  | cons c' cs ih =>
    have hsum : redirTotal (c :: c' :: cs) = c.redirs.length + redirTotal (c' :: cs) := rfl
    have hfits : s.toFrom.length + c.redirs.length ≤ redirNum := by omega
    obtain ⟨next, hturn, hnext⟩ :=
      turn_command (htyped c List.mem_cons_self) hs hstart hdrop hfits
    have hpipe : argv.drop (start + c.tokens.length) = [PIPE] :: line c' cs := by
      rw [← List.drop_drop, hdrop, line, List.drop_left, piped_cons]
      rfl
    have hs' : Starts v argv (start + c.tokens.length + 1) :=
      .inr ⟨_, rfl, first_of_drop (k := 0) hpipe⟩
    have hdrop' : argv.drop (start + c.tokens.length + 1) = line c' cs := by
      rw [← List.drop_drop, hpipe]
      rfl
    obtain ⟨last, hrest⟩ := ih (fun d hd => htyped d (List.mem_cons_of_mem _ hd)) hs'
      (s := ⟨next, s.cmds ++ [command start c.words.length],
        s.toFrom ++ c.redirs.map fun d => ⟨d.1, d.2, start⟩⟩) (hnext (List.cons_ne_nil _ _)) hdrop'
      (by simp only [List.length_append, List.length_map]; omega)
    refine ⟨last, ?_⟩
    rw [List.length_cons, turns, hturn]
    refine hrest.trans ?_
    rw [cmdsAt, toFromAt, List.append_assoc, List.append_assoc]
    rfl

/-! ## 6. The whole line -/

/-- The last token is a word or the name of a file. -/
def EndsPlain (v : Variant) (ws : List (List UInt8)) : Prop :=
  ∃ w, ws.getLast? = some w ∧ Plain v w

theorem EndsPlain.append {ws : List (List UInt8)} (us : List (List UInt8)) (h : EndsPlain v ws) :
    EndsPlain v (us ++ ws) := by
  obtain ⟨w, hw, hplain⟩ := h
  exact ⟨w, by simp [List.getLast?_append, hw], hplain⟩

theorem Command.Typed.endsPlain {c : Command} (hc : c.Typed v) : EndsPlain v c.tokens := by
  rw [Command.tokens]
  rcases List.eq_nil_or_concat c.redirs with hnil | ⟨rs, d, hd⟩
  · rw [hnil, redirTokens_nil, List.append_nil]
    refine ⟨c.words.getLast hc.words_ne_nil, List.getLast?_eq_some_getLast _, ?_⟩
    exact hc.words _ (List.getLast_mem _)
  · have hsplit : redirTokens c.redirs = redirTokens rs ++ ([markOf d.1] ++ [d.2]) := by
      rw [hd]
      simp [redirTokens]
    rw [hsplit]
    refine EndsPlain.append _ (EndsPlain.append _ (EndsPlain.append _ ⟨d.2, rfl, ?_⟩))
    refine hc.files d ?_
    rw [hd]
    simp

theorem endsPlain_line {c : Command} {cs : List Command} (htyped : ∀ d ∈ c :: cs, d.Typed v) :
    EndsPlain v (line c cs) := by
  induction cs generalizing c with
  | nil =>
    rw [line, piped_nil, List.append_nil]
    exact (htyped c List.mem_cons_self).endsPlain
  | cons c' cs ih =>
    have hrest := ih fun d hd => htyped d (List.mem_cons_of_mem _ hd)
    exact (hrest.append [[PIPE]]).append c.tokens

theorem Plain.not_pipe {w : List UInt8} (h : Plain v w) : isPipe w = false :=
  decide_eq_false h.ne.1

theorem Plain.not_redir {w : List UInt8} (h : Plain v w) : isRedir w = false :=
  decide_eq_false h.ne.2

theorem countP_redirTokens {rs : List (End × List UInt8)} (h : ∀ d ∈ rs, Plain v d.2) :
    (redirTokens rs).countP isPipe = 0 ∧ (redirTokens rs).countP isRedir = rs.length := by
  induction rs with
  | nil => exact ⟨rfl, rfl⟩
  | cons d rs ih =>
    obtain ⟨hp, hr⟩ := ih fun d hd => h d (List.mem_cons_of_mem _ hd)
    have hd := h d List.mem_cons_self
    have hmark : isPipe (markOf d.1) = false ∧ isRedir (markOf d.1) = true := by
      cases d.1 <;> exact ⟨rfl, rfl⟩
    rw [redirTokens_cons]
    simp [hp, hr, hmark.1, hmark.2, hd.not_pipe, hd.not_redir]

theorem countP_line {c : Command} {cs : List Command} (htyped : ∀ d ∈ c :: cs, d.Typed v) :
    (line c cs).countP isPipe = cs.length ∧
      (line c cs).countP isRedir = redirTotal (c :: cs) := by
  have hc := htyped c List.mem_cons_self
  have hpw : c.words.countP isPipe = 0 :=
    List.countP_eq_zero.mpr fun w hw => by simp [(hc.words w hw).not_pipe]
  have hrw : c.words.countP isRedir = 0 :=
    List.countP_eq_zero.mpr fun w hw => by simp [(hc.words w hw).not_redir]
  obtain ⟨hp, hr⟩ := countP_redirTokens hc.files
  induction cs generalizing c with
  | nil => simp [line, Command.tokens, redirTotal, hpw, hrw, hp, hr]
  | cons c' cs ih =>
    have hc' := htyped c' (List.mem_cons_of_mem _ List.mem_cons_self)
    obtain ⟨hp', hr'⟩ := countP_redirTokens hc'.files
    obtain ⟨hpl, hrl⟩ := ih (fun d hd => htyped d (List.mem_cons_of_mem _ hd)) hc'
      (List.countP_eq_zero.mpr fun w hw => by simp [(hc'.words w hw).not_pipe])
      (List.countP_eq_zero.mpr fun w hw => by simp [(hc'.words w hw).not_redir]) hp' hr'
    rw [line, piped_cons, Command.tokens]
    simp only [List.countP_append, List.countP_cons, hpw, hrw, hp, hr]
    rw [← List.countP_append, ← List.countP_append]
    have hmark : isPipe [PIPE] = true ∧ isRedir [PIPE] = false := ⟨rfl, rfl⟩
    have hsum : redirTotal (c :: c' :: cs) = c.redirs.length + redirTotal (c' :: cs) := rfl
    have hfold : c'.tokens ++ piped cs = line c' cs := rfl
    simp [hfold, hpl, hrl, hmark.1, hmark.2, hsum]

theorem not_misplaced {p : List UInt8 → Bool} {ws : List (List UInt8)} {w : List UInt8}
    {prog : List UInt8} {idx : Int} (hp : ∀ w, Plain v w → p w = false)
    (hhead : ws.head? = some w) (hw : Plain v w) (hlast : EndsPlain v ws)
    (hidx : Found p v.start ws v.noIdx idx) :
    ¬ Misplaced v (v.lead prog ++ ws).length idx := by
  have hlead : (v.lead prog).length = v.start := by cases v <;> rfl
  have hpos : 0 < ws.length := by
    cases ws with
    | nil => cases hhead
    | cons w ws => exact Nat.succ_pos _
  rw [Misplaced, List.length_append, hlead]
  rcases hidx with rfl | ⟨k, w', hw', hpw, rfl⟩
  · -- no operator of this kind
    cases v <;> simp [Variant.noIdx, Variant.start] <;> omega
  · have hfirst : k ≠ 0 := by
      rintro rfl
      rw [List.head?_eq_getElem?, hw'] at hhead
      cases hhead
      rw [hp _ hw] at hpw
      cases hpw
    have hend : k + 1 ≠ ws.length := by
      intro hk
      obtain ⟨last, hgl, hplain⟩ := hlast
      rw [List.getLast?_eq_getElem?, ← hk, Nat.add_sub_cancel, hw'] at hgl
      cases hgl
      rw [hp _ hplain] at hpw
      cases hpw
    omega

/-- The parser on the tokens of a pipeline. -/
theorem parse_line (prog : List UInt8) {c : Command} {cs : List Command}
    (htyped : ∀ d ∈ c :: cs, d.Typed v) :
    parse v (v.lead prog ++ line c cs) =
      .ok ⟨cmdsAt v.start (c :: cs), toFromAt v.start (c :: cs), cs.length,
        redirTotal (c :: cs)⟩ := by
  have hdrop : (v.lead prog ++ line c cs).drop v.start = line c cs := by cases v <;> rfl
  have hc := htyped c List.mem_cons_self
  obtain ⟨w, words, hwords⟩ := List.exists_cons_of_ne_nil hc.words_ne_nil
  have hhead : (line c cs).head? = some w := by simp [line, Command.tokens, hwords]
  have hw : Plain v w := hc.words w (hwords ▸ List.mem_cons_self)
  have hlast := endsPlain_line htyped
  obtain ⟨hp, hr, hpi, hri⟩ := count_spec (line c cs) v.start ⟨0, 0, v.noIdx, v.noIdx⟩
  obtain ⟨hpipes, hredirs⟩ := countP_line htyped
  rw [hpipes, Nat.zero_add] at hp
  rw [hredirs, Nat.zero_add] at hr
  have hstart : v.cmdStart 0 = v.start := by cases v <;> rfl
  obtain ⟨next, hturns⟩ := turns_line (s := ⟨0, [], []⟩) htyped (.inl rfl) hstart hdrop
    (Nat.le_of_eq (Nat.zero_add _))
  rw [parse, marks, hdrop]
  dsimp only
  rw [if_neg (not_misplaced (fun _ => Plain.not_pipe) hhead hw hlast hpi),
    if_neg (not_misplaced (fun _ => Plain.not_redir) hhead hw hlast hri), hp, hr, hturns]
  rfl

/-! ## 7. What was built -/

theorem map_range'_get {start : Nat} {ws rest : List (List UInt8)}
    (h : argv.drop start = ws ++ rest) :
    (List.range' start ws.length).map (argv[·]?) = ws.map some := by
  induction ws generalizing start with
  | nil => rfl
  | cons w ws ih =>
    have hget : argv[start]? = some w := by
      have h0 := congrArg (fun l => l[0]?) h
      simpa using h0
    have hnext : argv.drop (start + 1) = ws ++ rest := by
      rw [← List.drop_drop, h]
      rfl
    rw [List.length_cons, List.range'_succ, List.map_cons, List.map_cons, hget, ih hnext]

theorem length_cmdsAt (start : Nat) (cs : List Command) :
    (cmdsAt start cs).length = cs.length := by
  induction cs generalizing start with
  | nil => rfl
  | cons c cs ih => rw [cmdsAt, List.length_cons, ih, List.length_cons]

theorem getElem?_cmdsAt {start i : Nat} {c : Command} {cs : List Command} (h : cs[i]? = some c) :
    (cmdsAt start cs)[i]? = some (command (startAt start cs i) c.words.length) := by
  induction cs generalizing start i with
  | nil => cases h
  | cons d cs ih =>
    cases i with
    | zero =>
      cases h
      rfl
    | succ i => exact ih h

theorem command_words {start : Nat} {c : Command} (hc : c.Typed v) :
    command start c.words.length =
      some ((List.range' start c.words.length).map some ++ [none]) :=
  if_pos (List.length_pos_iff.mpr hc.words_ne_nil)

theorem drop_startAt {start i : Nat} {c d : Command} {cs : List Command}
    (hdrop : argv.drop start = line c cs) (h : (c :: cs)[i]? = some d) :
    ∃ rest, argv.drop (startAt start (c :: cs) i) = d.words ++ rest := by
  induction cs generalizing start c i with
  | nil =>
    cases i with
    | zero =>
      obtain rfl : c = d := Option.some.inj h
      exact ⟨redirTokens c.redirs ++ piped [], by rw [← List.append_assoc]; exact hdrop⟩
    | succ i => cases h
  | cons c' cs ih =>
    cases i with
    | zero =>
      obtain rfl : c = d := Option.some.inj h
      exact ⟨redirTokens c.redirs ++ piped (c' :: cs), by rw [← List.append_assoc]; exact hdrop⟩
    | succ i =>
      refine ih ?_ h
      rw [Nat.add_assoc, ← List.drop_drop, hdrop, line, piped_cons, ← List.drop_drop,
        List.drop_left]
      rfl

theorem firstOf_words (start : Nat) {n : Nat} (hn : 0 < n) :
    firstOf (command start n) = some start := by
  obtain ⟨n, rfl⟩ := Nat.exists_eq_add_one.mpr hn
  rw [command, if_pos hn, List.range'_succ]
  rfl

theorem firstOf_command (start : Nat) {c : Command} (hc : c.Typed v) :
    firstOf (command start c.words.length) = some start :=
  firstOf_words start (List.length_pos_iff.mpr hc.words_ne_nil)

theorem toFromAt_eq {start k : Nat} {cs : List Command} {firstWord : Nat → Option Nat}
    (h : ∀ i < cs.length, firstWord (k + i) = some (startAt start cs i)) :
    (toFromAt start cs).map (fun e => (e.direct, e.fileName, some e.cmd)) =
      (cs.zipIdx k).flatMap fun (c, i) => c.redirs.map fun d => (d.1, d.2, firstWord i) := by
  induction cs generalizing start k with
  | nil => rfl
  | cons c cs ih =>
    have hhead : firstWord k = some start := h 0 (Nat.succ_pos _)
    have htail : ∀ i < cs.length, firstWord (k + 1 + i) =
        some (startAt (start + c.tokens.length + 1) cs i) := by
      intro i hi
      have hsum : k + 1 + i = k + (i + 1) := by omega
      rw [hsum]
      exact h (i + 1) (Nat.succ_lt_succ hi)
    rw [toFromAt, List.map_append, ih htail, List.zipIdx_cons, List.flatMap_cons, List.map_map]
    dsimp only
    rw [hhead]
    rfl

/-- **The parser round trip**: of the tokens of a pipeline `main` builds that pipeline. -/
theorem parse_pipeline (prog : List UInt8) (c : Command) (cs : List Command)
    (htyped : ∀ d ∈ c :: cs, d.Typed .pipe6) :
    ∃ p, parse .pipe6 (prog :: line c cs) = .ok p ∧ Built (prog :: line c cs) (c :: cs) p := by
  refine ⟨_, parse_line prog htyped, rfl, length_cmdsAt 1 (c :: cs), ?_,
    (length_toFromAt 1 (c :: cs)).symm, toFromAt_eq fun i hi => ?_⟩
  · intro i d hd
    have hdrop : (prog :: line c cs).drop 1 = line c cs := rfl
    obtain ⟨rest, hrest⟩ := drop_startAt hdrop hd
    refine ⟨List.range' (startAt 1 (c :: cs) i) d.words.length, ?_, map_range'_get hrest⟩
    rw [← command_words (htyped d (List.mem_of_getElem? hd))]
    exact getElem?_cmdsAt hd
  · rw [Nat.zero_add, Parsed.firstWord, getElem?_cmdsAt (List.getElem?_eq_getElem hi)]
    exact firstOf_command _ (htyped _ (List.getElem_mem hi))

/-- `a b < i`. -/
def typedCommand : Command := ⟨[ascii "a", ascii "b"], [(.READ, ascii "i")]⟩

/-- `c > o > p`. -/
def typedSecond : Command := ⟨[ascii "c"], [(.WRITE, ascii "o"), (.WRITE, ascii "p")]⟩

theorem typed_commands : ∀ d ∈ [typedCommand, typedSecond], d.Typed .pipe6 := by
  intro d hd
  simp only [List.mem_cons, List.not_mem_nil, or_false] at hd
  rcases hd with rfl | rfl
  · exact ⟨by decide, by unfold Plain; decide, by unfold Plain; decide⟩
  · exact ⟨by decide, by unfold Plain; decide, by unfold Plain; decide⟩

theorem parse_pipeline_two :
    ∃ p, parse .pipe6 (ascii "pipe6" :: line typedCommand [typedSecond]) = .ok p ∧
      Built (ascii "pipe6" :: line typedCommand [typedSecond]) [typedCommand, typedSecond] p :=
  parse_pipeline _ _ _ typed_commands

/-! ## 8. The context of the loop that forks -/

/-- The number of the command whose first word is at `ptr`. -/
def numberOf (cmds : List (Option (List (Option Nat)))) (ptr : Nat) : Nat :=
  cmds.findIdx fun cmd => firstOf cmd = some ptr

/-- What `exec_cmd_list` and `my_pipe` are given, with pointers followed. -/
def Parsed.ctx (argv : List (List UInt8)) (p : Parsed) : CmdCtx where
  cmds i := (p.cmds[i]?.join.getD []).filterMap fun ptr => ptr.bind (argv[·]?)
  toFrom := p.toFrom.map fun e => ⟨numberOf p.cmds e.cmd, e.direct, e.fileName⟩
  pipeNum := p.pipeNum

theorem le_startAt (start : Nat) (cs : List Command) (i : Nat) : start ≤ startAt start cs i := by
  induction cs generalizing start i with
  | nil =>
    cases i <;> exact Nat.le_refl _
  | cons c cs ih =>
    cases i with
    | zero => exact Nat.le_refl _
    | succ i =>
      have hrest := ih (start + c.tokens.length + 1) i
      rw [startAt]
      omega

theorem numberOf_startAt (start : Nat) {i : Nat} {cs : List Command} (htyped : ∀ d ∈ cs, d.Typed v)
    (hi : i < cs.length) : numberOf (cmdsAt start cs) (startAt start cs i) = i := by
  induction cs generalizing start i with
  | nil => exact absurd hi (Nat.not_lt_zero _)
  | cons c cs ih =>
    have hhead := firstOf_command start (htyped c List.mem_cons_self)
    rw [cmdsAt, numberOf, List.findIdx_cons, hhead]
    cases i with
    | zero => simp [startAt]
    | succ i =>
      have hlt := le_startAt (start + c.tokens.length + 1) cs i
      have hne : start ≠ startAt (start + c.tokens.length + 1) cs i := by omega
      have hrest := ih (start + c.tokens.length + 1)
        (fun d hd => htyped d (List.mem_cons_of_mem _ hd)) (Nat.lt_of_succ_lt_succ hi)
      simp only [startAt, Option.some.injEq, hne, decide_false]
      exact congrArg (· + 1) hrest

theorem toFromAt_number {start n : Nat} {cs : List Command} {number : Nat → Nat}
    (h : ∀ i < cs.length, number (startAt start cs i) = n + i) :
    (toFromAt start cs).map (fun e => (⟨number e.cmd, e.direct, e.fileName⟩ : Redir)) =
      toFromOf n cs := by
  induction cs generalizing start n with
  | nil => rfl
  | cons c cs ih =>
    have hhead : number start = n := h 0 (Nat.succ_pos _)
    have htail : ∀ i < cs.length,
        number (startAt (start + c.tokens.length + 1) cs i) = n + 1 + i := by
      intro i hi
      have hsum : n + 1 + i = n + (i + 1) := by omega
      rw [hsum]
      exact h (i + 1) (Nat.succ_lt_succ hi)
    rw [toFromAt, List.map_append, ih htail, List.map_map, toFromOf]
    simp [Function.comp_def, hhead]

theorem filterMap_of_map {α β : Type} {f : α → Option β} {xs : List α} {ys : List β}
    (h : xs.map f = ys.map some) : xs.filterMap f = ys := by
  have hid : xs.filterMap f = (xs.map f).filterMap id := by
    rw [List.filterMap_map]
    rfl
  rw [hid, h, List.filterMap_map]
  exact List.filterMap_some

/-- **What the parser makes of a pipeline is the context of that pipeline.** -/
theorem parse_line_ctx (prog : List UInt8) {c : Command} {cs : List Command}
    (htyped : ∀ d ∈ c :: cs, d.Typed v) :
    (parse v (v.lead prog ++ line c cs)).map (Parsed.ctx (v.lead prog ++ line c cs)) =
      .ok (ctxOf c cs) := by
  have hdrop : (v.lead prog ++ line c cs).drop v.start = line c cs := by cases v <;> rfl
  rw [parse_line prog htyped]
  refine congrArg Except.ok ?_
  unfold Parsed.ctx ctxOf
  congr 1
  · funext i
    cases hi : (c :: cs)[i]? with
    | none =>
      have hnone : (cmdsAt v.start (c :: cs))[i]? = none := by
        rw [List.getElem?_eq_none_iff] at hi ⊢
        rwa [length_cmdsAt]
      rw [hnone]
      rfl
    | some d =>
      have hd := htyped d (List.mem_of_getElem? hi)
      obtain ⟨rest, hrest⟩ := drop_startAt hdrop hi
      have hmap := map_range'_get hrest
      rw [getElem?_cmdsAt hi, command_words hd]
      show ((List.range' (startAt v.start (c :: cs) i) d.words.length).map some ++
        [none]).filterMap _ = d.words
      rw [List.filterMap_append, List.filterMap_map]
      exact (List.append_nil _).trans (filterMap_of_map hmap)
  · refine toFromAt_number fun i hi => ?_
    rw [Nat.zero_add]
    exact numberOf_startAt _ htyped hi

end Pipeline
end Labs
