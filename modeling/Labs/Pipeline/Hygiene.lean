import Labs.Pipeline.Spawn

/-!
# Who holds which end of which pipe

The parent's table is its table at the call, `base`, and beside it the pipe ends it still has.
`Carries` says what these are at the head of pass `i`: nothing, or the read end of the pipe before.
`Ports` says it at `fork`, in the four positions a command can have: the only one, the first, one
in the middle, the last. From there a child is followed stage by stage. Each stage has one lemma,
by cases of `Ports`, that says what becomes of the standard descriptors (a change of `base`) and of
the pipe ends (`closeEnds` takes all of them away); files a child has opened stand in front and do
not matter.

Where the ends go is `wired`: standard input from the pipe before, standard output into the pipe
behind. Without redirections a child's table at `execvp` is `wired` exactly, and the parent's
behind the loop is `base`.

## Tables, bases and ends

A table of descriptors is a function with a bound, and the lowest free number is what `open`, `dup`
and `pipe` return. Following numbers through a loop would be hopeless, so tables are taken apart: a
`base`, which is what the process had before, and a short list of the pipe ends beside it.
`Lib.Descriptors` has the rules for such lists. The numbers themselves never matter, except that 0
and 1 are taken.

Freshness is a property of the allocation (`Alloc`), not of a particular one, so what is proved
holds for every way in which the system hands out numbers.

The four positions of `Ports` differ in which ends exist, and every stage of the child has a lemma
by cases of `Ports`. From then on the cases are gone: what a child has at `execvp` is `wired`, as a
function of its number. The redirections of a command come later, as a change of the base
(`Redirections`), and the stages here are stated with a list of opened files in front so that they
can be used there.
-/

namespace Labs
namespace Pipeline

open Lib

variable {v : Variant} {sys : Sys} {ctx : CmdCtx} {base : Nat → Option Desc} {i : Nat}
  {s : Shell} {p : Proc} {l fs : List (Nat × Desc)}

/-- The pipe ends of the parent at `fork` of command `i`. -/
inductive Ports (ctx : CmdCtx) (s : Shell) : Nat → List (Nat × Desc) → Prop
  | only : ctx.pipeNum = 0 → s.pipeIdx = 0 → Ports ctx s 0 []
  | first {r w : Nat} : 0 < ctx.pipeNum → s.pipeIdx = 0 → s.pipeList 0 = ⟨some r, some w⟩ →
      Ports ctx s 0 [(w, .pipeEnd 0 .WRITE), (r, .pipeEnd 0 .READ)]
  | middle {j q r w : Nat} : j + 1 < ctx.pipeNum → s.pipeIdx = j + 1 →
      s.pipeList j = ⟨some q, none⟩ → s.pipeList (j + 1) = ⟨some r, some w⟩ →
      Ports ctx s (j + 1)
        [(w, .pipeEnd (j + 1) .WRITE), (r, .pipeEnd (j + 1) .READ), (q, .pipeEnd j .READ)]
  | last {j q : Nat} : j + 1 = ctx.pipeNum → s.pipeIdx = j + 1 → s.pipeList j = ⟨some q, none⟩ →
      Ports ctx s (j + 1) [(q, .pipeEnd j .READ)]

/-- The pipe ends of the parent at the head of pass `i`. -/
inductive Carries (ctx : CmdCtx) (s : Shell) : Nat → List (Nat × Desc) → Prop
  | start : s.pipeIdx = 0 → Carries ctx s 0 []
  | read {j q : Nat} : j < ctx.pipeNum → s.pipeIdx = j + 1 → s.pipeList j = ⟨some q, none⟩ →
      Carries ctx s (j + 1) [(q, .pipeEnd j .READ)]
  | done : Carries ctx s (ctx.pipeNum + 1) []

/-! ## 1. The wiring -/

def stdinOf (base : Nat → Option Desc) (i : Nat) : Option Desc :=
  if i = 0 then base 0 else some (.pipeEnd (i - 1) .READ)

def stdoutOf (ctx : CmdCtx) (base : Nat → Option Desc) (i : Nat) : Option Desc :=
  if i < ctx.pipeNum then some (.pipeEnd i .WRITE) else base 1

/-- Command `i` reads from the pipe before it and writes to the one behind it. -/
def wired (ctx : CmdCtx) (base : Nat → Option Desc) (i : Nat) : Nat → Option Desc :=
  Function.update (Function.update base 0 (stdinOf base i)) 1 (stdoutOf ctx base i)

/-- The base behind the first `dup2`. -/
def afterPrev (ctx : CmdCtx) (i : Nat) (base : Nat → Option Desc) : Nat → Option Desc :=
  if ctx.pipeNum = 0 then base
  else if i = 0 then Function.update base 1 (some (.pipeEnd 0 .WRITE))
  else Function.update base 0 (some (.pipeEnd (i - 1) .READ))

/-- The base behind the `dup2` of a middle command. -/
def afterMiddle (ctx : CmdCtx) (i : Nat) (base : Nat → Option Desc) : Nat → Option Desc :=
  if 0 < i ∧ i < ctx.pipeNum then Function.update base 1 (some (.pipeEnd i .WRITE)) else base

theorem afterMiddle_afterPrev (base : Nat → Option Desc) (hi : i ≤ ctx.pipeNum) :
    afterMiddle ctx i (afterPrev ctx i base) = wired ctx base i := by
  unfold afterMiddle afterPrev wired stdinOf stdoutOf
  cases i with
  | zero =>
    have hfirst : ¬ (0 < 0 ∧ 0 < ctx.pipeNum) := fun h => Nat.lt_irrefl 0 h.1
    rw [if_neg hfirst, if_pos rfl, if_pos rfl, Function.update_eq_self]
    by_cases hn : ctx.pipeNum = 0
    · rw [if_pos hn, hn, if_neg (Nat.lt_irrefl 0), Function.update_eq_self]
    · rw [if_neg hn, if_pos (Nat.pos_of_ne_zero hn)]
  | succ j =>
    have hn : ctx.pipeNum ≠ 0 := Nat.ne_of_gt (Nat.lt_of_lt_of_le (Nat.succ_pos j) hi)
    rw [if_neg hn, if_neg (Nat.succ_ne_zero j), if_neg (Nat.succ_ne_zero j)]
    by_cases hj : j + 1 < ctx.pipeNum
    · rw [if_pos ⟨Nat.succ_pos j, hj⟩, if_pos hj]
    · have h1 : base 1 = Function.update base 0 (some (.pipeEnd (j + 1 - 1) .READ)) 1 := by
        rw [Function.update_of_ne (by decide)]
      have hlast : ¬ (0 < j + 1 ∧ j + 1 < ctx.pipeNum) := fun h => hj h.2
      rw [if_neg hlast, if_neg hj, h1, Function.update_eq_self]

/-! ## 2. The stages of a child -/

theorem dup2_spec (l₁ : List (Nat × Desc)) {l₂ : List (Nat × Desc)} {k : Nat} {d : Desc}
    (h : Extends p.fds base (l₁ ++ (k, d) :: l₂)) (e : End) :
    ∃ p', dup2 p (some k) e.fileno = .ok p' ∧ p'.opened = p.opened ∧
      Extends p'.fds (Function.update base e.fileno (some d)) (l₁ ++ (k, d) :: l₂) := by
  have he : e.fileno ≤ 2 := by cases e <;> decide
  obtain ⟨t, ht, hext⟩ := h.dup2 he
  exact ⟨⟨t, p.opened⟩, by rw [dup2, ht], rfl, hext⟩

theorem close_spec {l₁ l₂ : List (Nat × Desc)} {k : Nat} {d : Desc}
    (h : Extends p.fds base (l₁ ++ (k, d) :: l₂)) :
    ∃ p', close p (some k) = .ok p' ∧ p'.opened = p.opened ∧ Extends p'.fds base (l₁ ++ l₂) := by
  obtain ⟨t, ht, hext⟩ := h.close
  exact ⟨⟨t, p.opened⟩, by rw [close, ht], rfl, hext⟩

theorem positive_of_extends {t : Table Desc} {l₁ l₂ : List (Nat × Desc)} {k : Nat} {d : Desc}
    (h : Extends t base (l₁ ++ (k, d) :: l₂)) : Fd.positive (some k) :=
  Nat.lt_trans (by decide) (h.high (k, d) (by simp))

theorem not_positive_none : ¬ Fd.positive none := by decide

/-- The first `dup2`, as `my_pipe` makes it. -/
theorem dupSide_spec (hp : Ports ctx s i l) (hn : 0 < ctx.pipeNum)
    (h : Extends p.fds base (fs ++ l)) :
    ∃ p', dup2 p ((s.pipeList s.prevPipeIdx).at (pipeSide s)) (pipeSide s).fileno = .ok p' ∧
      p'.opened = p.opened ∧ Extends p'.fds (afterPrev ctx i base) (fs ++ l) ∧
      Fd.positive ((s.pipeList s.prevPipeIdx).at (pipeSide s)) := by
  have hne : ctx.pipeNum ≠ 0 := Nat.ne_of_gt hn
  cases hp with
  | only h0 => exact absurd h0 hne
  | first _ hidx hl =>
    rw [Shell.prevPipeIdx, pipeSide, hidx, hl, afterPrev, if_neg hne, if_pos rfl]
    obtain ⟨p', hd, ho, hext⟩ := dup2_spec fs h .WRITE
    exact ⟨p', hd, ho, hext, positive_of_extends h⟩
  | @middle j q r w _ hidx hl _ =>
    rw [Shell.prevPipeIdx, pipeSide, hidx, if_pos (Nat.succ_pos j), Nat.add_sub_cancel, hl,
      afterPrev, if_neg hne, if_neg (Nat.succ_ne_zero j), Nat.add_sub_cancel]
    have h' : Extends p.fds base ((fs ++ [(w, .pipeEnd (j + 1) .WRITE),
        (r, .pipeEnd (j + 1) .READ)]) ++ (q, .pipeEnd j .READ) :: []) := by simpa using h
    obtain ⟨p', hd, ho, hext⟩ := dup2_spec _ h' .READ
    have hl' : (fs ++ [(w, .pipeEnd (j + 1) .WRITE), (r, .pipeEnd (j + 1) .READ)]) ++
        (q, .pipeEnd j .READ) :: [] = fs ++ [(w, .pipeEnd (j + 1) .WRITE),
        (r, .pipeEnd (j + 1) .READ), (q, .pipeEnd j .READ)] := by simp
    exact ⟨p', hd, ho, hl' ▸ hext, positive_of_extends h'⟩
  | @last j q _ hidx hl =>
    rw [Shell.prevPipeIdx, pipeSide, hidx, if_pos (Nat.succ_pos j), Nat.add_sub_cancel, hl,
      afterPrev, if_neg hne, if_neg (Nat.succ_ne_zero j), Nat.add_sub_cancel]
    obtain ⟨p', hd, ho, hext⟩ := dup2_spec fs h .READ
    exact ⟨p', hd, ho, hext, positive_of_extends h⟩

theorem dupPrev_spec (fs : List (Nat × Desc)) (hp : Ports ctx s i l) (h : Extends p.fds base (fs ++ l)) :
    ∃ p', dupPrev ctx s p = .ok p' ∧ p'.opened = p.opened ∧
      Extends p'.fds (afterPrev ctx i base) (fs ++ l) := by
  unfold dupPrev
  by_cases hn : 0 < ctx.pipeNum
  · obtain ⟨p', hd, ho, hext, hpos⟩ := dupSide_spec hp hn h
    exact ⟨p', by rw [if_pos ⟨hn, hpos⟩, hd], ho, hext⟩
  · refine ⟨p, if_neg fun hc => hn hc.1, rfl, ?_⟩
    rwa [afterPrev, if_pos (Nat.eq_zero_of_not_pos hn)]

/-- Only a middle command passes the test for one. -/
theorem Ports.middle_iff (hp : Ports ctx s i l) : Middle ctx s ↔ 0 < i ∧ i < ctx.pipeNum := by
  unfold Middle
  cases hp with
  | only _ hidx => rw [hidx]
  | first _ hidx _ => rw [hidx]
  | middle _ hidx _ _ => rw [hidx]
  | last _ hidx _ => rw [hidx]

theorem dupMiddle_spec (fs : List (Nat × Desc)) (hp : Ports ctx s i l) (h : Extends p.fds base (fs ++ l)) :
    ∃ p', dupMiddle ctx s p = .ok p' ∧ p'.opened = p.opened ∧
      Extends p'.fds (afterMiddle ctx i base) (fs ++ l) := by
  unfold dupMiddle afterMiddle
  by_cases hm : 0 < i ∧ i < ctx.pipeNum
  · rw [if_pos (hp.middle_iff.mpr hm), if_pos hm]
    cases hp with
    | only => exact absurd hm.1 (Nat.lt_irrefl 0)
    | first => exact absurd hm.1 (Nat.lt_irrefl 0)
    | middle _ hidx _ hl =>
      rw [hidx, hl]
      exact dup2_spec fs h .WRITE
    | last hj => exact absurd hj (Nat.ne_of_lt hm.2)
  · rw [if_neg fun hc => hm (hp.middle_iff.mp hc), if_neg hm]
    exact ⟨p, rfl, rfl, h⟩

/-- All pipe ends are closed, and none twice. -/
theorem closeEnds_spec (fs : List (Nat × Desc)) (hp : Ports ctx s i l) (h : Extends p.fds base (fs ++ l)) :
    ∃ p', closeEnds ctx s p = .ok p' ∧ p'.opened = p.opened ∧ Extends p'.fds base fs := by
  have hmid := hp.middle_iff
  cases hp with
  | only h0 hidx =>
    have h₁ : closePrevWrite ctx s p = .ok p := if_neg (by simp [h0])
    have h₂ : closePrevRead ctx s p = .ok p := if_neg (by simp [h0])
    have h₃ : closeOwn ctx s p = .ok p := if_neg fun hm => Nat.lt_irrefl 0 (hmid.mp hm).1
    refine ⟨p, ?_, rfl, by simpa using h⟩
    rw [closeEnds, h₁]
    show (closePrevRead ctx s p >>= _) = _
    rw [h₂]
    exact h₃
  | @first r w hn hidx hl =>
    obtain ⟨p₁, hc₁, ho₁, hx₁⟩ := close_spec h
    obtain ⟨p₂, hc₂, ho₂, hx₂⟩ := close_spec hx₁
    have h₁ : closePrevWrite ctx s p = .ok p₁ := by
      rw [closePrevWrite, Shell.prevPipeIdx, hidx, hl]
      exact (if_pos ⟨hn, positive_of_extends h⟩).trans hc₁
    have h₂ : closePrevRead ctx s p₁ = .ok p₂ := by
      rw [closePrevRead, Shell.prevPipeIdx, hidx, hl]
      exact (if_pos hn).trans hc₂
    have h₃ : closeOwn ctx s p₂ = .ok p₂ := if_neg fun hm => Nat.lt_irrefl 0 (hmid.mp hm).1
    refine ⟨p₂, ?_, ho₂.trans ho₁, by simpa using hx₂⟩
    rw [closeEnds, h₁]
    show (closePrevRead ctx s p₁ >>= _) = _
    rw [h₂]
    exact h₃
  | @middle j q r w hj hidx hl hl' =>
    have hn : 0 < ctx.pipeNum := Nat.lt_trans (Nat.succ_pos j) hj
    have h' : Extends p.fds base ((fs ++ [(w, .pipeEnd (j + 1) .WRITE),
        (r, .pipeEnd (j + 1) .READ)]) ++ (q, .pipeEnd j .READ) :: []) := by simpa using h
    obtain ⟨p₁, hc₁, ho₁, hx₁⟩ := close_spec h'
    have hx₁' : Extends p₁.fds base (fs ++ (w, .pipeEnd (j + 1) .WRITE) ::
        [(r, .pipeEnd (j + 1) .READ)]) := by simpa using hx₁
    obtain ⟨p₂, hc₂, ho₂, hx₂⟩ := close_spec hx₁'
    obtain ⟨p₃, hc₃, ho₃, hx₃⟩ := close_spec hx₂
    have h₁ : closePrevWrite ctx s p = .ok p := by
      rw [closePrevWrite, Shell.prevPipeIdx, hidx, Nat.add_sub_cancel, hl]
      exact if_neg fun hc => absurd hc.2 not_positive_none
    have h₂ : closePrevRead ctx s p = .ok p₁ := by
      rw [closePrevRead, Shell.prevPipeIdx, hidx, Nat.add_sub_cancel, hl]
      exact (if_pos hn).trans hc₁
    have h₃ : closeOwn ctx s p₁ = .ok p₃ := by
      rw [closeOwn, if_pos (hmid.mpr ⟨Nat.succ_pos j, hj⟩), hidx, hl']
      show (close p₁ (some w) >>= _) = _
      rw [hc₂]
      exact hc₃
    refine ⟨p₃, ?_, ho₃.trans (ho₂.trans ho₁), by simpa using hx₃⟩
    rw [closeEnds, h₁]
    show (closePrevRead ctx s p >>= _) = _
    rw [h₂]
    exact h₃
  | @last j q hj hidx hl =>
    have hn : 0 < ctx.pipeNum := hj ▸ Nat.succ_pos j
    obtain ⟨p₁, hc₁, ho₁, hx₁⟩ := close_spec h
    have h₁ : closePrevWrite ctx s p = .ok p := by
      rw [closePrevWrite, Shell.prevPipeIdx, hidx, Nat.add_sub_cancel, hl]
      exact if_neg fun hc => absurd hc.2 not_positive_none
    have h₂ : closePrevRead ctx s p = .ok p₁ := by
      rw [closePrevRead, Shell.prevPipeIdx, hidx, Nat.add_sub_cancel, hl]
      exact (if_pos hn).trans hc₁
    have h₃ : closeOwn ctx s p₁ = .ok p₁ := if_neg fun hm => absurd hj (Nat.ne_of_lt (hmid.mp hm).2)
    refine ⟨p₁, ?_, ho₁, by simpa using hx₁⟩
    rw [closeEnds, h₁]
    show (closePrevRead ctx s p >>= _) = _
    rw [h₂]
    exact h₃

/-! ## 3. The passes of the parent -/

theorem makePipe_spec (alloc : Alloc Desc) (hc : Carries ctx s i l) (hi : i ≤ ctx.pipeNum)
    (hext : Extends s.fds base l) :
    ∃ s' l', makePipe (.ok alloc) ctx s = some s' ∧ s'.redirIdx = s.redirIdx ∧
      Ports ctx s' i l' ∧ Extends s'.fds base l' := by
  have hopen := (hext.openFile alloc (.pipeEnd s.pipeIdx .READ)).openFile alloc
    (.pipeEnd s.pipeIdx .WRITE)
  unfold makePipe
  cases hc with
  | start hidx =>
    by_cases hn : 0 < ctx.pipeNum
    · rw [hidx] at hopen ⊢
      rw [if_pos hn]
      refine ⟨_, _, rfl, rfl, .first hn rfl ?_, hopen⟩
      show Function.update s.pipeList 0 _ 0 = _
      exact Function.update_self ..
    · rw [hidx, if_neg hn]
      exact ⟨s, [], rfl, rfl, .only (Nat.eq_zero_of_not_pos hn) hidx, hext⟩
  | @read j q hj hidx hl =>
    rcases Nat.lt_or_eq_of_le hi with hlt | heq
    · rw [hidx] at hopen ⊢
      rw [if_pos hlt]
      refine ⟨_, _, rfl, rfl, .middle hlt rfl ?_ ?_, hopen⟩
      · exact (Function.update_of_ne (Nat.ne_of_lt (Nat.lt_succ_self j)) _ _).trans hl
      · show Function.update s.pipeList (j + 1) _ (j + 1) = _
        exact Function.update_self ..
    · rw [hidx, if_neg (Nat.not_lt.mpr (Nat.le_of_eq heq.symm))]
      exact ⟨s, _, rfl, rfl, .last heq hidx hl, hext⟩
  | done => exact absurd hi (Nat.not_succ_le_self _)

theorem closeAnyway_spec {t : Table Desc} (l₁ : List (Nat × Desc)) {l₂ : List (Nat × Desc)} {k : Nat} {d : Desc}
    (h : Extends t base (l₁ ++ (k, d) :: l₂)) :
    Extends (closeAnyway t (some k)) base (l₁ ++ l₂) := by
  obtain ⟨t', ht, hext⟩ := h.close
  rwa [closeAnyway, ht]

/-- What is left of a pass: the read end of the pipe made in it, for the next command. -/
theorem parentPass_spec (v : Variant) (hp : Ports ctx s i l) (hext : Extends s.fds base l) :
    ∃ l', Carries ctx (parentPass v ctx i s) (i + 1) l' ∧
      Extends (parentPass v ctx i s).fds base l' := by
  unfold parentPass
  cases hp with
  | only h0 hidx =>
    rw [if_neg (by simp [h0])]
    refine ⟨[], ?_, hext⟩
    have hdone : Carries ctx { s with redirIdx := v.nextRedir ctx s.redirIdx 0 }
        (ctx.pipeNum + 1) [] := .done
    rwa [h0] at hdone
  | @first r w hn hidx hl =>
    have hw : closeWrite ctx s = { s with
        fds := closeAnyway s.fds (some w)
        pipeList := Function.update s.pipeList 0 ⟨some r, none⟩ } := by
      rw [closeWrite, hidx, if_pos hn, hl]
    have hprev : ¬ v.closesPrev ctx (closeWrite ctx s) := by
      rw [hw]
      exact fun hc => absurd hc.1 (by simp [hidx])
    rw [if_pos hn, closePrev, if_neg hprev, hw]
    refine ⟨[(r, .pipeEnd 0 .READ)], .read hn ?_ ?_, ?_⟩
    · exact congrArg (· + 1) hidx
    · show Function.update s.pipeList 0 _ 0 = _
      exact Function.update_self ..
    · exact closeAnyway_spec [] hext
  | @middle j q r w hj hidx hl hl' =>
    have hn : 0 < ctx.pipeNum := Nat.lt_trans (Nat.succ_pos j) hj
    have hw : closeWrite ctx s = { s with
        fds := closeAnyway s.fds (some w)
        pipeList := Function.update s.pipeList (j + 1) ⟨some r, none⟩ } := by
      rw [closeWrite, hidx, if_pos hj, hl']
    have hprev : v.closesPrev ctx (closeWrite ctx s) := by
      rw [hw]
      refine ⟨?_, fun _ => ?_⟩
      · show 0 < s.pipeIdx
        rw [hidx]
        exact Nat.succ_pos j
      · show s.pipeIdx - 1 < ctx.pipeNum
        rw [hidx]
        exact Nat.lt_of_succ_lt hj
    have hjne : j ≠ j + 1 := Nat.ne_of_lt (Nat.lt_succ_self j)
    rw [if_pos hn, closePrev, if_pos hprev, hw]
    refine ⟨[(r, .pipeEnd (j + 1) .READ)], .read hj ?_ ?_, ?_⟩
    · exact congrArg (· + 1) hidx
    · show Function.update (Function.update s.pipeList (j + 1) _) (s.pipeIdx - 1) _ (j + 1) = _
      rw [hidx, Nat.add_sub_cancel, Function.update_of_ne hjne.symm, Function.update_self]
    · show Extends (closeAnyway (closeAnyway s.fds (some w))
        (Function.update s.pipeList (j + 1) _ (s.pipeIdx - 1)).read) base _
      rw [hidx, Nat.add_sub_cancel, Function.update_of_ne hjne, hl]
      exact closeAnyway_spec [(r, .pipeEnd (j + 1) .READ)]
        (closeAnyway_spec [] hext)
  | @last j q hj hidx hl =>
    have hn : 0 < ctx.pipeNum := hj ▸ Nat.succ_pos j
    have hw : closeWrite ctx s = s := by
      rw [closeWrite, hidx, hj, if_neg (Nat.lt_irrefl _)]
    have hprev : v.closesPrev ctx s := by
      refine ⟨?_, fun _ => ?_⟩
      · rw [hidx]
        exact Nat.succ_pos j
      · rw [Shell.prevPipeIdx, hidx, ← hj]
        exact Nat.lt_succ_self j
    rw [if_pos hn, hw, closePrev, if_pos hprev, hj]
    refine ⟨[], .done, ?_⟩
    show Extends (closeAnyway s.fds (s.pipeList s.prevPipeIdx).read) base _
    rw [Shell.prevPipeIdx, hidx, Nat.add_sub_cancel, hl]
    exact closeAnyway_spec [] hext

/-- The parent's index of redirections at the head of pass `i`. -/
def redirIdxAt (v : Variant) (ctx : CmdCtx) : Nat → Nat
  | 0 => 0
  | i + 1 => v.nextRedir ctx (redirIdxAt v ctx i) i

/-- How a child starts: with its pipe ends, and the parent's index of redirections. -/
def Forked (v : Variant) (ctx : CmdCtx) (base : Nat → Option Desc) (i : Nat) (s : Shell) : Prop :=
  s.redirIdx = redirIdxAt v ctx i ∧ ∃ l, Ports ctx s i l ∧ Extends s.fds base l

theorem spawn_spec (alloc : Alloc Desc) {m : Nat} (hm : i + m = ctx.pipeNum + 1) (hc : Carries ctx s i l)
    (hext : Extends s.fds base l) (hk : s.redirIdx = redirIdxAt v ctx i) :
    (spawn v (.ok alloc) ctx m i s).failed = none ∧
      (spawn v (.ok alloc) ctx m i s).parent.fds.get = base ∧
      (spawn v (.ok alloc) ctx m i s).children.length = m ∧
      ∀ j < m, ∃ s', Forked v ctx base (i + j) s' ∧
        (spawn v (.ok alloc) ctx m i s).children[j]? = some (v.child (.ok alloc) ctx (i + j) s') := by
  induction m generalizing i s l with
  | zero =>
    have hi : i = ctx.pipeNum + 1 := hm
    subst hi
    refine ⟨rfl, ?_, rfl, fun j hj => absurd hj (Nat.not_lt_zero j)⟩
    cases hc with
    | read hj => exact absurd hj (Nat.lt_irrefl _)
    | done => exact hext.get_of_nil
  | succ m ih =>
    have hi : i ≤ ctx.pipeNum := by omega
    obtain ⟨s₁, l₁, hmake, hk₁, hports, hext₁⟩ := makePipe_spec alloc hc hi hext
    obtain ⟨l₂, hc₂, hext₂⟩ := parentPass_spec v hports hext₁
    have hk₂ : (parentPass v ctx i s₁).redirIdx = redirIdxAt v ctx (i + 1) := by
      show v.nextRedir ctx s₁.redirIdx i = _
      rw [hk₁, hk]
      rfl
    obtain ⟨hfail, hparent, hlen, hch⟩ := ih (by omega) hc₂ hext₂ hk₂
    rw [spawn, hmake]
    refine ⟨hfail, hparent, congrArg (· + 1) hlen, fun j hj => ?_⟩
    cases j with
    | zero => exact ⟨s₁, ⟨hk₁.trans hk, l₁, hports, hext₁⟩, rfl⟩
    | succ j =>
      obtain ⟨s', hs', hget⟩ := hch j (Nat.lt_of_succ_lt_succ hj)
      have hij : i + 1 + j = i + (j + 1) := by omega
      rw [hij] at hs' hget
      exact ⟨s', hs', hget⟩

theorem execCmdList_spec (v : Variant) (alloc : Alloc Desc) (ctx : CmdCtx) (o : Origin) :
    (execCmdList v (.ok alloc) ctx o).failed = none ∧
      (execCmdList v (.ok alloc) ctx o).parent.fds.get = o.fds.get ∧
      (execCmdList v (.ok alloc) ctx o).children.length = ctx.cmdNum ∧
      ∀ i < ctx.cmdNum, ∃ s, Forked v ctx o.fds.get i s ∧
        (execCmdList v (.ok alloc) ctx o).children[i]? = some (v.child (.ok alloc) ctx i s) := by
  obtain ⟨hfail, hparent, hlen, hch⟩ := spawn_spec (v := v) (s := .start o.fds) alloc
    (Nat.zero_add ctx.cmdNum) (.start rfl) (Extends.refl o.fds) rfl
  refine ⟨hfail, hparent, hlen, fun i hi => ?_⟩
  obtain ⟨s, hs, hget⟩ := hch i hi
  rw [Nat.zero_add] at hs hget
  exact ⟨s, hs, hget⟩

/-! ## 4. Pipelines without redirections -/

/-- A pipeline of `pipeNum + 1` commands and no redirection. -/
def plain (cmds : Nat → List (List UInt8)) (pipeNum : Nat) : CmdCtx := ⟨cmds, [], pipeNum⟩

/-- The descriptors of command `i` at `execvp`. -/
structure Wiring (ctx : CmdCtx) (base : Nat → Option Desc) (i : Nat) (p : Proc) : Prop where
  stdin : p.fds.get 0 = stdinOf base i
  stdout : p.fds.get 1 = stdoutOf ctx base i
  rest : ∀ fd, 1 < fd → p.fds.get fd = base fd

theorem attached_plain (hno : ctx.toFrom = []) (k i : Nat) : ctx.attached k i = none := by
  rw [CmdCtx.attached, hno]
  rfl

theorem redirFirst_of_none {p : Proc} {k : Nat} (h : ctx.attached k i = none) :
    redirFirst sys ctx i k p = .ok (p, k) := by
  rw [redirFirst, h]

theorem redirSecond_of_none {p : Proc} {k : Nat} (h : ctx.attached k i = none) :
    redirSecond sys ctx i k p = .ok p := by
  rw [redirSecond, h]
  exact ite_self _

/-- A child whose calls up to the closing of the pipe ends are known. -/
theorem childExec_of_calls {p₁ p₂ p₃ p₄ : Proc} {k : Nat}
    (hblock : ctx.pipeNum > 0 ∨ ctx.redirNum > 0) (h₁ : dupPrev ctx s ⟨s.fds, []⟩ = .ok p₁)
    (hfirst : redirFirst sys ctx i s.redirIdx p₁ = .ok (p₂, k))
    (h₂ : dupMiddle ctx s p₂ = .ok p₃) (hsecond : redirSecond sys ctx i k p₃ = .ok p₄) :
    childExec sys ctx i s = closeEnds ctx s p₄ := by
  rw [childExec, if_pos hblock, h₁]
  show (redirFirst sys ctx i s.redirIdx p₁ >>= _) = _
  rw [hfirst]
  show (dupMiddle ctx s p₂ >>= _) = _
  rw [h₂]
  show (redirSecond sys ctx i k p₃ >>= _) = _
  rw [hsecond]
  rfl

/-- Without redirections the child sections of the three programs do the same. -/
theorem child_plain (hno : ctx.toFrom = []) (hp : Ports ctx s i l) (hi : i ≤ ctx.pipeNum)
    (hext : Extends s.fds base l) :
    ∃ p, v.child sys ctx i s = .ok p ∧ p.fds.get = wired ctx base i := by
  have hstart : Extends (⟨s.fds, []⟩ : Proc).fds base ([] ++ l) := hext
  have hnone := attached_plain hno
  have hzero : ctx.redirNum = 0 := by rw [CmdCtx.redirNum, hno]; rfl
  by_cases hn : 0 < ctx.pipeNum
  · obtain ⟨p₁, h₁, -, hx₁⟩ := dupPrev_spec [] hp hstart
    obtain ⟨p₁', h₁', -, hx₁', -⟩ := dupSide_spec hp hn hstart
    obtain ⟨p₂, h₂, -, hx₂⟩ := dupMiddle_spec [] hp hx₁
    obtain ⟨p₂', h₂', -, hx₂'⟩ := dupMiddle_spec [] hp hx₁'
    obtain ⟨p₃, h₃, -, hx₃⟩ := closeEnds_spec [] hp hx₂
    obtain ⟨p₃', h₃', -, hx₃'⟩ := closeEnds_spec [] hp hx₂'
    have hexec : childExec sys ctx i s = .ok p₃ := by
      rw [childExec_of_calls (.inl hn) h₁ (redirFirst_of_none (hnone _ i)) h₂
        (redirSecond_of_none (hnone _ i))]
      exact h₃
    have hpipe : childPipe sys ctx i s = .ok p₃' := by
      have hpipes : childPipes ctx s ⟨s.fds, []⟩ = .ok p₃' := by
        rw [childPipes, if_pos hn, h₁']
        show (dupMiddle ctx s p₁' >>= _) = _
        rw [h₂']
        exact h₃'
      rw [childPipe, hpipes, hzero]
      rfl
    rw [afterMiddle_afterPrev base hi] at hx₃ hx₃'
    cases v with
    | pipe7 => exact ⟨p₃, hexec, hx₃.get_of_nil⟩
    | pipe6 => exact ⟨p₃, hexec, hx₃.get_of_nil⟩
    | pipe5 => exact ⟨p₃', hpipe, hx₃'.get_of_nil⟩
  · have h0 : ctx.pipeNum = 0 := Nat.eq_zero_of_not_pos hn
    have hexec : childExec sys ctx i s = .ok ⟨s.fds, []⟩ := by
      rw [childExec, if_neg (by simp [h0, hzero])]
    have hpipe : childPipe sys ctx i s = .ok ⟨s.fds, []⟩ := by
      have hpipes : childPipes ctx s ⟨s.fds, []⟩ = .ok ⟨s.fds, []⟩ := if_neg hn
      rw [childPipe, hpipes, hzero]
      rfl
    have hget : s.fds.get = wired ctx base i := by
      obtain ⟨p', h', -, hx'⟩ := closeEnds_spec [] hp hstart
      cases hp with
      | only _ hidx =>
        have hsame := afterMiddle_afterPrev base hi
        rw [afterPrev, if_pos h0, afterMiddle, if_neg (by simp)] at hsame
        rw [← hsame]
        exact hext.get_of_nil
      | first hpos => exact absurd hpos hn
      | middle hpos => exact absurd (Nat.lt_trans (Nat.succ_pos _) hpos) hn
      | last heq => exact absurd (heq ▸ Nat.succ_pos _) hn
    cases v with
    | pipe7 => exact ⟨_, hexec, hget⟩
    | pipe6 => exact ⟨_, hexec, hget⟩
    | pipe5 => exact ⟨_, hpipe, hget⟩

theorem wiring_of_wired (h : p.fds.get = wired ctx base i) : Wiring ctx base i p := by
  refine ⟨?_, ?_, fun fd hfd => ?_⟩
  · rw [h, wired, Function.update_of_ne (by decide), Function.update_self]
  · rw [h, wired, Function.update_self]
  · have h0 : fd ≠ 0 := Nat.ne_of_gt (Nat.lt_trans Nat.zero_lt_one hfd)
    rw [h, wired, Function.update_of_ne (Nat.ne_of_gt hfd), Function.update_of_ne h0]

theorem Origin.no_pipe (o : Origin) (fd k : Nat) (e : End) :
    o.fds.get fd ≠ some (.pipeEnd k e) := fun h => Desc.noConfusion (o.inherited fd _ h)

/-- The pipe ends a wired command holds. -/
theorem Wiring.ends {o : Origin} (h : Wiring ctx o.fds.get i p) {fd k : Nat} {e : End}
    (hfd : p.fds.get fd = some (.pipeEnd k e)) :
    (e = .READ ∧ fd = 0 ∧ i = k + 1) ∨ (e = .WRITE ∧ fd = 1 ∧ i = k) := by
  rcases Nat.lt_trichotomy fd 1 with hlt | rfl | hgt
  · have h0 : fd = 0 := Nat.lt_one_iff.mp hlt
    subst h0
    rw [h.stdin, stdinOf] at hfd
    split at hfd
    · exact absurd hfd (o.no_pipe 0 k e)
    · rename_i hi
      injection hfd with hfd
      injection hfd with hk he
      exact .inl ⟨he.symm, rfl, by omega⟩
  · rw [h.stdout, stdoutOf] at hfd
    split at hfd
    · injection hfd with hfd
      injection hfd with hk he
      exact .inr ⟨he.symm, rfl, hk⟩
    · exact absurd hfd (o.no_pipe 1 k e)
  · rw [h.rest fd hgt] at hfd
    exact absurd hfd (o.no_pipe fd k e)

/-- Every command holds the two ends that are its own, and nobody holds any other. -/
structure Hygienic (ctx : CmdCtx) (o : Origin) (r : Spawned) : Prop where
  completes : r.failed = none ∧ r.children.length = ctx.cmdNum
  child : ∀ i < ctx.cmdNum, ∃ p, r.children[i]? = some (.ok p) ∧ Wiring ctx o.fds.get i p
  ends : ∀ (i : Nat) (p : Proc) (fd k : Nat) (e : End), r.children[i]? = some (.ok p) →
    p.fds.get fd = some (.pipeEnd k e) →
      (e = .READ ∧ fd = 0 ∧ i = k + 1) ∨ (e = .WRITE ∧ fd = 1 ∧ i = k)
  parent : r.parent.fds.get = o.fds.get
  parentEnds : ∀ fd k e, r.parent.fds.get fd ≠ some (.pipeEnd k e)

/-- **Descriptor hygiene** of all three programs, for pipelines of every length. -/
theorem descriptor_hygiene (v : Variant) (alloc : Alloc Desc) (cmds : Nat → List (List UInt8))
    (pipeNum : Nat) (o : Origin) :
    Hygienic (plain cmds pipeNum) o (execCmdList v (.ok alloc) (plain cmds pipeNum) o) := by
  obtain ⟨hfail, hparent, hlen, hch⟩ := execCmdList_spec v alloc (plain cmds pipeNum) o
  have hchild : ∀ i < (plain cmds pipeNum).cmdNum, ∃ p,
      (execCmdList v (.ok alloc) (plain cmds pipeNum) o).children[i]? = some (.ok p) ∧
        Wiring (plain cmds pipeNum) o.fds.get i p := by
    intro i hi
    obtain ⟨s, ⟨-, l, hports, hext⟩, hget⟩ := hch i hi
    obtain ⟨p, hp, hwired⟩ := child_plain (v := v) rfl hports
      (Nat.le_of_lt_succ hi) hext
    exact ⟨p, hp ▸ hget, wiring_of_wired hwired⟩
  refine ⟨⟨hfail, hlen⟩, hchild, ?_, hparent, ?_⟩
  · intro i p fd k e hget hfd
    have hi : i < (plain cmds pipeNum).cmdNum := by
      rw [← hlen]
      exact (List.getElem?_eq_some_iff.mp hget).1
    obtain ⟨p', hget', hw⟩ := hchild i hi
    have hp : p' = p := Except.ok.inj (Option.some.inj (hget'.symm.trans hget))
    exact (hp ▸ hw).ends hfd
  · intro fd k e
    rw [hparent]
    exact o.no_pipe fd k e

end Pipeline
end Labs
