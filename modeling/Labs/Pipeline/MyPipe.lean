import Labs.Pipeline.Redirections
import Mathlib.Data.List.Induction

/-!
# The redirections of `my_pipe`

`my_pipe` of `LAB_14/task_pipe5/src/pipe5.c` installs the pipe ends of a child first, and then opens the
redirections of its command one after the other, each into the next element of an array of two. A third
one is stored behind the array. In the parent the index goes on by one for a command that has any, and
from a command with two on it is behind for good, as in `exec_cmd_list` (`myPipeIdx_spec`).

So a child gets what its command says if it has at most two redirections, and no command before it had
two (`FitsArray`).

## Two indices

The parent has an index of the first redirection that is not dealt with, the child one of its own
redirections in the array of two. They go wrong in different ways. The child's is right as long as
there are two at most; then the array ends, and the third is stored behind it
(`redirWhile_overflows`).

The parent's is moved by one for each command that has redirections, however many. Behind a command
with two it stands at the second of these, which belongs to no later command, so it never moves
again (`redirWhile_behind`). All later redirections are skipped, and if there are none nothing is
lost.

So `FitsArray` is about the numbers of redirections only. What a command gets where it is right is
said as a table of descriptors at `execvp` (`Installed`): the pipe ends first, and the redirections
over them, the last one of each direction counting.
-/

namespace Labs
namespace Pipeline

open Lib

variable {alloc : Alloc Desc} {ctx : CmdCtx} {base : Nat → Option Desc} {i : Nat} {s : Shell}
  {p : Proc} {l : List (Nat × Desc)}

/-! ## 1. What the commands should get -/

def redirOf (i : Nat) (d : End × List UInt8) : Redir := ⟨i, d.1, d.2⟩

/-- The redirections of command `i`, installed one after the other. -/
def installed (i : Nat) (rs : List (End × List UInt8)) (base : Nat → Option Desc) :
    Nat → Option Desc :=
  rs.foldl (fun b d => install (redirOf i d) (modeOf d.1) b) base

/-- Command `i` at `execvp`: it has opened its redirections `rs`, and they stand over its pipe ends. -/
structure Installed (ctx : CmdCtx) (base : Nat → Option Desc) (i : Nat)
    (rs : List (End × List UInt8)) (p : Proc) : Prop where
  opened : p.opened = rs.map fun d => (redirOf i d, modeOf d.1)
  std : ∀ fd ≤ 2, p.fds.get fd = installed i rs (wired ctx base i) fd

def AllInstalled (alloc : Alloc Desc) (c : Command) (cs : List Command) (o : Origin) : Prop :=
  ∀ i ≤ cs.length, ∃ p,
    (execCmdList .pipe5 (.ok alloc) (ctxOf c cs) o).children[i]? = some (.ok p) ∧
      Installed (ctxOf c cs) o.fds.get i (redirsOf (c :: cs) i) p

/-- No command has more redirections than the array has elements, and behind one with two no command has
    any. -/
structure FitsArray (c : Command) (cs : List Command) : Prop where
  two : ∀ i ≤ cs.length, (redirsOf (c :: cs) i).length ≤ 2
  alone : ∀ i j, i < j → j ≤ cs.length → 2 ≤ (redirsOf (c :: cs) i).length →
    redirsOf (c :: cs) j = []

/-- The last redirection of a direction is the one that counts. -/
theorem installed_eq (i : Nat) (rs : List (End × List UInt8)) (base : Nat → Option Desc) (e : End) :
    installed i rs base e.fileno =
      match lastFile e rs with
      | some f => some (.file f (modeOf e))
      | none => base e.fileno := by
  induction rs using List.reverseRecOn with
  | nil => rfl
  | append_singleton rs d ih =>
    have hstep : installed i (rs ++ [d]) base =
        install (redirOf i d) (modeOf d.1) (installed i rs base) := by
      simp [installed]
    rw [hstep]
    by_cases he : d.1 = e
    · subst he
      have hlast : lastFile d.1 (rs ++ [d]) = some d.2 := by simp [lastFile]
      rw [hlast]
      exact install_self (redirOf i d) _ _
    · have hlast : lastFile e (rs ++ [d]) = lastFile e rs := by simp [lastFile, he]
      have hfd : e.fileno ≠ (redirOf i d).direct.fileno := by
        intro h
        apply he
        cases hd : d.1 <;> cases e <;> simp [redirOf, hd, End.fileno] at h ⊢
      rw [hlast, install_other hfd, ih]

/-- So standard input and output are those that are wanted of the command. -/
theorem Installed.wanted {rs : List (End × List UInt8)} (h : Installed ctx base i rs p) :
    p.fds.get 0 = wantedIn base i rs ∧ p.fds.get 1 = wantedOut ctx base i rs := by
  constructor
  · rw [h.std 0 (by decide)]
    refine (installed_eq i rs (wired ctx base i) .READ).trans ?_
    unfold wantedIn
    cases lastFile .READ rs with
    | some f => rfl
    | none => simp [wired, End.fileno]
  · rw [h.std 1 (by decide)]
    refine (installed_eq i rs (wired ctx base i) .WRITE).trans ?_
    unfold wantedOut
    cases lastFile .WRITE rs with
    | some f => rfl
    | none => simp [wired, End.fileno]

/-! ## 2. A child -/

/-- The redirections at `l` and behind it are `rs`, and they fit in the array. -/
theorem redirWhile_fits (alloc : Alloc Desc) {rs : List (End × List UInt8)} {fuel k fdIdx : Nat}
    {fs : List (Nat × Desc)}
    (hat : ∀ j, ctx.attached (k + j) i = rs[j]?.map (redirOf i)) (hfuel : rs.length ≤ fuel)
    (hfits : fdIdx + rs.length ≤ 2) (hext : Extends p.fds base fs) :
    ∃ p' fs', redirWhile (.ok alloc) ctx i fuel k fdIdx p = .ok p' ∧
      p'.opened = p.opened ++ rs.map (fun d => (redirOf i d, modeOf d.1)) ∧
        Extends p'.fds (installed i rs base) fs' := by
  induction rs generalizing fuel k fdIdx fs p base with
  | nil =>
    have hnone : ctx.attached k i = none := hat 0
    refine ⟨p, fs, ?_, (List.append_nil _).symm, hext⟩
    cases fuel with
    | zero => rfl
    | succ fuel => rw [redirWhile, hnone]
  | cons d rs ih =>
    have hsome : ctx.attached k i = some (redirOf i d) := hat 0
    obtain ⟨fuel, rfl⟩ : ∃ m, fuel = m + 1 := ⟨fuel - 1, by simp at hfuel; omega⟩
    simp only [List.length_cons] at hfuel hfits
    obtain ⟨p₁, fd, hopen, hopened₁, hext₁⟩ := openRedir_spec alloc i (redirOf i d) (modeOf d.1) hext
    have hat' : ∀ j, ctx.attached (k + 1 + j) i = rs[j]?.map (redirOf i) := by
      intro j
      rw [Nat.add_assoc, Nat.add_comm 1 j]
      exact hat (j + 1)
    obtain ⟨p', fs', hrun, hopened', hext'⟩ :=
      ih hat' (Nat.le_of_succ_le_succ hfuel) (show fdIdx + 1 + rs.length ≤ 2 by omega) hext₁
    refine ⟨p', fs', ?_, ?_, hext'⟩
    · rw [redirWhile, hsome]
      dsimp only
      rw [if_pos (by omega)]
      show (openRedir (.ok alloc) i p (redirOf i d) (modeOf d.1) >>= _) = _
      rw [hopen]
      exact hrun
    · rw [hopened', hopened₁, List.append_assoc]
      rfl

/-- With a third redirection the array is too short. -/
theorem redirWhile_overflows (alloc : Alloc Desc) {rs : List (End × List UInt8)} {fuel k fdIdx : Nat}
    {fs : List (Nat × Desc)}
    (hat : ∀ j, ctx.attached (k + j) i = rs[j]?.map (redirOf i)) (hfuel : rs.length ≤ fuel)
    (hidx : fdIdx ≤ 2) (hlong : 2 < fdIdx + rs.length) (hext : Extends p.fds base fs) :
    redirWhile (.ok alloc) ctx i fuel k fdIdx p = .error .outOfBounds := by
  induction rs generalizing fuel k fdIdx fs p base with
  | nil =>
    simp at hlong
    omega
  | cons d rs ih =>
    have hsome : ctx.attached k i = some (redirOf i d) := hat 0
    obtain ⟨fuel, rfl⟩ : ∃ m, fuel = m + 1 := ⟨fuel - 1, by simp at hfuel; omega⟩
    simp only [List.length_cons] at hfuel hlong
    rw [redirWhile, hsome]
    dsimp only
    by_cases hfull : fdIdx < 2
    · obtain ⟨p₁, fd, hopen, -, hext₁⟩ := openRedir_spec alloc i (redirOf i d) (modeOf d.1) hext
      have hat' : ∀ j, ctx.attached (k + 1 + j) i = rs[j]?.map (redirOf i) := by
        intro j
        rw [Nat.add_assoc, Nat.add_comm 1 j]
        exact hat (j + 1)
      rw [if_pos hfull]
      show (openRedir (.ok alloc) i p (redirOf i d) (modeOf d.1) >>= _) = _
      rw [hopen]
      exact ih hat' (Nat.le_of_succ_le_succ hfuel) hfull (by omega) hext₁
    · rw [if_neg hfull]

/-- The pipe ends are in place before the redirections are opened. -/
theorem childPipes_spec (hp : Ports ctx s i l) (hi : i ≤ ctx.pipeNum) (hext : Extends s.fds base l) :
    ∃ p, childPipes ctx s ⟨s.fds, []⟩ = .ok p ∧ p.opened = [] ∧
      Extends p.fds (wired ctx base i) [] := by
  have hstart : Extends (⟨s.fds, []⟩ : Proc).fds base ([] ++ l) := hext
  have hwired := afterMiddle_afterPrev base hi
  by_cases hn : 0 < ctx.pipeNum
  · obtain ⟨p₁, h₁, ho₁, hx₁, -⟩ := dupSide_spec hp hn hstart
    obtain ⟨p₂, h₂, ho₂, hx₂⟩ := dupMiddle_spec [] hp hx₁
    obtain ⟨p₃, h₃, ho₃, hx₃⟩ := closeEnds_spec [] hp hx₂
    refine ⟨p₃, ?_, ho₃.trans (ho₂.trans ho₁), hwired ▸ hx₃⟩
    rw [childPipes, if_pos hn, h₁]
    show (dupMiddle ctx s p₁ >>= _) = _
    rw [h₂]
    exact h₃
  · have h0 : ctx.pipeNum = 0 := Nat.eq_zero_of_not_pos hn
    refine ⟨⟨s.fds, []⟩, if_neg hn, rfl, ?_⟩
    cases hp with
    | only _ hidx =>
      rw [afterPrev, if_pos h0, afterMiddle, if_neg (by simp)] at hwired
      rw [← hwired]
      exact hext
    | first hpos => exact absurd hpos hn
    | middle hpos => exact absurd (Nat.lt_trans (Nat.succ_pos _) hpos) hn
    | last heq => exact absurd (heq ▸ Nat.succ_pos _) hn

/-! ## 3. The pipeline -/

/-- The parent's index is right exactly behind commands with at most one redirection each. -/
theorem myPipeIdx_spec (c : Command) (cs : List Command) (i : Nat) :
    redirIdxAt .pipe5 (ctxOf c cs) i ≤ startOf (c :: cs) i ∧
      (redirIdxAt .pipe5 (ctxOf c cs) i = startOf (c :: cs) i ↔
        ∀ j < i, (redirsOf (c :: cs) j).length < 2) := by
  induction i with
  | zero => exact ⟨Nat.le_refl 0, fun _ j hj => absurd hj (Nat.not_lt_zero j), fun _ => rfl⟩
  | succ i ih =>
    have hnext : redirIdxAt .pipe5 (ctxOf c cs) (i + 1) =
        if ((ctxOf c cs).attached (redirIdxAt .pipe5 (ctxOf c cs) i) i).isSome then
          redirIdxAt .pipe5 (ctxOf c cs) i + 1
        else redirIdxAt .pipe5 (ctxOf c cs) i := rfl
    have hall : (∀ j < i + 1, (redirsOf (c :: cs) j).length < 2) ↔
        (∀ j < i, (redirsOf (c :: cs) j).length < 2) ∧ (redirsOf (c :: cs) i).length < 2 := by
      simp only [Nat.lt_succ_iff_lt_or_eq, or_imp, forall_and, forall_eq]
    obtain ⟨hle, hiff⟩ := ih
    rw [hnext, hall, ← hiff, startOf_succ]
    split
    · rename_i hat
      rw [attached_isSome] at hat
      omega
    · rename_i hat
      rw [attached_isSome] at hat
      omega

theorem attached_right {c : Command} {cs : List Command} {k : Nat} (hk : k = startOf (c :: cs) i)
    (j : Nat) : (ctxOf c cs).attached (k + j) i = (redirsOf (c :: cs) i)[j]?.map (redirOf i) := by
  rw [attached_spec, if_pos (by omega), hk, Nat.add_sub_cancel_left]
  rfl

/-- An index that is behind stands at no redirection of the command. -/
theorem redirWhile_behind {sys : Sys} {c : Command} {cs : List Command} {k fuel fdIdx : Nat}
    (hk : k < startOf (c :: cs) i) : redirWhile sys (ctxOf c cs) i fuel k fdIdx p = .ok p := by
  cases fuel with
  | zero => rfl
  | succ fuel => rw [redirWhile, attached_spec, if_neg (Nat.not_le.mpr hk)]

theorem length_toFromOf (n : Nat) (cs : List Command) {i : Nat} (hi : i < cs.length) :
    (redirsOf cs i).length ≤ (toFromOf n cs).length := by
  induction cs generalizing n i with
  | nil => exact absurd hi (Nat.not_lt_zero i)
  | cons c cs ih =>
    rw [toFromOf, List.length_append, List.length_map]
    cases i with
    | zero => exact Nat.le_add_right _ _
    | succ i => exact Nat.le_trans (ih (n + 1) (Nat.lt_of_succ_lt_succ hi)) (Nat.le_add_left _ _)

/-- A child whose pipe ends are in place, with the redirections that were opened over them. -/
theorem installed_of_extends {rs : List (End × List UInt8)} {fs : List (Nat × Desc)}
    (hopened : p.opened = rs.map fun d => (redirOf i d, modeOf d.1))
    (hext : Extends p.fds (installed i rs (wired ctx base i)) fs) : Installed ctx base i rs p :=
  ⟨hopened, fun _ hfd => hext.get_std hfd⟩

/-- Child `i`, by where the parent's index stands and how many redirections the command has. -/
theorem myPipe_child (alloc : Alloc Desc) (c : Command) (cs : List Command) (o : Origin)
    (hi : i ≤ cs.length) :
    ∃ child, (execCmdList .pipe5 (.ok alloc) (ctxOf c cs) o).children[i]? = some child ∧
      ((∀ j < i, (redirsOf (c :: cs) j).length < 2) → (redirsOf (c :: cs) i).length ≤ 2 →
        ∃ p, child = .ok p ∧ Installed (ctxOf c cs) o.fds.get i (redirsOf (c :: cs) i) p) ∧
      ((∀ j < i, (redirsOf (c :: cs) j).length < 2) → 2 < (redirsOf (c :: cs) i).length →
        child = .error .outOfBounds) ∧
      ((¬ ∀ j < i, (redirsOf (c :: cs) j).length < 2) →
        ∃ p, child = .ok p ∧ Installed (ctxOf c cs) o.fds.get i [] p) := by
  obtain ⟨-, -, -, hch⟩ := execCmdList_spec .pipe5 alloc (ctxOf c cs) o
  obtain ⟨s, ⟨hk, l, hports, hext⟩, hget⟩ := hch i (Nat.lt_succ_of_le hi)
  obtain ⟨p, hpipes, hopened, hwired⟩ := childPipes_spec hports hi hext
  have hchild : Variant.child .pipe5 (.ok alloc) (ctxOf c cs) i s =
      redirWhile (.ok alloc) (ctxOf c cs) i (ctxOf c cs).redirNum s.redirIdx 0 p := by
    show childPipe (.ok alloc) (ctxOf c cs) i s = _
    rw [childPipe, hpipes]
    rfl
  have hfuel : (redirsOf (c :: cs) i).length ≤ (ctxOf c cs).redirNum :=
    length_toFromOf 0 (c :: cs) (Nat.lt_succ_of_le hi)
  obtain ⟨hle, hright⟩ := myPipeIdx_spec c cs i
  rw [← hk] at hle hright
  refine ⟨_, hget, fun hones hlen => ?_, fun hones hlen => ?_, fun hbehind => ?_⟩
  · obtain ⟨p', fs', hrun, hopened', hext'⟩ := redirWhile_fits alloc
      (attached_right (hright.mpr hones)) hfuel (by rwa [Nat.zero_add]) hwired
    refine ⟨p', hchild.trans hrun, installed_of_extends ?_ hext'⟩
    rw [hopened', hopened, List.nil_append]
  · rw [hchild]
    exact redirWhile_overflows alloc (attached_right (hright.mpr hones)) hfuel (Nat.zero_le 2)
      (by rwa [Nat.zero_add]) hwired
  · have hlt : s.redirIdx < startOf (c :: cs) i :=
      Nat.lt_of_le_of_ne hle fun heq => hbehind (hright.mp heq)
    exact ⟨p, hchild.trans (redirWhile_behind hlt), installed_of_extends hopened hwired⟩

theorem Installed.length_eq {rs rs' : List (End × List UInt8)} (h : Installed ctx base i rs p)
    (h' : Installed ctx base i rs' p) : rs.length = rs'.length := by
  have heq := congrArg List.length (h.opened.symm.trans h'.opened)
  simpa using heq

/-- **Each command of `my_pipe` gets its own redirections exactly in the pipelines that fit its
    array.** -/
theorem redirections_iff_fit (alloc : Alloc Desc) (c : Command) (cs : List Command) (o : Origin) :
    AllInstalled alloc c cs o ↔ FitsArray c cs := by
  constructor
  · intro hall
    -- behind a command with two redirections a child opens none
    have hnone : ∀ i ≤ cs.length, (¬ ∀ j < i, (redirsOf (c :: cs) j).length < 2) →
        redirsOf (c :: cs) i = [] := by
      intro i hi hbehind
      obtain ⟨child, hget, -, -, hskipped⟩ := myPipe_child alloc c cs o hi
      obtain ⟨p, rfl, hempty⟩ := hskipped hbehind
      obtain ⟨p', hget', hinst⟩ := hall i hi
      have hpp : p' = p := Except.ok.inj (Option.some.inj (hget'.symm.trans hget))
      subst hpp
      exact List.length_eq_zero_iff.mp (hinst.length_eq hempty)
    refine ⟨fun i hi => ?_, fun i j hij hj hlen => ?_⟩
    · by_cases hones : ∀ j < i, (redirsOf (c :: cs) j).length < 2
      · apply Nat.le_of_not_lt
        intro hlong
        obtain ⟨child, hget, -, hoverflow, -⟩ := myPipe_child alloc c cs o hi
        obtain ⟨p', hget', -⟩ := hall i hi
        rw [hget, hoverflow hones hlong] at hget'
        cases hget'
      · rw [hnone i hi hones]
        exact Nat.zero_le 2
    · apply hnone j hj
      intro hones
      exact absurd (hones i hij) (Nat.not_lt.mpr hlen)
  · intro hfits i hi
    obtain ⟨child, hget, hinstalled, -, hskipped⟩ := myPipe_child alloc c cs o hi
    by_cases hones : ∀ j < i, (redirsOf (c :: cs) j).length < 2
    · obtain ⟨p, rfl, hinst⟩ := hinstalled hones (hfits.two i hi)
      exact ⟨p, hget, hinst⟩
    · obtain ⟨j, hj, hlen⟩ := not_forall₂.mp hones
      obtain ⟨p, rfl, hinst⟩ := hskipped hones
      rw [hfits.alone j i hj hi (Nat.not_lt.mp hlen)]
      exact ⟨p, hget, hinst⟩

/-- The files a child has opened at `execvp`. -/
def openedAt (r : Spawned) (i : Nat) : List (Redir × Mode) :=
  match r.children[i]? with
  | some (.ok p) => p.opened
  | _ => []

/-- `c < f > g` -/
def copying : Command := ⟨[ascii "c"], [(.READ, ascii "f"), (.WRITE, ascii "g")]⟩

/-- `c < f > g > h` -/
def copyingTwice : Command :=
  ⟨[ascii "c"], [(.READ, ascii "f"), (.WRITE, ascii "g"), (.WRITE, ascii "h")]⟩

/-- `c < f > g | b > f`: the redirection of the second command is skipped. A third redirection has no
    element in the array. -/
theorem later_redirection_skipped :
    ¬ AllInstalled .top copying [logging] terminal ∧ ¬ AllInstalled .top copyingTwice [] terminal := by
  constructor
  · intro h
    obtain ⟨p, hget, hinst⟩ := h 1 (by decide)
    have hnone : openedAt (execCmdList .pipe5 (.ok .top) (ctxOf copying [logging]) terminal) 1 = [] :=
      rfl
    rw [openedAt, hget] at hnone
    exact absurd (hnone.symm.trans hinst.opened) (by simp [redirsOf, logging])
  · intro h
    obtain ⟨p, hget, -⟩ := h 0 (by decide)
    have hoverflow : (execCmdList .pipe5 (.ok .top) (ctxOf copyingTwice []) terminal).children[0]? =
        some (.error .outOfBounds) := rfl
    rw [hoverflow] at hget
    cases hget

end Pipeline
end Labs
