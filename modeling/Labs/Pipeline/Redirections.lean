import Labs.Lib.CString
import Labs.Pipeline.Hygiene
import Mathlib.Algebra.BigOperators.Group.List.Basic

/-!
# Where the redirections of a pipeline go

A `Command` is what was typed: words, and redirections behind them. `ctxOf` is the context the
parsers build of a pipeline: the redirections of all commands in one array, in order.

Two things decide what `exec_cmd_list` makes of them.

* The child looks at two entries of the array, from the parent's index on. The first is opened as
  it was meant, but a middle command's `dup2` of its pipe comes behind it; the second is opened
  for writing whatever it says (`redirected`).
* The parent's index stands at the first redirection of command `i` as long as no command before
  had two or more; from then on it is behind for good (`redirIdxAt_spec`), and a child whose
  redirections it does not stand at has none (`attached_spec`).

`Simple` is the condition on the redirections of one command, `Served` the one on a pipeline.

## What is compared with what

What a pipeline is to do is said without the program (`Redirected`): a command has its last file of
a direction as its standard descriptor, and where it has none, the pipe or what the shell has. Every
file that it opens is one of its own. What the program does is computed: `childExec_spec` says which
standard descriptors and which files a child has at `execvp`, given what it has seen of the array.
Between the two stands an equivalence for one command (`redirected_iff`), and for a pipeline one
more induction, over the parent's index.

The index is the hard part. The parent moves it by one for a command that has a redirection at it,
so it falls behind for good when a command has two (`nextRedir_spec`). It never runs ahead. So a
child sees its own redirections, the first two of them, or none, and there is no pipeline in which
it sees those of another command (`seen_of_right`, `seen_of_behind`).

`Served` is a condition on what was typed. That nothing of the program occurs in it is the point:
one can read off a line whether it will be served.

`pipe5` moves its index differently and installs the pipe first; it is left to `MyPipe`, hence `v ≠
.pipe5` in the lemmas.
-/

namespace Labs
namespace Pipeline

open Lib

structure Command where
  words : List (List UInt8)
  redirs : List (End × List UInt8)

/-- The redirections of the commands `cs`, of which the first has number `n`. -/
def toFromOf : Nat → List Command → List Redir
  | _, [] => []
  | n, c :: cs => c.redirs.map (fun d => ⟨n, d.1, d.2⟩) ++ toFromOf (n + 1) cs

def ctxOf (c : Command) (cs : List Command) : CmdCtx where
  cmds i := ((c :: cs)[i]?.map Command.words).getD []
  toFrom := toFromOf 0 (c :: cs)
  pipeNum := cs.length

def redirsOf (cs : List Command) (i : Nat) : List (End × List UInt8) :=
  (cs[i]?.map Command.redirs).getD []

/-- Where the redirections of command `i` begin in the array. -/
def startOf (cs : List Command) (i : Nat) : Nat :=
  ((cs.take i).map fun c => c.redirs.length).sum

/-! ## 1. What the commands should get -/

/-- The last file of a direction. -/
def lastFile (e : End) (rs : List (End × List UInt8)) : Option (List UInt8) :=
  ((rs.filter fun d => d.1 == e).getLast?).map Prod.snd

def wantedIn (base : Nat → Option Desc) (i : Nat) (rs : List (End × List UInt8)) : Option Desc :=
  match lastFile .READ rs with
  | some f => some (.file f .RDONLY)
  | none => stdinOf base i

def wantedOut (ctx : CmdCtx) (base : Nat → Option Desc) (i : Nat)
    (rs : List (End × List UInt8)) : Option Desc :=
  match lastFile .WRITE rs with
  | some f => some (.file f .CREAT_TRUNC)
  | none => stdoutOf ctx base i

/-- Command `i` at `execvp`, as its redirections `rs` say. -/
structure Redirected (ctx : CmdCtx) (base : Nat → Option Desc) (i : Nat)
    (rs : List (End × List UInt8)) (p : Proc) : Prop where
  stdin : p.fds.get 0 = wantedIn base i rs
  stdout : p.fds.get 1 = wantedOut ctx base i rs
  own : ∀ e ∈ p.opened, e.1.cmd = i ∧ (e.1.direct, e.1.fileName) ∈ rs
  readOnly : ∀ e ∈ p.opened, e.1.direct = .READ → e.2 = .RDONLY

def AllRedirected (v : Variant) (alloc : Alloc Desc) (c : Command) (cs : List Command)
    (o : Origin) : Prop :=
  ∀ i ≤ cs.length, ∃ p,
    (execCmdList v (.ok alloc) (ctxOf c cs) o).children[i]? = some (.ok p) ∧
      Redirected (ctxOf c cs) o.fds.get i (redirsOf (c :: cs) i) p

/-! ## 2. The array of redirections -/

theorem startOf_zero (cs : List Command) : startOf cs 0 = 0 := rfl

theorem startOf_cons (c : Command) (cs : List Command) (i : Nat) :
    startOf (c :: cs) (i + 1) = c.redirs.length + startOf cs i := rfl

theorem startOf_succ (cs : List Command) (i : Nat) :
    startOf cs (i + 1) = startOf cs i + (redirsOf cs i).length := by
  induction cs generalizing i with
  | nil => simp [startOf, redirsOf]
  | cons c cs ih =>
    cases i with
    | zero => simp [startOf, redirsOf]
    | succ i =>
      rw [startOf_cons, startOf_cons, ih, Nat.add_assoc]
      rfl

theorem cmd_of_mem_toFromOf {n : Nat} {cs : List Command} {d : Redir}
    (h : d ∈ toFromOf n cs) : n ≤ d.cmd := by
  induction cs generalizing n with
  | nil => exact absurd h (by simp [toFromOf])
  | cons c cs ih =>
    rcases List.mem_append.mp h with h | h
    · obtain ⟨e, -, rfl⟩ := List.mem_map.mp h
      exact Nat.le_refl n
    · exact Nat.le_of_succ_le (ih h)

theorem toFromOf_spec (n : Nat) (cs : List Command) (k i : Nat) :
    ((toFromOf n cs)[k]?.filter fun d => d.cmd == n + i) =
      if startOf cs i ≤ k then
        (redirsOf cs i)[k - startOf cs i]?.map fun d => ⟨n + i, d.1, d.2⟩
      else none := by
  induction cs generalizing n k i with
  | nil => simp [toFromOf, redirsOf]
  | cons c cs ih =>
    rw [toFromOf]
    by_cases hk : k < c.redirs.length
    · rw [List.getElem?_append_left (by simpa using hk), List.getElem?_map,
        List.getElem?_eq_getElem hk]
      cases i with
      | zero => simp [startOf_zero, redirsOf, List.getElem?_eq_getElem hk]
      | succ i =>
        rw [if_neg (by rw [startOf_cons]; omega)]
        simp
    · rw [List.getElem?_append_right (by simpa using hk), List.length_map]
      cases i with
      | zero =>
        rw [startOf_zero, if_pos (Nat.zero_le k)]
        have hnone : (redirsOf (c :: cs) 0)[k - 0]? = none :=
          List.getElem?_eq_none (Nat.not_lt.mp hk)
        rw [hnone, Option.map_none, Option.filter_eq_none_iff]
        intro d hd hcmd
        have := cmd_of_mem_toFromOf (List.mem_of_getElem? hd)
        have hcmd' : d.cmd = n := by simpa using hcmd
        omega
      | succ i =>
        have hni : n + (i + 1) = n + 1 + i := by omega
        rw [hni, ih, startOf_cons]
        by_cases hs : startOf cs i ≤ k - c.redirs.length
        · rw [if_pos hs, if_pos (by omega), Nat.sub_sub]
          rfl
        · rw [if_neg hs, if_neg (by omega)]

/-- **What stands at an index, as a redirection of command `i`.** -/
theorem attached_spec (c : Command) (cs : List Command) (k i : Nat) :
    (ctxOf c cs).attached k i =
      if startOf (c :: cs) i ≤ k then
        (redirsOf (c :: cs) i)[k - startOf (c :: cs) i]?.map fun d => ⟨i, d.1, d.2⟩
      else none := by
  have h := toFromOf_spec 0 (c :: cs) k i
  rw [Nat.zero_add] at h
  exact h

theorem attached_isSome (c : Command) (cs : List Command) (k i : Nat) :
    ((ctxOf c cs).attached k i).isSome = true ↔
      startOf (c :: cs) i ≤ k ∧ k < startOf (c :: cs) i + (redirsOf (c :: cs) i).length := by
  rw [attached_spec]
  by_cases hs : startOf (c :: cs) i ≤ k
  · rw [if_pos hs, Option.isSome_map]
    by_cases hlt : k - startOf (c :: cs) i < (redirsOf (c :: cs) i).length
    · rw [List.getElem?_eq_getElem hlt]
      simp only [Option.isSome_some, true_iff]
      omega
    · rw [List.getElem?_eq_none (Nat.not_lt.mp hlt)]
      simp only [Option.isSome_none, Bool.false_eq_true, false_iff]
      omega
  · rw [if_neg hs]
    simp [hs]

/-! ## 3. The parent's index -/

theorem nextRedir_eq (ctx : CmdCtx) (k i : Nat) :
    nextRedir ctx k i =
      (let k := if (ctx.attached k i).isSome then k + 1 else k
       if (ctx.attached (k + 1) i).isSome then k + 1 else k) := by
  unfold nextRedir
  split
  · rfl
  · rename_i hk
    have hnone : ∀ m, k ≤ m → ctx.attached m i = none := by
      intro m hm
      rw [CmdCtx.attached, List.getElem?_eq_none (Nat.le_trans (Nat.not_lt.mp hk) hm)]
      rfl
    rw [hnone k (Nat.le_refl k)]
    simp [hnone (k + 1) (Nat.le_succ k)]

/-- One pass: an index that is right stays right over a command with at most one redirection,
    and otherwise it is behind afterwards. -/
theorem nextRedir_spec (c : Command) (cs : List Command) {k i : Nat}
    (hk : k ≤ startOf (c :: cs) i) :
    nextRedir (ctxOf c cs) k i ≤ startOf (c :: cs) (i + 1) ∧
      (nextRedir (ctxOf c cs) k i = startOf (c :: cs) (i + 1) ↔
        k = startOf (c :: cs) i ∧ (redirsOf (c :: cs) i).length < 2) := by
  rw [nextRedir_eq, startOf_succ]
  by_cases h₁ : ((ctxOf c cs).attached k i).isSome = true
  · rw [if_pos h₁]
    rw [attached_isSome] at h₁
    dsimp only
    by_cases h₂ : ((ctxOf c cs).attached (k + 1 + 1) i).isSome = true
    · rw [if_pos h₂]
      rw [attached_isSome] at h₂
      omega
    · rw [if_neg h₂]
      rw [attached_isSome] at h₂
      omega
  · rw [if_neg h₁]
    rw [attached_isSome] at h₁
    dsimp only
    by_cases h₂ : ((ctxOf c cs).attached (k + 1) i).isSome = true
    · rw [if_pos h₂]
      rw [attached_isSome] at h₂
      omega
    · rw [if_neg h₂]
      rw [attached_isSome] at h₂
      omega

/-- **The index is right exactly behind commands with at most one redirection each.** -/
theorem redirIdxAt_spec {v : Variant} (hv : v ≠ .pipe5) (c : Command) (cs : List Command)
    (i : Nat) :
    redirIdxAt v (ctxOf c cs) i ≤ startOf (c :: cs) i ∧
      (redirIdxAt v (ctxOf c cs) i = startOf (c :: cs) i ↔
        ∀ j < i, (redirsOf (c :: cs) j).length < 2) := by
  induction i with
  | zero => exact ⟨Nat.le_refl 0, fun _ j hj => absurd hj (Nat.not_lt_zero j), fun _ => rfl⟩
  | succ i ih =>
    have hnext : redirIdxAt v (ctxOf c cs) (i + 1) =
        nextRedir (ctxOf c cs) (redirIdxAt v (ctxOf c cs) i) i := by
      cases v with
      | pipe7 => rfl
      | pipe6 => rfl
      | pipe5 => exact absurd rfl hv
    obtain ⟨hle, hiff⟩ := nextRedir_spec c cs ih.1
    rw [hnext]
    refine ⟨hle, hiff.trans ?_⟩
    rw [ih.2]
    constructor
    · rintro ⟨hall, hlast⟩ j hj
      rcases Nat.lt_succ_iff_lt_or_eq.mp hj with hj | rfl
      · exact hall j hj
      · exact hlast
    · intro hall
      exact ⟨fun j hj => hall j (Nat.lt_succ_of_lt hj), hall i (Nat.lt_succ_self i)⟩

/-! ## 4. A child with its redirections -/

variable {alloc : Alloc Desc} {ctx : CmdCtx} {base : Nat → Option Desc} {i : Nat} {s : Shell}
  {p : Proc} {l : List (Nat × Desc)}

/-- The base behind the redirection `d`. -/
def install (d : Redir) (mode : Mode) (base : Nat → Option Desc) : Nat → Option Desc :=
  Function.update base d.direct.fileno (some (.file d.fileName mode))

theorem install_self (d : Redir) (mode : Mode) (b : Nat → Option Desc) :
    install d mode b d.direct.fileno = some (.file d.fileName mode) :=
  Function.update_self ..

theorem install_other {d : Redir} {fd : Nat} (h : fd ≠ d.direct.fileno) (mode : Mode)
    (b : Nat → Option Desc) : install d mode b fd = b fd :=
  Function.update_of_ne h _ _

theorem openRedir_spec (alloc : Alloc Desc) (i : Nat) (d : Redir) (mode : Mode)
    (h : Extends p.fds base l) :
    ∃ p' k, openRedir (.ok alloc) i p d mode = .ok p' ∧ p'.opened = p.opened ++ [(d, mode)] ∧
      Extends p'.fds (install d mode base) ((k, .file d.fileName mode) :: l) := by
  have hopen := h.openFile alloc (.file d.fileName mode)
  obtain ⟨p', hd, ho, hext⟩ := dup2_spec []
    (p := ⟨(alloc.openFile p.fds (.file d.fileName mode)).2, p.opened ++ [(d, mode)]⟩)
    hopen d.direct
  exact ⟨p', _, hd, ho, hext⟩

/-- What a child looks at: the entry at the parent's index, and the one behind it. -/
def seen (ctx : CmdCtx) (k i : Nat) : Option Redir × Option Redir :=
  match ctx.attached k i with
  | none => (none, none)
  | some d => (some d, ctx.attached (k + 1) i)

/-- The standard descriptors at `execvp`, of a child that has seen `ds`. -/
def redirected (ctx : CmdCtx) (base : Nat → Option Desc) (i : Nat) :
    Option Redir × Option Redir → Nat → Option Desc
  | (none, _) => afterMiddle ctx i (afterPrev ctx i base)
  | (some d, none) => afterMiddle ctx i (install d (modeOf d.direct) (afterPrev ctx i base))
  | (some d, some d') =>
    install d' .CREAT_TRUNC
      (afterMiddle ctx i (install d (modeOf d.direct) (afterPrev ctx i base)))

/-- … and the files it has opened. -/
def openedBy : Option Redir × Option Redir → List (Redir × Mode)
  | (none, _) => []
  | (some d, none) => [(d, modeOf d.direct)]
  | (some d, some d') => [(d, modeOf d.direct), (d', .CREAT_TRUNC)]

theorem childExec_spec (alloc : Alloc Desc) (hp : Ports ctx s i l) (hi : i ≤ ctx.pipeNum)
    (hext : Extends s.fds base l) :
    ∃ p, childExec (.ok alloc) ctx i s = .ok p ∧ p.opened = openedBy (seen ctx s.redirIdx i) ∧
      ∀ fd ≤ 2, p.fds.get fd = redirected ctx base i (seen ctx s.redirIdx i) fd := by
  have hstart : Extends (⟨s.fds, []⟩ : Proc).fds base ([] ++ l) := hext
  cases hd : ctx.attached s.redirIdx i with
  | none =>
    have hseen : seen ctx s.redirIdx i = (none, none) := by rw [seen, hd]
    rw [hseen]
    by_cases hblock : ctx.pipeNum > 0 ∨ ctx.redirNum > 0
    · obtain ⟨p₁, h₁, ho₁, hx₁⟩ := dupPrev_spec [] hp hstart
      obtain ⟨p₂, h₂, ho₂, hx₂⟩ := dupMiddle_spec [] hp hx₁
      obtain ⟨p₃, h₃, ho₃, hx₃⟩ := closeEnds_spec [] hp hx₂
      refine ⟨p₃, ?_, ho₃.trans (ho₂.trans ho₁), fun fd hfd => hx₃.get_std hfd⟩
      rw [childExec_of_calls hblock h₁ (redirFirst_of_none hd) h₂ (redirSecond_of_none hd)]
      exact h₃
    · have h0 : ctx.pipeNum = 0 := by omega
      have hi0 : i = 0 := by omega
      refine ⟨⟨s.fds, []⟩, by rw [childExec, if_neg hblock], rfl, fun fd hfd => ?_⟩
      rw [redirected, afterPrev, if_pos h0, afterMiddle, if_neg (by simp [hi0])]
      exact hext.get_std hfd
  | some d =>
    have hblock : ctx.pipeNum > 0 ∨ ctx.redirNum > 0 := by
      refine .inr ?_
      obtain ⟨hget, -⟩ := Option.filter_eq_some_iff.mp hd
      exact Nat.lt_of_le_of_lt (Nat.zero_le _) (List.getElem?_eq_some_iff.mp hget).1
    obtain ⟨p₁, h₁, ho₁, hx₁⟩ := dupPrev_spec [] hp hstart
    obtain ⟨p₂, k₂, h₂, ho₂, hx₂⟩ := openRedir_spec alloc i d (modeOf d.direct) hx₁
    obtain ⟨p₃, h₃, ho₃, hx₃⟩ := dupMiddle_spec [(k₂, .file d.fileName (modeOf d.direct))] hp hx₂
    have hfirst : redirFirst (.ok alloc) ctx i s.redirIdx p₁ = .ok (p₂, s.redirIdx + 1) := by
      rw [redirFirst, hd]
      show (openRedir (.ok alloc) i p₁ d (modeOf d.direct) >>= _) = _
      rw [h₂]
      rfl
    cases hd' : ctx.attached (s.redirIdx + 1) i with
    | none =>
      have hseen : seen ctx s.redirIdx i = (some d, none) := by rw [seen, hd]; exact congrArg _ hd'
      obtain ⟨p₄, h₄, ho₄, hx₄⟩ := closeEnds_spec _ hp hx₃
      rw [hseen]
      refine ⟨p₄, ?_, ?_, fun fd hfd => hx₄.get_std hfd⟩
      · rw [childExec_of_calls hblock h₁ hfirst h₃ (redirSecond_of_none hd')]
        exact h₄
      · rw [ho₄, ho₃, ho₂, ho₁]
        rfl
    | some d' =>
      have hseen : seen ctx s.redirIdx i = (some d, some d') := by
        rw [seen, hd]
        exact congrArg _ hd'
      obtain ⟨p₄, k₄, h₄, ho₄, hx₄⟩ := openRedir_spec alloc i d' .CREAT_TRUNC hx₃
      obtain ⟨p₅, h₅, ho₅, hx₅⟩ := closeEnds_spec
        [(k₄, .file d'.fileName .CREAT_TRUNC), (k₂, .file d.fileName (modeOf d.direct))] hp hx₄
      have hsecond : redirSecond (.ok alloc) ctx i (s.redirIdx + 1) p₃ = .ok p₄ := by
        rw [redirSecond, hd', if_pos (Nat.succ_pos _)]
        exact h₄
      rw [hseen]
      refine ⟨p₅, ?_, ?_, fun fd hfd => hx₅.get_std hfd⟩
      · rw [childExec_of_calls hblock h₁ hfirst h₃ hsecond]
        exact h₅
      · rw [ho₅, ho₄, ho₃, ho₂, ho₁]
        rfl

/-! ## 5. One command -/

/-- What a child sees whose parent's index is right. -/
def firstTwo (i : Nat) : List (End × List UInt8) → Option Redir × Option Redir
  | [] => (none, none)
  | [d] => (some ⟨i, d.1, d.2⟩, none)
  | d :: d' :: _ => (some ⟨i, d.1, d.2⟩, some ⟨i, d'.1, d'.2⟩)

theorem seen_of_right {c : Command} {cs : List Command} {k : Nat}
    (hk : k = startOf (c :: cs) i) :
    seen (ctxOf c cs) k i = firstTwo i (redirsOf (c :: cs) i) := by
  have h₀ := attached_spec c cs k i
  have h₁ := attached_spec c cs (k + 1) i
  rw [if_pos (Nat.le_of_eq hk.symm), hk, Nat.sub_self] at h₀
  rw [if_pos (Nat.le_succ_of_le (Nat.le_of_eq hk.symm)), hk, Nat.add_sub_cancel_left] at h₁
  rw [seen, hk, h₀]
  generalize redirsOf (c :: cs) i = rs at h₁ ⊢
  rcases rs with _ | ⟨d, _ | ⟨d', rs⟩⟩
  · rfl
  · exact congrArg (Prod.mk _) h₁
  · exact congrArg (Prod.mk _) h₁

theorem seen_of_behind {c : Command} {cs : List Command} {k : Nat}
    (hk : k < startOf (c :: cs) i) : seen (ctxOf c cs) k i = (none, none) := by
  rw [seen, attached_spec, if_neg (Nat.not_le.mpr hk)]

/-- The redirections a command can have. -/
def Simple (ctx : CmdCtx) (i : Nat) : List (End × List UInt8) → Prop
  | [] => True
  | [d] => d.1 = .READ ∨ ¬ (0 < i ∧ i < ctx.pipeNum)
  | d :: d' :: rs => d'.1 = .WRITE ∧ lastFile .WRITE (d :: d' :: rs) = some d'.2 ∧
      lastFile .READ (d :: d' :: rs) = if d.1 = .READ then some d.2 else none

theorem afterMiddle_zero (b : Nat → Option Desc) : afterMiddle ctx i b 0 = b 0 := by
  unfold afterMiddle
  split
  · exact Function.update_of_ne (by decide) _ _
  · rfl

theorem afterMiddle_one (b : Nat → Option Desc) :
    afterMiddle ctx i b 1 =
      if 0 < i ∧ i < ctx.pipeNum then some (.pipeEnd i .WRITE) else b 1 := by
  unfold afterMiddle
  split
  · exact Function.update_self ..
  · rfl

theorem wired_std (ctx : CmdCtx) (base : Nat → Option Desc) (hi : i ≤ ctx.pipeNum) :
    afterPrev ctx i base 0 = stdinOf base i ∧
      afterMiddle ctx i (afterPrev ctx i base) 1 = stdoutOf ctx base i := by
  have hwired := afterMiddle_afterPrev base hi
  constructor
  · rw [← afterMiddle_zero (i := i) (afterPrev ctx i base), hwired, wired,
      Function.update_of_ne (by decide), Function.update_self]
  · rw [hwired, wired, Function.update_self]

variable {o : Origin}

theorem wantedIn_eq_file {rs : List (End × List UInt8)} {f : List UInt8} :
    wantedIn o.fds.get i rs = some (.file f .RDONLY) ↔ lastFile .READ rs = some f := by
  unfold wantedIn
  cases lastFile .READ rs with
  | some g => simp
  | none =>
    refine ⟨fun h => ?_, fun h => absurd h (by simp)⟩
    dsimp only [stdinOf] at h
    split at h
    · exact Desc.noConfusion (o.inherited _ _ h)
    · exact absurd h (by simp)

theorem wantedIn_eq_std {rs : List (End × List UInt8)} :
    wantedIn o.fds.get i rs = stdinOf o.fds.get i ↔ lastFile .READ rs = none := by
  constructor
  · intro h
    cases hl : lastFile .READ rs with
    | none => rfl
    | some g =>
      have hfile : wantedIn o.fds.get i rs = _ := wantedIn_eq_file.mpr hl
      have hnil : wantedIn o.fds.get i [] = some (.file g .RDONLY) := h.symm.trans hfile
      exact absurd (wantedIn_eq_file.mp hnil) (by simp [lastFile])
  · intro h
    rw [wantedIn, h]

theorem wantedOut_eq_file {rs : List (End × List UInt8)} {f : List UInt8} :
    wantedOut ctx o.fds.get i rs = some (.file f .CREAT_TRUNC) ↔ lastFile .WRITE rs = some f := by
  unfold wantedOut
  cases lastFile .WRITE rs with
  | some g => simp
  | none =>
    refine ⟨fun h => ?_, fun h => absurd h (by simp)⟩
    dsimp only [stdoutOf] at h
    split at h
    · exact absurd h (by simp)
    · exact Desc.noConfusion (o.inherited _ _ h)

theorem wantedOut_eq_std {rs : List (End × List UInt8)} :
    wantedOut ctx o.fds.get i rs = stdoutOf ctx o.fds.get i ↔ lastFile .WRITE rs = none := by
  constructor
  · intro h
    cases hl : lastFile .WRITE rs with
    | none => rfl
    | some g =>
      have hfile : wantedOut ctx o.fds.get i rs = _ := wantedOut_eq_file.mpr hl
      have hnil : wantedOut ctx o.fds.get i [] = some (.file g .CREAT_TRUNC) := h.symm.trans hfile
      exact absurd (wantedOut_eq_file.mp hnil) (by simp [lastFile])
  · intro h
    rw [wantedOut, h]

/-- A child that has seen its first two redirections is as it should be exactly when they are
    simple. -/
theorem redirected_iff (ctx : CmdCtx) (o : Origin) (hi : i ≤ ctx.pipeNum) (rs : List (End × List UInt8)) :
    (redirected ctx o.fds.get i (firstTwo i rs) 0 = wantedIn o.fds.get i rs ∧
      redirected ctx o.fds.get i (firstTwo i rs) 1 = wantedOut ctx o.fds.get i rs ∧
      ∀ e ∈ openedBy (firstTwo i rs), e.1.direct = .READ → e.2 = .RDONLY) ↔
    Simple ctx i rs := by
  obtain ⟨hin, hout⟩ := wired_std ctx o.fds.get hi
  have hzero : (0 : Nat) ≠ End.WRITE.fileno := by decide
  rcases rs with _ | ⟨⟨e, f⟩, _ | ⟨⟨e', f'⟩, rs⟩⟩
  · refine ⟨fun _ => trivial, fun _ => ⟨?_, hout, nofun⟩⟩
    exact (afterMiddle_zero _).trans hin
  · cases e with
    | READ =>
      refine ⟨fun _ => .inl rfl, fun _ => ⟨?_, ?_, ?_⟩⟩
      · exact (afterMiddle_zero _).trans (install_self ⟨i, .READ, f⟩ _ _)
      · refine (afterMiddle_one _).trans (Eq.trans ?_ hout)
        have hother : (1 : Nat) ≠ End.READ.fileno := by decide
        rw [afterMiddle_one, install_other hother]
      · intro e he _
        rw [List.mem_singleton.mp he]
        rfl
    | WRITE =>
      have h0 : redirected ctx o.fds.get i (firstTwo i [(.WRITE, f)]) 0 =
          wantedIn o.fds.get i [(.WRITE, f)] :=
        (afterMiddle_zero _).trans ((install_other (d := ⟨i, .WRITE, f⟩) hzero _ _).trans hin)
      have hro : ∀ e ∈ openedBy (firstTwo i [(.WRITE, f)]), e.1.direct = .READ → e.2 = .RDONLY := by
        intro e he hread
        rw [List.mem_singleton.mp he] at hread
        exact End.noConfusion hread
      have h1 : redirected ctx o.fds.get i (firstTwo i [(.WRITE, f)]) 1 =
          if 0 < i ∧ i < ctx.pipeNum then some (.pipeEnd i .WRITE)
          else some (.file f .CREAT_TRUNC) := afterMiddle_one _
      rw [h1]
      constructor
      · rintro ⟨-, h, -⟩
        refine .inr fun hm => ?_
        rw [if_pos hm] at h
        exact absurd h (by simp [wantedOut, lastFile])
      · rintro (h | hm)
        · exact End.noConfusion h
        · exact ⟨h0, by rw [if_neg hm]; rfl, hro⟩
  · cases e' with
    | READ =>
      refine ⟨fun ⟨_, _, h⟩ => ?_, fun h => End.noConfusion h.1⟩
      have hbad := h (⟨i, .READ, f'⟩, .CREAT_TRUNC) (List.mem_cons_of_mem _ List.mem_cons_self) rfl
      exact Mode.noConfusion hbad
    | WRITE =>
      have h0 : redirected ctx o.fds.get i (firstTwo i ((e, f) :: (.WRITE, f') :: rs)) 0 =
          if e = .READ then some (.file f .RDONLY) else stdinOf o.fds.get i := by
        refine (install_other (d := ⟨i, .WRITE, f'⟩) hzero _ _).trans
          ((afterMiddle_zero _).trans ?_)
        cases e with
        | READ => exact install_self ⟨i, .READ, f⟩ _ _
        | WRITE => exact (install_other (d := ⟨i, .WRITE, f⟩) hzero _ _).trans hin
      have h1 : redirected ctx o.fds.get i (firstTwo i ((e, f) :: (.WRITE, f') :: rs)) 1 =
          some (.file f' .CREAT_TRUNC) := install_self ⟨i, .WRITE, f'⟩ _ _
      have hro : ∀ d ∈ openedBy (firstTwo i ((e, f) :: (.WRITE, f') :: rs)),
          d.1.direct = .READ → d.2 = .RDONLY := by
        intro d hd hread
        rcases List.mem_cons.mp hd with rfl | hd
        · have he : e = .READ := hread
          rw [he]
          rfl
        · rw [List.mem_singleton.mp hd] at hread
          exact End.noConfusion hread
      rw [h0, h1]
      have hlast : (if e = .READ then some (.file f .RDONLY) else stdinOf o.fds.get i) =
          wantedIn o.fds.get i ((e, f) :: (.WRITE, f') :: rs) ↔
            lastFile .READ ((e, f) :: (.WRITE, f') :: rs) = if e = .READ then some f else none := by
        split
        · exact eq_comm.trans wantedIn_eq_file
        · exact eq_comm.trans wantedIn_eq_std
      constructor
      · rintro ⟨hw, hf, -⟩
        exact ⟨rfl, wantedOut_eq_file.mp hf.symm, hlast.mp hw⟩
      · rintro ⟨-, hf, hw⟩
        exact ⟨hlast.mpr hw, (wantedOut_eq_file.mpr hf).symm, hro⟩

theorem eq_nil_of_lastFile {rs : List (End × List UInt8)} (hr : lastFile .READ rs = none)
    (hw : lastFile .WRITE rs = none) : rs = [] := by
  cases rs with
  | nil => rfl
  | cons d rs =>
    obtain ⟨e, f⟩ := d
    cases e with
    | READ => exact absurd hr (by simp [lastFile])
    | WRITE => exact absurd hw (by simp [lastFile])

/-! ## 6. The pipeline -/

/-- The pipelines that get what they say: after a command with two or more redirections no
    other command has any, and those of each command are simple. -/
structure Served (c : Command) (cs : List Command) : Prop where
  alone : ∀ i j, i < j → j ≤ cs.length → 2 ≤ (redirsOf (c :: cs) i).length →
    redirsOf (c :: cs) j = []
  simple : ∀ i ≤ cs.length, Simple (ctxOf c cs) i (redirsOf (c :: cs) i)

theorem child_at {v : Variant} (hv : v ≠ .pipe5) (alloc : Alloc Desc) (c : Command)
    (cs : List Command) (o : Origin) (hi : i ≤ cs.length) :
    ∃ p, (execCmdList v (.ok alloc) (ctxOf c cs) o).children[i]? = some (.ok p) ∧
      p.opened = openedBy (seen (ctxOf c cs) (redirIdxAt v (ctxOf c cs) i) i) ∧
      ∀ fd ≤ 2, p.fds.get fd =
        redirected (ctxOf c cs) o.fds.get i (seen (ctxOf c cs) (redirIdxAt v (ctxOf c cs) i) i) fd := by
  obtain ⟨-, -, -, hch⟩ := execCmdList_spec v alloc (ctxOf c cs) o
  obtain ⟨s, ⟨hk, l, hports, hext⟩, hget⟩ := hch i (Nat.lt_succ_of_le hi)
  obtain ⟨p, hp, hop, hstd⟩ := childExec_spec alloc hports hi hext
  have hchild : v.child (.ok alloc) (ctxOf c cs) i s = .ok p := by
    cases v with
    | pipe7 => exact hp
    | pipe6 => exact hp
    | pipe5 => exact absurd rfl hv
  rw [hk] at hop hstd
  exact ⟨p, by rw [hget, hchild], hop, hstd⟩

theorem own_of_firstTwo {rs : List (End × List UInt8)} :
    ∀ e ∈ openedBy (firstTwo i rs), e.1.cmd = i ∧ (e.1.direct, e.1.fileName) ∈ rs := by
  rcases rs with _ | ⟨d, _ | ⟨d', rs⟩⟩
  · exact nofun
  · intro e he
    rw [List.mem_singleton.mp he]
    exact ⟨rfl, List.mem_cons_self⟩
  · intro e he
    rcases List.mem_cons.mp he with rfl | he
    · exact ⟨rfl, List.mem_cons_self⟩
    · rw [List.mem_singleton.mp he]
      exact ⟨rfl, List.mem_cons_of_mem _ List.mem_cons_self⟩

theorem allRedirected_iff {v : Variant} (hv : v ≠ .pipe5) (alloc : Alloc Desc) (c : Command)
    (cs : List Command) (o : Origin) : AllRedirected v alloc c cs o ↔ Served c cs := by
  have hidx := redirIdxAt_spec hv c cs
  -- a command behind one with two redirections is given none
  have hbehind : ∀ i j, i < j → 2 ≤ (redirsOf (c :: cs) i).length →
      seen (ctxOf c cs) (redirIdxAt v (ctxOf c cs) j) j = (none, none) := by
    intro i j hij hlen
    refine seen_of_behind (Nat.lt_of_le_of_ne (hidx j).1 fun heq => ?_)
    exact absurd ((hidx j).2.mp heq i hij) (Nat.not_lt.mpr hlen)
  constructor
  · intro hall
    have hright : ∀ i ≤ cs.length, (∀ j < i, (redirsOf (c :: cs) j).length < 2) →
        Simple (ctxOf c cs) i (redirsOf (c :: cs) i) := by
      intro i hi hlt
      obtain ⟨p, hget, hop, hstd⟩ := child_at hv alloc c cs o hi
      obtain ⟨p', hget', hr⟩ := hall i hi
      have hpp : p' = p := Except.ok.inj (Option.some.inj (hget'.symm.trans hget))
      subst hpp
      rw [seen_of_right ((hidx i).2.mpr hlt)] at hop hstd
      refine (redirected_iff (ctxOf c cs) o hi _).mp ⟨?_, ?_, ?_⟩
      · rw [← hstd 0 (by decide), hr.stdin]
      · rw [← hstd 1 (by decide), hr.stdout]
      · rw [← hop]
        exact hr.readOnly
    have halone : ∀ i j, i < j → j ≤ cs.length → 2 ≤ (redirsOf (c :: cs) i).length →
        redirsOf (c :: cs) j = [] := by
      intro i j hij hj hlen
      obtain ⟨p, hget, -, hstd⟩ := child_at hv alloc c cs o hj
      obtain ⟨p', hget', hr⟩ := hall j hj
      have hpp : p' = p := Except.ok.inj (Option.some.inj (hget'.symm.trans hget))
      subst hpp
      rw [hbehind i j hij hlen] at hstd
      obtain ⟨hin, hout⟩ := wired_std (ctxOf c cs) o.fds.get hj
      have h0 : p'.fds.get 0 = stdinOf o.fds.get j :=
        (hstd 0 (by decide)).trans ((afterMiddle_zero _).trans hin)
      have h1 : p'.fds.get 1 = stdoutOf (ctxOf c cs) o.fds.get j :=
        (hstd 1 (by decide)).trans hout
      exact eq_nil_of_lastFile (wantedIn_eq_std.mp (hr.stdin.symm.trans h0))
        (wantedOut_eq_std.mp (hr.stdout.symm.trans h1))
    refine ⟨halone, fun i hi => ?_⟩
    by_cases hlt : ∀ j < i, (redirsOf (c :: cs) j).length < 2
    · exact hright i hi hlt
    · obtain ⟨j, hj, hlen⟩ := not_forall₂.mp hlt
      rw [halone j i hj hi (Nat.not_lt.mp hlen)]
      exact trivial
  · intro hserved i hi
    obtain ⟨p, hget, hop, hstd⟩ := child_at hv alloc c cs o hi
    refine ⟨p, hget, ?_⟩
    by_cases hlt : ∀ j < i, (redirsOf (c :: cs) j).length < 2
    · rw [seen_of_right ((hidx i).2.mpr hlt)] at hop hstd
      obtain ⟨h0, h1, hro⟩ := (redirected_iff (ctxOf c cs) o hi _).mpr
        (hserved.simple i hi)
      refine ⟨(hstd 0 (by decide)).trans h0, (hstd 1 (by decide)).trans h1, ?_, ?_⟩
      · rw [hop]
        exact own_of_firstTwo
      · rw [hop]
        exact hro
    · obtain ⟨j, hj, hlen⟩ := not_forall₂.mp hlt
      have hlen' : 2 ≤ (redirsOf (c :: cs) j).length := Nat.not_lt.mp hlen
      rw [hbehind j i hj hlen'] at hop hstd
      rw [hserved.alone j i hj hi hlen']
      obtain ⟨hin, hout⟩ := wired_std (ctxOf c cs) o.fds.get hi
      refine ⟨?_, ?_, ?_, ?_⟩
      · exact (hstd 0 (by decide)).trans ((afterMiddle_zero _).trans hin)
      · exact (hstd 1 (by decide)).trans hout
      · rw [hop]
        exact nofun
      · rw [hop]
        exact nofun

/-- **The redirections of a pipeline go where they should exactly in the pipelines that are
    `Served`**, in the mini shell and in `pipe6`. -/
theorem redirections_iff_served (alloc : Alloc Desc) (c : Command) (cs : List Command)
    (o : Origin) :
    (AllRedirected .pipe7 alloc c cs o ↔ Served c cs) ∧
      (AllRedirected .pipe6 alloc c cs o ↔ Served c cs) :=
  ⟨allRedirected_iff (by decide) alloc c cs o, allRedirected_iff (by decide) alloc c cs o⟩

/-- A process with its three standard descriptors. -/
def terminal : Origin where
  fds := { get := fun fd => if fd < 3 then some (.inherited fd) else none
           bound := 3
           closed := fun _ h => if_neg (Nat.not_lt.mpr h) }
  inherited fd d h := by
    dsimp only at h
    split at h
    · exact (Option.some.inj h).symm
    · exact absurd h (by simp)

/-- Standard output of a child at `execvp`. -/
def stdoutAt (r : Spawned) (i : Nat) : Option Desc :=
  match r.children[i]? with
  | some (.ok p) => p.fds.get 1
  | _ => none

def silent : Command := ⟨[ascii "a"], []⟩

def logging : Command := ⟨[ascii "b"], [(.WRITE, ascii "f")]⟩

theorem logging_piped {v : Variant} (hv : v ≠ .pipe5) :
    ¬ AllRedirected v .top silent [logging, silent] terminal := by
  intro h
  obtain ⟨p, hget, hr⟩ := h 1 (by decide)
  have hgot : stdoutAt (execCmdList v (.ok .top) (ctxOf silent [logging, silent]) terminal) 1 =
      some (.pipeEnd 1 .WRITE) := by
    cases v with
    | pipe7 => rfl
    | pipe6 => rfl
    | pipe5 => exact absurd rfl hv
  have hwant : wantedOut (ctxOf silent [logging, silent]) terminal.fds.get 1
      (redirsOf [silent, logging, silent] 1) = some (.file (ascii "f") .CREAT_TRUNC) := rfl
  rw [stdoutAt, hget] at hgot
  exact absurd (hgot.symm.trans (hr.stdout.trans hwant)) (by simp)

/-- `a | b > f | c`: the output of the middle command goes into the pipe. -/
theorem middle_output_lost :
    ¬ AllRedirected .pipe7 .top silent [logging, silent] terminal ∧
      ¬ AllRedirected .pipe6 .top silent [logging, silent] terminal :=
  ⟨logging_piped (by decide), logging_piped (by decide)⟩

end Pipeline
end Labs
