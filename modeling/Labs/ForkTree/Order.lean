import Labs.ForkTree.Counting

/-!
# The order of what is printed

With `wait` in the loop there is one process at a time that can go on but to say whom it has forked:
it is the last of a `Chain`, in which each one has forked the next and waits for it, or is about to
do so. All other processes have gone, and were waited for. So the lines come in one order, which is
that of `script`, but for those of the parents.

Without `wait` the processes run beside each other, and only the numbers of the lines are fixed.

## One process at a time

What is printed with `wait` could be read off the source by following it, since it is deterministic
but for one thing: behind a `fork` the parent may say whom it has forked while the child is already
on its way. The proof separates the two. `Line.Ordered` leaves out the lines of the parents; of the
others there is one order.

* `script` is that order, written down as a recursion on the turns that are left. It numbers the
  processes as they are forked in it.
* `Chain` is who waits for whom. It is the stack of the recursion: the last process is at work, and
  each of the others stands in the turn in which it has forked the next.
* `future` is what the chain will still print, the last process first. What has been printed and
  what is still to come is the whole script at any time (`Led.said`); so a step that prints takes
  the head off `future`, and a `wait` that returns takes the last process off the chain.

The numbers of processes in `script` come from `due`: how many processes somebody will still fork is
a weight of `Counting`, and it does not depend on the schedule.
-/

namespace Labs
namespace ForkTree

open Lib

variable {num p q c : Nat} {m m' : Machine} {r : Process} {ps : List Nat}

/-! ## 1. The script -/

/-- What the process `p` and its descendants print with `k` turns to go, when `q` is the number of
    the next process. -/
def script (num : Nat) : Nat → Nat → Nat → List Line
  | 0, p, _ => [.done p num]
  | k + 1, p, q =>
    let i := num - (k + 1)
    .pre i none :: .child q (.process p) none :: .post i q ::
      (script num k q (q + 1) ++ .post i p :: script num k p (q + 2 ^ k))

/-- In which order the processes leave. -/
def exits : Nat → Nat → Nat → List Nat
  | 0, p, _ => [p]
  | k + 1, p, q => exits k q (q + 1) ++ exits k p (q + 2 ^ k)

-- as it stands below the program, for three turns
example : exits 3 1 2 = [4, 3, 5, 2, 7, 6, 8, 1] := by decide

/-- The lines but those of the parents. -/
def Line.Ordered : Line → Bool
  | .parent _ _ _ => false
  | _ => true

def Line.leaver : Line → Option Nat
  | .done p _ => some p
  | _ => none

theorem leavers_script (num k p q : Nat) :
    (script num k p q).filterMap Line.leaver = exits k p q := by
  induction k generalizing p q with
  | zero => rfl
  | succ k ih =>
    show (script num k q (q + 1) ++ .post _ p ::
      script num k p (q + 2 ^ k)).filterMap Line.leaver = _
    rw [List.filterMap_append, exits, ih]
    exact congrArg (_ ++ ·) (ih p (q + 2 ^ k))

theorem leavers_ordered (out : List Line) :
    (out.filter Line.Ordered).filterMap Line.leaver = out.filterMap Line.leaver := by
  rw [List.filterMap_filter]
  refine List.filterMap_congr fun line _ => ?_
  cases line <;> rfl

/-- The turn `i` of `p` after its child has gone. -/
def rest (num i p q : Nat) : List Line := .post i p :: script num (num - (i + 1)) p q

theorem script_turn {i : Nat} (hi : i < num) (p q : Nat) : script num (num - i) p q =
    .pre i none :: .child q (.process p) none ::
      (rest num i q (q + 1) ++ rest num i p (q + 2 ^ (num - (i + 1)))) := by
  obtain ⟨k, rfl⟩ := Nat.exists_eq_add_of_lt hi
  have hk : i + k + 1 - i = k + 1 := by omega
  have hrest : i + k + 1 - (i + 1) = k := by omega
  have hturn : i + k + 1 - (k + 1) = i := by omega
  rw [rest, rest, hk, hrest, script, hturn]
  rfl

/-! ## 2. The chain -/

/-- The turns that the process has begun or that were begun for it. -/
def Process.begun (r : Process) : Nat :=
  match r.place with
  | .child | .word _ | .post => r.i + 1
  | _ => r.i

/-- `c` and the processes that wait for it, or are about to. -/
inductive Chain (m : Machine) : Nat → List Nat → Prop
  | root (ppid : (m.process 1).ppid = .shell) : Chain m 1 []
  | child {c p : Nat} {ps : List Nat} (ppid : (m.process c).ppid = .process p) (lt : p < c)
      (place : (m.process p).place = .parent c ∨ (m.process p).place = .wait)
      (deep : ps.length < (m.process c).begun) (before : Chain m p ps) : Chain m c (p :: ps)

theorem Chain.lt (h : Chain m c ps) : ∀ p ∈ ps, p < c := by
  induction h with
  | root => exact fun p hp => absurd hp List.not_mem_nil
  | child _ hlt _ _ _ ih =>
    intro q hq
    rcases List.mem_cons.mp hq with rfl | hq
    · exact hlt
    · exact (ih q hq).trans hlt

theorem Chain.not_mem (h : Chain m c ps) : c ∉ ps := fun hc => Nat.lt_irrefl c (h.lt c hc)

theorem Chain.length_le (h : Chain m c ps) : ps.length ≤ (m.process c).begun := by
  cases h with
  | root => exact Nat.zero_le _
  | child _ _ _ hdeep => exact hdeep

theorem Chain.waits (h : Chain m c ps) :
    ∀ p ∈ ps, (∃ q, (m.process p).place = .parent q) ∨ (m.process p).place = .wait := by
  induction h with
  | root => exact fun p hp => absurd hp List.not_mem_nil
  | child _ _ hplace _ _ ih =>
    intro q hq
    rcases List.mem_cons.mp hq with rfl | hq
    · exact hplace.imp_left fun hparent => ⟨_, hparent⟩
    · exact ih q hq

/-- Who waits has a child in the chain. -/
theorem Chain.exists_child (h : Chain m c ps) :
    ∀ p ∈ ps, ∃ q ∈ c :: ps, (m.process q).ppid = .process p := by
  induction h with
  | root => exact fun p hp => absurd hp List.not_mem_nil
  | child hppid _ _ _ _ ih =>
    intro q hq
    rcases List.mem_cons.mp hq with rfl | hq
    · exact ⟨_, List.mem_cons_self, hppid⟩
    · obtain ⟨z, hz, hforked⟩ := ih q hq
      exact ⟨z, List.mem_cons_of_mem _ hz, hforked⟩

theorem Chain.congr (h : Chain m c ps) (hsame : ∀ q ∈ c :: ps, m'.process q = m.process q) :
    Chain m' c ps := by
  induction h with
  | root hppid => exact .root (by rw [hsame 1 List.mem_cons_self]; exact hppid)
  | child hppid hlt hplace hdeep _ ih =>
    have hc := hsame _ List.mem_cons_self
    have hp := hsame _ (List.mem_cons_of_mem _ List.mem_cons_self)
    refine .child (by rw [hc]; exact hppid) hlt (by rw [hp]; exact hplace) (by rw [hc]; exact hdeep)
      (ih fun q hq => hsame q (List.mem_cons_of_mem _ hq))

/-- A step of one of the processes. -/
theorem Chain.move (h : Chain m c ps) (hppid : r.ppid = (m.process p).ppid)
    (hbegun : (m.process p).begun ≤ r.begun) (hplace : p ∈ ps → r.place = .wait) :
    Chain (m.move p r) c ps := by
  have hkept : ∀ q, ((m.move p r).process q).ppid = (m.process q).ppid ∧
      (m.process q).begun ≤ ((m.move p r).process q).begun := by
    intro q
    by_cases hq : q = p
    · subst hq
      rw [move_self]
      exact ⟨hppid, hbegun⟩
    · rw [move_of_ne hq]
      exact ⟨rfl, Nat.le_refl _⟩
  induction h with
  | root hroot => exact .root ((hkept 1).1.trans hroot)
  | @child c p' ps hchild hlt hwaits hdeep _ ih =>
    refine .child ((hkept _).1.trans hchild) hlt ?_ (Nat.lt_of_lt_of_le hdeep (hkept _).2)
      (ih fun hp => hplace (List.mem_cons_of_mem _ hp))
    by_cases hp : p' = p
    · subst hp
      rw [move_self]
      exact Or.inr (hplace List.mem_cons_self)
    · rw [move_of_ne hp]
      exact hwaits

theorem Chain.fork (h : Chain m c ps) (hc : c < m.next) (hplace : (m.process c).place = .fork) :
    Chain (m.fork c (m.process c)) m.next (c :: ps) := by
  have hbegun : (m.process c).begun = (m.process c).i := by
    simp only [Process.begun, hplace]
  have hmoved : Chain (m.move c { m.process c with place := .parent m.next }) c ps :=
    h.move rfl (by rw [hbegun]; exact Nat.le_refl _) fun hmem => absurd hmem h.not_mem
  have hforked : Chain (m.fork c (m.process c)) c ps := by
    refine hmoved.congr fun q hq => Function.update_of_ne (Nat.ne_of_lt ?_) ..
    rcases List.mem_cons.mp hq with rfl | hq
    · exact hc
    · exact (h.lt q hq).trans hc
  have hdeep := h.length_le
  rw [hbegun] at hdeep
  refine .child (by rw [fork_new]) hc (Or.inl (by rw [fork_self hc])) ?_ hforked
  rw [fork_new]
  exact Nat.lt_succ_of_le hdeep

/-! ## 3. What is still to be printed -/

def owes (num p : Nat) (r : Process) (q : Nat) : List Line :=
  match r.place with
  | .loop => script num (num - r.i) p q
  | .fork =>
    .child q (.process p) none ::
      (rest num r.i q (q + 1) ++ rest num r.i p (q + 2 ^ (num - (r.i + 1))))
  | .parent _ | .wait | .post => rest num r.i p q
  | .child => .child p r.ppid none :: rest num r.i p q
  | .word _ | .exited | .reaped => []

/-- What the processes of a chain print, the last one first. -/
def future (num : Nat) (m : Machine) : List Nat → Nat → List Line
  | [], _ => []
  | p :: ps, q =>
    owes num p (m.process p) q ++ future num m ps (q + due forks num (m.process p))

theorem future_congr (hsame : ∀ p ∈ ps, owes num p (m'.process p) = owes num p (m.process p) ∧
    due forks num (m'.process p) = due forks num (m.process p)) (q : Nat) :
    future num m' ps q = future num m ps q := by
  induction ps generalizing q with
  | nil => rfl
  | cons p ps ih =>
    obtain ⟨howes, hdue⟩ := hsame p List.mem_cons_self
    rw [future, future, howes, hdue, ih fun p hp => hsame p (List.mem_cons_of_mem _ hp)]

theorem future_move (hp : p ∉ ps) (q : Nat) : future num (m.move p r) ps q = future num m ps q :=
  future_congr (fun p' hp' => by
    have hne : p' ≠ p := fun heq => hp (heq ▸ hp')
    rw [move_of_ne hne]
    exact ⟨rfl, rfl⟩) q

theorem future_print (line : Line) (q : Nat) :
    future num (m.print line) ps q = future num m ps q := by
  refine future_congr (fun p _ => ?_) q
  rw [print_process]
  exact ⟨rfl, rfl⟩

/-! ## 4. Who can go on -/

/-- Where the last process of a chain can be. -/
def Place.Leads : Place → Prop
  | .parent _ | .wait | .reaped => False
  | _ => True

/-- `c` can go on, `ps` wait for it, and the others were waited for. -/
structure Led (num : Nat) (m : Machine) (c : Nat) (ps : List Nat) : Prop where
  chain : Chain m c ps
  leads : (m.process c).place.Leads
  others : ∀ q, q ∉ c :: ps → (m.process q).place = .reaped
  said : m.out.filter Line.Ordered ++ future num m (c :: ps) m.next = .begins :: script num num 1 2

theorem led_start (num : Nat) : Led num start 1 [] := by
  refine ⟨.root rfl, trivial, fun q hq => ?_, ?_⟩
  · exact if_neg fun h => hq (List.mem_singleton.mpr h)
  · show .begins :: (script num (num - 0) 1 2 ++ []) = _
    rw [List.append_nil, Nat.sub_zero]

theorem Led.alive (h : Led num m c ps) (hq : q ∈ c :: ps) : (m.process q).place ≠ .reaped := by
  intro hgone
  rcases List.mem_cons.mp hq with rfl | hq
  · have := h.leads
    rw [hgone] at this
    exact this
  · rcases h.chain.waits q hq with ⟨_, hplace⟩ | hplace
    all_goals
      rw [hgone] at hplace
      cases hplace

theorem Led.eq_of_leads (h : Led num m c ps) (hp : (m.process p).place.Leads) : p = c := by
  have hmem : p ∈ c :: ps := by
    by_contra hnot
    rw [h.others p hnot] at hp
    exact hp
  rcases List.mem_cons.mp hmem with rfl | hmem
  · rfl
  · rcases h.chain.waits p hmem with ⟨_, hplace⟩ | hplace
    all_goals
      rw [hplace] at hp
      exact hp.elim

theorem Led.mem_of_waits (h : Led num m c ps) (hp : ¬ (m.process p).place.Leads)
    (halive : (m.process p).place ≠ .reaped) : p ∈ ps := by
  by_contra hnot
  refine halive (h.others p fun hmem => ?_)
  rcases List.mem_cons.mp hmem with rfl | hmem
  · exact hp h.leads
  · exact hnot hmem

/-- The last one says a line and goes on. -/
theorem Led.say {line : Line} (h : Led num m c ps) (hppid : r.ppid = (m.process c).ppid)
    (hbegun : (m.process c).begun ≤ r.begun) (hleads : r.place.Leads) (hline : line.Ordered = true)
    (howes : owes num c (m.process c) m.next = line :: owes num c r m.next)
    (hdue : due forks num r = due forks num (m.process c)) :
    Led num ((m.move c r).print line) c ps := by
  have hnot := h.chain.not_mem
  have hmoved := h.chain.move hppid hbegun fun hmem => absurd hmem hnot
  refine ⟨hmoved.congr fun _ _ => rfl, ?_, fun q hq => ?_, ?_⟩
  · rw [print_process, move_self]
    exact hleads
  · have hne : q ≠ c := fun heq => hq (heq ▸ List.mem_cons_self)
    rw [print_process, move_of_ne hne]
    exact h.others q hq
  · rw [← h.said, print_out, List.filter_append, List.filter_cons_of_pos hline, List.filter_nil,
      List.append_assoc, future, future, howes, ← hdue]
    rw [print_process, move_self, print_next, move_next, move_out, future_print, future_move hnot]
    rfl

/-- A process tells whom it has forked, at any time. -/
theorem Led.tell (h : Led num m c ps) (hplace : (m.process p).place = .parent q) :
    Led num ((m.move p { m.process p with place := .wait }).print (.parent p (m.getppid p) q))
      c ps := by
  have hmem : p ∈ ps := h.mem_of_waits (by rw [hplace]; exact id) (by rw [hplace]; exact nofun)
  have hcp : c ≠ p := fun heq => h.chain.not_mem (heq ▸ hmem)
  have hmoved : Chain (m.move p { m.process p with place := .wait }) c ps :=
    h.chain.move rfl (by simp only [Process.begun, hplace, Nat.le_refl]) fun _ => rfl
  refine ⟨hmoved.congr fun _ _ => rfl, ?_, fun q hq => ?_, ?_⟩
  · rw [print_process, move_of_ne hcp]
    exact h.leads
  · have hne : q ≠ p := fun heq => hq (heq ▸ List.mem_cons_of_mem _ hmem)
    rw [print_process, move_of_ne hne]
    exact h.others q hq
  · rw [← h.said, print_out, List.filter_append]
    show _ ++ [] ++ _ = _
    rw [List.append_nil]
    refine congrArg (m.out.filter Line.Ordered ++ ·) (future_congr (fun q _ => ?_) _)
    rw [print_process]
    by_cases hq : q = p
    · subst hq
      rw [move_self]
      refine ⟨?_, ?_⟩
      · funext N
        simp only [owes, hplace]
      · simp only [due, hplace, forks]
    · rw [move_of_ne hq]
      exact ⟨rfl, rfl⟩

/-- A process forks, and its child is the last one then. -/
theorem Led.fork (h : Led num m c ps) (hc : c < m.next) (hplace : (m.process c).place = .fork) :
    Led num (m.fork c (m.process c)) m.next (c :: ps) := by
  have hold : ∀ q ∈ ps, q ≠ c ∧ q ≠ m.next := fun q hq =>
    ⟨Nat.ne_of_lt (h.chain.lt q hq), Nat.ne_of_lt ((h.chain.lt q hq).trans hc)⟩
  refine ⟨h.chain.fork hc hplace, ?_, fun q hq => ?_, ?_⟩
  · rw [fork_new]
    exact trivial
  · have hnew : q ≠ m.next := fun heq => hq (heq ▸ List.mem_cons_self)
    have hnot : q ∉ c :: ps := fun hmem => hq (List.mem_cons_of_mem _ hmem)
    have hne : q ≠ c := fun heq => hnot (heq ▸ List.mem_cons_self)
    rw [fork_of_ne hne hnew]
    exact h.others q hnot
  · obtain ⟨k, hk⟩ : ∃ k, k = num - ((m.process c).i + 1) := ⟨_, rfl⟩
    have hforks := loopDue_forks num k
    have hbefore : future num (m.fork c (m.process c)) ps = future num m ps := by
      funext N
      refine future_congr (fun q hq => ?_) N
      rw [fork_of_ne (hold q hq).1 (hold q hq).2]
      exact ⟨rfl, rfl⟩
    have hchild : m.next + 1 + loopDue forks num k = m.next + 2 ^ k := by omega
    have hself : m.next + 2 ^ k + loopDue forks num k = m.next + (1 + 2 * loopDue forks num k) := by
      omega
    rw [← h.said, fork_out, fork_next]
    refine congrArg (m.out.filter Line.Ordered ++ ·) ?_
    rw [future, future, future, fork_new, fork_self hc, hbefore]
    simp only [owes, due, hplace, forks, ← hk, Nat.zero_add, Nat.add_zero, Nat.mul_zero, hchild,
      hself, List.cons_append, List.append_assoc]

/-- `wait` returns the last one, and the one that waited is the last one then. -/
theorem Led.reap {z : Nat} (h : Led num m c ps) (hplace : (m.process p).place = .wait)
    (hz : m.IsZombie p z) :
    ∃ c' ps', Led num ((m.move z { m.process z with place := .reaped }).move p
      { m.process p with place := .post }) c' ps' := by
  have hzc : z = c := h.eq_of_leads (by rw [hz.2]; exact trivial)
  subst hzc
  obtain ⟨hforked, hexited⟩ := hz
  have hall := h.chain
  cases hall with
  | root hroot =>
    rw [hroot] at hforked
    cases hforked
  | @child _ p' ps' hppid hlt _ _ hbefore =>
    have hpp : p' = p := by
      rw [hppid] at hforked
      exact Parent.process.inj hforked
    subst hpp
    have hne : p' ≠ z := Nat.ne_of_lt hlt
    have hnot : p' ∉ ps' := hbefore.not_mem
    have hgone : ∀ q ∈ p' :: ps', q ≠ z := fun q hq heq => h.chain.not_mem (heq ▸ hq)
    have hreaped : Chain (m.move z { m.process z with place := .reaped }) p' ps' :=
      hbefore.congr fun q hq => move_of_ne (hgone q hq)
    refine ⟨p', ps', ?_, ?_, fun q hq => ?_, ?_⟩
    · refine hreaped.move (by rw [move_of_ne hne]) ?_ fun hmem => absurd hmem hnot
      rw [move_of_ne hne]
      simp only [Process.begun, hplace, Nat.le_add_right]
    · rw [move_self]
      exact trivial
    · have hqp : q ≠ p' := fun heq => hq (heq ▸ List.mem_cons_self)
      rw [move_of_ne hqp]
      by_cases hqz : q = z
      · subst hqz
        rw [move_self]
      · rw [move_of_ne hqz]
        refine h.others q fun hmem => ?_
        rcases List.mem_cons.mp hmem with heq | hmem
        · exact hqz heq
        · exact hq hmem
    · have hrest : future num ((m.move z { m.process z with place := .reaped }).move p'
          { m.process p' with place := .post }) ps' = future num m ps' := by
        funext N
        rw [future_move hnot, future_move fun hmem => hgone z (List.mem_cons_of_mem _ hmem) rfl]
      rw [← h.said, move_out, move_out, move_next, move_next, future, future, future, move_self,
        hrest]
      simp only [owes, due, hplace, hexited, forks, Nat.add_zero, Nat.zero_add, List.nil_append]

theorem getppid_chain (h : Chain m c ps) : m.getppid c = (m.process c).ppid := by
  cases h with
  | root hroot => simp only [Machine.getppid, hroot]
  | @child _ p _ hppid _ hplace =>
    have hthere : ¬ (m.process p).place.Gone := by
      rcases hplace with hplace | hplace
      all_goals
        rw [hplace]
        exact nofun
    simp only [Machine.getppid, hppid, if_neg hthere]

/-- **A step keeps the chain.** -/
theorem led_step (hsane : Sane .waiting num m) (hp : p < m.next) (h : Led num m c ps)
    (hmove : Move .waiting num m p m') : ∃ c' ps', Led num m' c' ps' := by
  have hwithin := hsane.within p
  cases hmove with
  | turn hpc hmore =>
    have hpc' : p = c := h.eq_of_leads (by rw [hpc]; exact trivial)
    subst hpc'
    refine ⟨p, ps, h.say rfl ?_ trivial rfl ?_ ?_⟩
    · simp only [Process.begun, hpc, Nat.le_refl]
    · simp only [owes, hpc, script_turn hmore, if_true]
    · simp only [due, hpc, loopDue_succ forks hmore, forks]
  | leave hpc henough =>
    have hpc' : p = c := h.eq_of_leads (by rw [hpc]; exact trivial)
    subst hpc'
    have hlast : num - (m.process p).i = 0 := Nat.sub_eq_zero_of_le henough
    rw [hpc] at hwithin
    have hnum : (m.process p).i = num := Nat.le_antisymm hwithin henough
    refine ⟨p, ps, h.say rfl ?_ trivial rfl ?_ ?_⟩
    · simp only [Process.begun, hpc, Nat.le_refl]
    · simp only [owes, hpc, hlast]
      rw [script, hnum]
    · simp only [due, hpc, hlast, loopDue, forks]
  | fork hpc =>
    have hpc' : p = c := h.eq_of_leads (by rw [hpc]; exact trivial)
    subst hpc'
    exact ⟨_, _, h.fork hp hpc⟩
  | parent q hpc => exact ⟨c, ps, h.tell hpc⟩
  | reap z hpc hzombie => exact h.reap hpc hzombie
  | goOn hpc halone =>
    -- a process that waits has a child
    have hmem : p ∈ ps := h.mem_of_waits (by rw [hpc]; exact id) (by rw [hpc]; decide)
    obtain ⟨q, hq, hforked⟩ := h.chain.exists_child p hmem
    have hborn : q < m.next := by
      by_contra hunborn
      exact h.alive hq (hsane.unborn q (Nat.le_of_not_lt hunborn))
    exact absurd ⟨q, hborn, hforked, h.alive hq⟩ (halone rfl)
  | child hpc =>
    have hpc' : p = c := h.eq_of_leads (by rw [hpc]; exact trivial)
    subst hpc'
    refine ⟨p, ps, h.say rfl ?_ trivial rfl ?_ ?_⟩
    · simp only [Process.begun, hpc, Nat.le_refl]
    · simp only [owes, hpc, getppid_chain h.chain]
    · simp only [due, hpc, forks, Nat.zero_add]
  | word _ hsleeps => exact absurd rfl hsleeps
  | orphan _ hpc =>
    rw [hpc] at hwithin
    exact absurd rfl hwithin.1
  | post hpc =>
    have hpc' : p = c := h.eq_of_leads (by rw [hpc]; exact trivial)
    subst hpc'
    refine ⟨p, ps, h.say rfl ?_ trivial rfl ?_ ?_⟩
    · simp only [Process.begun, hpc, Nat.le_refl]
    · simp only [owes, hpc, rest]
    · simp only [due, hpc, forks, Nat.zero_add]

theorem led_of_reaches (h : Reaches (step .waiting num) (fun _ _ => True) start m) :
    Sane .waiting num m ∧ ∃ c ps, Led num m c ps := by
  refine @Reaches.invariant _ _ (step .waiting num) (fun _ _ => True) start m
    (fun m => Sane .waiting num m ∧ ∃ c ps, Led num m c ps)
    ⟨sane_start _ num, 1, [], led_start num⟩ (fun s a s' hs _ hstep => ?_) h
  obtain ⟨hsane, c, ps, hled⟩ := hs
  obtain ⟨hborn, hmove⟩ := move_of_step hstep
  exact ⟨sane_step hsane hborn hmove, led_step hsane hborn hled hmove⟩

end ForkTree
end Labs
