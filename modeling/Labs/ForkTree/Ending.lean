import Labs.ForkTree.Order

/-!
# The end of a run

A run ends where all processes have gone. So all that was due has been paid there, and with `wait`
all of the script was printed.

## Who could be left over

A process that has not gone can take a step, but for one at `wait` that has no child to collect
(`gone_of_stuck`). So if anything is left in a state where nothing can happen, it waits.

With `wait` in the loop the processes that are still there form a chain, from the one that leads
back to the first, and each is the child of the next in it. The one that leads does not wait, so it
has ended; then the next one has a child to collect after all, unless there is no next one. So the
chain is the first process alone (`Led.of_stuck`). The bound on the processes is one on the same
chain: behind each of them there is a turn of the loop that has begun.

The numbers need no chain. Each is a quantity that is due, at every place of a process, and what is
due at the start has happened when all have gone (`counted_pre` and the two behind it). That is why
they are the same in the version that does not wait.
-/

namespace Labs
namespace ForkTree

open Lib

variable {v : Version} {num p c : Nat} {m : Machine} {ps : List Nat}

/-! ## 1. Who has gone -/

/-- Nothing can happen any more. -/
def Stuck (v : Version) (num : Nat) (m : Machine) : Prop := ∀ a, step v num m a = none

theorem gone_of_stuck (h : Stuck v num m) (hp : p < m.next) :
    (m.process p).place.Gone ∨
      v = .waiting ∧ (m.process p).place = .wait ∧ ∀ z, ¬ m.IsZombie p z := by
  have hmain : ∀ e, main v num m p e = none := fun e => by
    have := h (p, e)
    rwa [step, if_pos hp] at this
  cases hpc : (m.process p).place with
  | exited => exact Or.inl (Or.inl rfl)
  | reaped => exact Or.inl (Or.inr rfl)
  | wait =>
    by_cases hv : v = .waiting
    · refine Or.inr ⟨hv, rfl, fun z hz => ?_⟩
      have := hmain (some z)
      simp [main, hpc, hv, hz] at this
    · have := hmain none
      simp [main, hpc, hv] at this
  | loop | child =>
    have := hmain none
    simp only [main, hpc] at this
    split at this <;> cases this
  | fork | parent q | word o | post =>
    have := hmain none
    simp [main, hpc] at this

theorem Led.of_stuck (h : Led num m c ps) (hsane : Sane .waiting num m)
    (hstuck : Stuck .waiting num m) : c = 1 ∧ ps = [] ∧ (m.process c).place = .exited := by
  have hborn : ∀ q ∈ c :: ps, q < m.next := fun q hq => by
    by_contra hunborn
    exact h.alive hq (hsane.unborn q (Nat.le_of_not_lt hunborn))
  have hexited : (m.process c).place = .exited := by
    have hleads := h.leads
    rcases gone_of_stuck hstuck (hborn c List.mem_cons_self) with (hpc | hpc) | ⟨-, hpc, -⟩
    · exact hpc
    all_goals
      rw [hpc] at hleads
      exact hleads.elim
  have hall := h.chain
  cases hall with
  | root => exact ⟨rfl, rfl, hexited⟩
  | @child _ p qs hppid _ hplace =>
    -- the one in front of it can go on
    exfalso
    have hmem : p ∈ c :: p :: qs := List.mem_cons_of_mem _ List.mem_cons_self
    rcases gone_of_stuck hstuck (hborn p hmem) with (hpc | hpc) | ⟨-, -, hnone⟩
    · rcases hplace with hplace | hplace <;> exact Place.noConfusion (hpc.symm.trans hplace)
    · rcases hplace with hplace | hplace <;> exact Place.noConfusion (hpc.symm.trans hplace)
    · exact hnone c ⟨hppid, hexited⟩

theorem ended_of_stuck (h : Reaches (step v num) (fun _ _ => True) start m)
    (hstuck : Stuck v num m) : Ended m := by
  have hsane := sane_of_reaches h
  intro p
  by_cases hp : p < m.next
  · rcases gone_of_stuck hstuck hp with hgone | ⟨rfl, hpc, -⟩
    · exact hgone
    · -- with `wait`, only the first process is left
      obtain ⟨-, c, ps, hled⟩ := led_of_reaches h
      obtain ⟨-, rfl, -⟩ := hled.of_stuck hsane hstuck
      have hmem := hled.mem_of_waits (p := p) (by rw [hpc]; exact id) (by rw [hpc]; decide)
      exact absurd hmem List.not_mem_nil
  · exact Or.inr (hsane.unborn p (Nat.le_of_not_lt hp))

/-! ## 2. The order -/

/-- How many processes are there or are zombies. -/
def Machine.present (m : Machine) : Nat :=
  ((List.range m.next).filter fun p => (m.process p).place ≠ .reaped).length

theorem present_le (hsane : Sane .waiting num m) (h : Led num m c ps) : m.present ≤ num + 1 := by
  have hbegun : (m.process c).begun ≤ num := by
    have hwithin := hsane.within c
    have hleads := h.leads
    cases hpc : (m.process c).place with
    | loop | fork | exited | child | post | word =>
      rw [hpc] at hwithin
      simp only [Process.begun, hpc]
      simp only [Place.Within] at hwithin
      omega
    | parent | wait | reaped =>
      rw [hpc] at hleads
      exact hleads.elim
  have hsub : (List.range m.next).filter (fun p => (m.process p).place ≠ .reaped) ⊆ c :: ps := by
    intro q hq
    by_contra hnot
    have := (List.mem_filter.mp hq).2
    simp [h.others q hnot] at this
  have hlength := (List.subperm_of_subset (List.nodup_range.filter _) hsub).length_le
  have hdeep := h.chain.length_le
  rw [List.length_cons] at hlength
  exact hlength.trans (Nat.succ_le_succ (hdeep.trans hbegun))

/-- One turn, in which the first process forks the second. -/
def oneTurn : List (Nat × Event) :=
  [(1, none), (1, none), (1, none), (2, none), (2, none), (2, none), (1, some 2), (1, none),
    (1, none)]

theorem stuck_of_gone (h : ∀ p < m.next, (m.process p).place.Gone) : Stuck v num m := by
  rintro ⟨p, e⟩
  by_cases hp : p < m.next
  · refine (if_pos hp).trans ?_
    rcases h p hp with hpc | hpc <;> simp only [main, hpc]
  · exact if_neg hp

theorem stuck_oneTurn :
    ∃ m, run (step .waiting 1) oneTurn start = some m ∧ Stuck .waiting 1 m := by
  have hrun : ∃ m, run (step .waiting 1) oneTurn start = some m ∧
      m.next = 3 ∧ ∀ p < 3, (m.process p).place.Gone := ⟨_, rfl, rfl, by decide⟩
  obtain ⟨m, hm, hnext, hgone⟩ := hrun
  exact ⟨m, hm, stuck_of_gone (by rwa [hnext])⟩

/-- **With `wait` in the loop the lines come in one order**, but for those that tell whom a process
    has forked, and there are never more than `NUM + 1` processes. -/
theorem printed_in_order (h : Reaches (step .waiting num) (fun _ _ => True) start m) :
    (m.out.filter Line.Ordered <+: .begins :: script num num 1 2) ∧
      (m.out.filterMap Line.leaver <+: exits num 1 2) ∧ m.present ≤ num + 1 ∧
      (Stuck .waiting num m →
        m.out.filter Line.Ordered = .begins :: script num num 1 2 ∧
          m.out.filterMap Line.leaver = exits num 1 2 ∧
          ∀ p, (m.process p).place = if p = 1 then .exited else .reaped) := by
  obtain ⟨hsane, c, ps, hled⟩ := led_of_reaches h
  have hleavers : (Line.begins :: script num num 1 2).filterMap Line.leaver = exits num 1 2 :=
    leavers_script num num 1 2
  have hpre : m.out.filter Line.Ordered <+: .begins :: script num num 1 2 := ⟨_, hled.said⟩
  refine ⟨hpre, ?_, present_le hsane hled, fun hstuck => ?_⟩
  · rw [← hleavers, ← leavers_ordered]
    exact hpre.filterMap _
  · obtain ⟨rfl, rfl, hexited⟩ := hled.of_stuck hsane hstuck
    have hall : m.out.filter Line.Ordered = .begins :: script num num 1 2 := by
      have hsaid := hled.said
      rw [future, future] at hsaid
      simpa only [owes, hexited, List.append_nil] using hsaid
    refine ⟨hall, ?_, fun p => ?_⟩
    · rw [← leavers_ordered, hall, hleavers]
    · split
      · rename_i hp
        rw [hp, hexited]
      · rename_i hp
        exact hled.others p fun hmem => hp (List.mem_singleton.mp hmem)

/-- The turn is a whole run: the script is complete, and the child was waited for. -/
theorem printed_in_order_one : ∃ m, run (step .waiting 1) oneTurn start = some m ∧
    Stuck .waiting 1 m ∧ m.present ≤ 2 ∧
    m.out.filter Line.Ordered = .begins :: script 1 1 1 2 ∧
    m.out.filterMap Line.leaver = exits 1 1 2 ∧
    ∀ p, (m.process p).place = if p = 1 then .exited else .reaped := by
  obtain ⟨m, hrun, hstuck⟩ := stuck_oneTurn
  obtain ⟨-, -, hpresent, hended⟩ :=
    printed_in_order (reaches_of_run (fun _ _ _ => trivial) .start hrun)
  exact ⟨m, hrun, hstuck, hpresent, hended hstuck⟩

/-! ## 3. The numbers -/

theorem counted_pre {i : Nat} (hi : i < num) (h : Reaches (step v num) (fun _ _ => True) start m) :
    m.out.countP (Line.isPre i) + total (due (tests i) num) m = 2 ^ i := by
  have hcounted : m.out.countP (Line.isPre i) + total (due (tests i) num) m =
      start.out.countP (Line.isPre i) + loopDue (tests i) num num := by
    refine counted_eq (tests i) (fun m => m.out.countP (Line.isPre i)) (fits_tests i)
      (fun _ _ _ hsane _ hmove => ?_) h
    refine countP_step (tests i) hsane hmove (fun _ _ _ => ?_) ?_ (fun _ _ _ => rfl)
      (fun _ _ => rfl) (fun _ => rfl) fun _ => ⟨rfl, rfl, rfl, rfl⟩
    · simp [tests, Line.isPre]
    · exact if_neg (Nat.ne_of_gt hi)
  rw [hcounted, loopDue_tests (Nat.le_refl num) (Nat.le_of_lt hi) (by omega), Nat.sub_self,
    Nat.sub_zero]
  exact Nat.zero_add _

theorem counted_done (h : Reaches (step v num) (fun _ _ => True) start m) :
    m.out.countP Line.isDone + total (due (tests num) num) m = 2 ^ num := by
  have hcounted : m.out.countP Line.isDone + total (due (tests num) num) m =
      start.out.countP Line.isDone + loopDue (tests num) num num := by
    refine counted_eq (tests num) (fun m => m.out.countP Line.isDone) (fits_tests num)
      (fun _ _ _ hsane _ hmove => ?_) h
    refine countP_step (tests num) hsane hmove (fun _ i hi => ?_) ?_ (fun _ _ _ => rfl)
      (fun _ _ => rfl) (fun _ => rfl) fun _ => ⟨rfl, rfl, rfl, rfl⟩
    · exact if_neg (Nat.ne_of_lt hi)
    · exact if_pos rfl
  rw [hcounted, loopDue_tests (Nat.le_refl num) (Nat.le_refl num) (by omega), Nat.sub_self,
    Nat.sub_zero]
  exact Nat.zero_add _

theorem counted_parent (h : Reaches (step v num) (fun _ _ => True) start m) :
    m.out.countP Line.isParent + total (due parents num) m = loopDue parents num num := by
  have hcounted : m.out.countP Line.isParent + total (due parents num) m =
      start.out.countP Line.isParent + loopDue parents num num := by
    refine counted_eq parents (fun m => m.out.countP Line.isParent) fits_parents
      (fun _ _ _ hsane _ hmove => ?_) h
    exact countP_step parents hsane hmove (fun _ _ _ => rfl) rfl (fun _ _ _ => rfl) (fun _ _ => rfl)
      (fun _ => rfl) fun _ => ⟨rfl, rfl, rfl, rfl⟩
  rw [hcounted]
  exact Nat.zero_add _

/-- **Waiting or not, a run makes as many calls**, and the numbers of processes and lines are
    powers of two. -/
theorem calls_counted {as : List (Nat × Event)} (hrun : run (step v num) as start = some m) :
    as.length + v.calls ≤ (v.calls + 1) * 2 ^ num ∧
      (Stuck v num m →
        as.length + v.calls = (v.calls + 1) * 2 ^ num ∧ m.next = 2 ^ num + 1 ∧
          (∀ i < num, m.out.countP (Line.isPre i) = 2 ^ i) ∧
          m.out.countP Line.isDone = 2 ^ num ∧ m.out.countP Line.isParent + 1 = 2 ^ num ∧
          ∀ p, (m.process p).place.Gone) := by
  have hreaches : Reaches (step v num) (fun _ _ => True) start m :=
    reaches_of_run (fun _ _ _ => trivial) .start hrun
  have hlength := length_eq (sane_start v num) hrun
  have hcalls := loopDue_allCalls v num num
  rw [total_start] at hlength
  refine ⟨by omega, fun hstuck => ?_⟩
  have hended := ended_of_stuck hreaches hstuck
  rw [total_eq_zero (allCalls v) hended] at hlength
  have hnext : m.next + total (due forks num) m = start.next + loopDue forks num num :=
    counted_eq forks Machine.next fits_forks (fun _ _ _ _ _ hmove => next_step hmove) hreaches
  have hforks := loopDue_forks num num
  rw [total_eq_zero forks hended] at hnext
  refine ⟨by omega, ?_, fun i hi => ?_, ?_, ?_, hended⟩
  · have hfirst : start.next = 2 := rfl
    omega
  · have hpre := counted_pre hi hreaches
    rwa [total_eq_zero (tests i) hended] at hpre
  · have hdone := counted_done hreaches
    rwa [total_eq_zero (tests num) hended] at hdone
  · have hparent := counted_parent hreaches
    have hparents := loopDue_parents num num
    rw [total_eq_zero parents hended] at hparent
    omega

theorem calls_counted_one : ∃ m, run (step .waiting 1) oneTurn start = some m ∧
    Stuck .waiting 1 m ∧
    oneTurn.length + Version.waiting.calls = (Version.waiting.calls + 1) * 2 ^ 1 ∧
    m.next = 2 ^ 1 + 1 ∧ (∀ i < 1, m.out.countP (Line.isPre i) = 2 ^ i) ∧
    m.out.countP Line.isDone = 2 ^ 1 ∧ m.out.countP Line.isParent + 1 = 2 ^ 1 ∧
    ∀ p, (m.process p).place.Gone := by
  obtain ⟨m, hrun, hstuck⟩ := stuck_oneTurn
  exact ⟨m, hrun, hstuck, (calls_counted hrun).2 hstuck⟩

end ForkTree
end Labs
