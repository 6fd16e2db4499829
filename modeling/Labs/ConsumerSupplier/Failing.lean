import Labs.ConsumerSupplier.Discipline
import Labs.ConsumerSupplier.Termination

/-!
# A consumer that fails

A consumer whose call fails goes to its end, and does not take itself off `jobs` on the way. When
it had not done so before, `jobs` stays above zero for good, and no supplier leaves its loop
(`stranded_forever`). In the POSIX version it also keeps the semaphore it could not release.

What remains is the last call, in the System V version: after it `jobs` is right, and the
semaphore is released by the system (`suppliers_leave`).

## Why the order at the end matters

A consumer takes itself off `jobs` in its last section, and only then releases the semaphore. A
failure before that leaves `jobs` as it was. Then nothing but a consumer could bring it down, and
when all have left, this is a state that no step of a supplier leads out of (`Hopeless`).

A failure behind it is another matter. The number is right, and the semaphore is still taken. In the
System V version it is given back when the process ends, so the state is one that a run without a
failure comes to as well, and the invariants of these runs hold on (`Orderly`). In the POSIX version
it stays taken.
-/

namespace Labs
namespace ConsumerSupplier

open Lib

variable {c : Config}

/-! ## 1. A failure before the end -/

/-- The calls of the suppliers succeed. -/
def OnlyConsumersFail (a : Proc c × Event c) : Prop :=
  a.2 = .fail → ∃ i, a.1 = .inl i

/-- Nobody is left to bring `jobs` down, and no supplier has left. -/
structure Hopeless (s : State c) : Prop where
  gone : ∀ i, Exited (.inl i) (s.pc (.inl i))
  jobs : 0 < s.mem.jobs
  inside : ∀ j, ¬ SupplierPlace.LeftLoop (s.pc (.inr j))

/-- **Then none ever leaves.** -/
theorem stranded_forever {s s' : State c} (hs : Hopeless s)
    (h : Reaches (step c) (fun _ a => OnlyConsumersFail a) s s') : Hopeless s' := by
  refine h.invariant hs fun t a t' ht hok hstep => ?_
  obtain ⟨p, e⟩ := a
  obtain ⟨pc, m, op, sem, hnext, -, rfl⟩ := Sys.step_cases hstep
  cases p with
  | inl i =>
    rw [show t.pc (.inl i) = ConsumerPlace.exited from ht.gone i] at hnext
    cases e <;> cases hnext
  | inr j =>
    have hjobs : m.jobs = t.mem.jobs := by
      generalize t.pc (.inr j) = at_j at hnext
      change SupplierPlace at at_j
      cases at_j <;> cases e <;> cases hnext <;> rfl
    have hsucceeds : e ≠ .fail := by
      intro he
      obtain ⟨i, hi⟩ := hok he
      cases hi
    refine ⟨fun i => ?_, ?_, fun j' hleft => ?_⟩
    · show Exited (.inl i) (Function.update t.pc (.inr j) pc (.inl i))
      rw [Function.update_of_ne (by simp)]
      exact ht.gone i
    · show 0 < m.jobs
      rw [hjobs]
      exact ht.jobs
    · change SupplierPlace.LeftLoop (Function.update t.pc (.inr j) pc (.inr j')) at hleft
      by_cases hj : j' = j
      · subst hj
        rw [Function.update_self] at hleft
        rcases supply_leftLoop hsucceeds hnext hleft with hbefore | ⟨hzero, -⟩
        · exact ht.inside j' hbefore
        · exact absurd ht.jobs (not_lt.mpr hzero)
      · rw [Function.update_of_ne (fun e => hj (Sum.inr.inj e))] at hleft
        exact ht.inside j' hleft

/-- One consumer and one supplier, in either version. -/
def shop (v : Version) : Config := { smallShop with version := v }

/-- The first semaphore call of the consumer fails. -/
def mishap : (v : Version) → List (Proc (shop v) × Event (shop v))
  | .systemV => [(.inl buyer, .ok), (.inl buyer, .pick seller), (.inl buyer, .fail)]
  | .posix => [(.inl buyer, .pick seller), (.inl buyer, .fail)]

/-- All consumers have exited, `jobs` is one, and no supplier ever exits. -/
def Stranded (v : Version) : Prop :=
  ∃ s : State (shop v), Reaches (step (shop v)) (fun _ a => OnlyConsumersFail a) (init (shop v)) s ∧
    (∀ i, Exited (.inl i) (s.pc (.inl i))) ∧ s.mem.jobs = 1 ∧
    ∀ s', Reaches (step (shop v)) (fun _ a => OnlyConsumersFail a) s s' →
      ∀ j, ¬ Exited (.inr j) (s'.pc (.inr j))

theorem stranded_of_mishap (v : Version) : Stranded v := by
  have hfail : ∀ a ∈ mishap v, ∀ _s : State (shop v), OnlyConsumersFail a := by
    intro a ha _ hfail
    cases v <;> simp only [mishap, List.mem_cons, List.not_mem_nil, or_false] at ha
    · rcases ha with rfl | rfl | rfl <;> exact ⟨buyer, rfl⟩
    · rcases ha with rfl | rfl <;> exact ⟨buyer, rfl⟩
  have hrun : ∃ s : State (shop v), run (step (shop v)) (mishap v) (init (shop v)) = some s ∧
      s.pc (.inl buyer) = ConsumerPlace.exited ∧ s.mem.jobs = 1 ∧
      ¬ SupplierPlace.LeftLoop (s.pc (.inr seller)) := by
    cases v <;> exact ⟨_, rfl, rfl, by decide, id⟩
  obtain ⟨s, hs, hbuyer, hjobs, hseller⟩ := hrun
  have hone : ∀ k : Fin 1, k = ⟨0, Nat.one_pos⟩ := fun k => Fin.ext (Nat.lt_one_iff.mp k.isLt)
  have hgone : ∀ i, Exited (.inl i) (s.pc (.inl i)) := by
    intro i
    rw [show i = buyer from hone i]
    exact hbuyer
  have hhopeless : Hopeless s := by
    refine ⟨hgone, by rw [hjobs]; exact Int.one_pos, fun j => ?_⟩
    rw [show j = seller from hone j]
    exact hseller
  refine ⟨s, reaches_of_run hfail .start hs, hgone, hjobs, fun s' h j hex => ?_⟩
  refine (stranded_forever hhopeless h).inside j ?_
  rw [show s'.pc (.inr j) = SupplierPlace.exited from hex]
  trivial

/-- **In both versions.** -/
theorem stranded : Stranded .systemV ∧ Stranded .posix :=
  ⟨stranded_of_mishap _, stranded_of_mishap _⟩

/-! ## 2. Failures at the end -/

/-- Of all calls only one may fail: the release of `jobs` by a consumer, in the System V
    version. -/
def FailsHarmlessly (p : Proc c) (pc : Place c p) (e : Event c) : Prop :=
  FailsAtEnd p pc (some e) ∧ (e = .fail → c.version = .systemV)

/-- The system of the children that nobody kills. -/
def alive (s : State c) : Sys (Proc c) (Kid c) (Shared c) Sem where
  pc p := ⟨s.pc p, true⟩
  mem := s.mem
  sem := s.sem

theorem alive_step {s s' : State c} {p : Proc c} {e : Event c}
    (h : step c s (p, e) = some s') : Sys.step (child c) (alive s) (p, some e) = some (alive s') := by
  obtain ⟨pc, m, op, sem, hnext, hop, rfl⟩ := Sys.step_cases h
  have hchild : child c p ⟨s.pc p, true⟩ s.mem (some e) = some (⟨pc, true⟩, m, op) :=
    Option.map_eq_some_iff.mpr ⟨_, hnext, rfl⟩
  refine Option.bind_eq_some_iff.mpr ⟨_, hchild, Option.map_eq_some_iff.mpr ⟨sem, hop, ?_⟩⟩
  have hpc : Function.update (alive s).pc p ⟨pc, true⟩ =
      fun q => (⟨Function.update s.pc p pc q, true⟩ : Kid c q) := by
    funext q
    by_cases hq : q = p
    · subst hq
      simp
    · rw [Function.update_of_ne hq, Function.update_of_ne hq]
      rfl
  show Sys.mk (Function.update (alive s).pc p ⟨pc, true⟩) m sem = _
  rw [hpc]
  rfl

/-- The invariant of the runs. -/
structure Orderly (s : State c) : Prop where
  locked : Locked held s
  sound : Sound kidHeld DemInBounds KidKnows (alive s)
  balanced : Balanced Shared.jobs waiting 0 (alive s)

theorem failsHarmlessly_keeps (c : Config) : KeepsWhen (program c) held FailsHarmlessly := by
  intro p pc m e pc' m' op hok h
  refine ⟨program_disciplined c _ _ _ _ _ _ _ h, fun x hx => ?_⟩
  subst hx
  obtain ⟨hfail, hposix, -⟩ := program_leave h
  rw [hok.2 hfail] at hposix
  cases hposix

theorem orderly_step (hint : (c.consNum : Int) ≤ INT_MAX) (s : State c) (a : Proc c × Event c)
    (s' : State c) (h : Orderly s) (hok : FailsHarmlessly a.1 (s.pc a.1) a.2)
    (hstep : step c s a = some s') : Orderly s' := by
  obtain ⟨p, e⟩ := a
  have hkid := alive_step hstep
  refine ⟨h.locked.step (failsHarmlessly_keeps c) hok hstep, ?_, ?_⟩
  · refine h.sound.step (child_disciplined c) (fun k m op hnext => ?_) ?_ hkid
    · exact child_knows h.sound.mem (h.sound.knows p) hok.1 hnext
    · intro q k m op hne hnext hapart hk
      exact kidKnows_stable hne hnext hapart hk
  · refine h.balanced.step (fun k m op hnext => ?_) hkid
    exact child_waiting (h.sound.knows p) (jobs_bounds hint h.balanced) hok.1 hnext

theorem orderly_init (c : Config) (hint : (c.consNum : Int) ≤ INT_MAX) : Orderly (init c) :=
  ⟨locked_init c, (family_init c hint).sound, (family_init c hint).balanced⟩

/-! ## 3. The suppliers leave -/

theorem jobs_eq_zero {s : State c} (h : Orderly s)
    (hex : ∀ i, Exited (.inl i) (s.pc (.inl i))) : s.mem.jobs = 0 := by
  have hcount : s.mem.jobs = 0 + ∑ p, waiting p ((alive s).pc p) := h.balanced
  rw [hcount, zero_add]
  refine Finset.sum_eq_zero fun p _ => ?_
  cases p with
  | inl i =>
    show (if ConsumerPlace.decremented (s.pc (.inl i)) then (0 : Int) else 1) = 0
    rw [show s.pc (.inl i) = ConsumerPlace.exited from hex i]
    rfl
  | inr j => rfl

/-- The steps that a supplier has to take when there is nobody left to supply. -/
def SupplierPlace.rank : SupplierPlace → Nat
  | .attach => 9
  | .jobsUnlock false => 8
  | .lock => 7
  | .loadSup => 6
  | .storeSup _ => 5
  | .unlock => 4
  | .jobsLock => 3
  | .testJobs => 2
  | .jobsUnlock true => 1
  | .exited => 0

theorem supply_rank {j : Fin c.supNum} {pc pc' : SupplierPlace} {m m' : Shared c}
    {op : SemOp Sem} {e : Event c} (hjobs : m.jobs ≤ 0) (hok : e ≠ .fail)
    (h : supply c j pc m e = some (pc', m', op)) : pc'.rank < pc.rank := by
  cases pc with
  | testJobs =>
    cases e <;> cases h
    rw [decide_eq_true hjobs]
    simp [SupplierPlace.rank]
  | jobsUnlock done =>
    cases e with
    | pick j => cases h
    | ok =>
      cases h
      cases done <;> simp [SupplierPlace.rank]
    | fail => exact absurd rfl hok
  | _ => cases e <;> first | exact absurd rfl hok | (cases h <;> simp [SupplierPlace.rank])

/-- What the suppliers have to do together. -/
def toDo (s : State c) : Nat := ∑ j, SupplierPlace.rank (s.pc (.inr j))

/-- No consumer is left. -/
structure Deserted (s : State c) : Prop where
  orderly : Orderly s
  gone : ∀ i, Exited (.inl i) (s.pc (.inl i))

/-- **Some supplier can go on**, and that brings the end nearer. -/
theorem deserted_step (hint : (c.consNum : Int) ≤ INT_MAX) (s : State c) (h : Deserted s)
    (hnot : ¬ ∀ p, Exited p (s.pc p)) :
    ∃ a s', FailsHarmlessly a.1 (s.pc a.1) a.2 ∧ step c s a = some s' ∧ Deserted s' ∧
      toDo s' < toDo s := by
  push Not at hnot
  obtain ⟨p, hp⟩ := hnot
  have hmoves : ∀ p, ¬ Exited p (s.pc p) → ∃ e r, FailsHarmlessly p (s.pc p) e ∧
      program c p (s.pc p) s.mem e = some r := by
    intro p hpc
    obtain ⟨e, r, hne, hr⟩ := exists_next (s.pc p) s.mem hpc
    exact ⟨e, r, ⟨fun he => absurd (Option.some.inj he) hne, fun he => absurd he hne⟩, hr⟩
  obtain ⟨q, e, s', hq, hok, hs'⟩ := h.orderly.locked.progress
    (program_oneAtATime c).ordered (fun _ => le_refl 0) hmoves
    (fun p x hx => not_exited_of_held hx) hp
  have horderly := orderly_step hint s (q, e) s' h.orderly hok hs'
  cases q with
  | inl i => exact absurd (h.gone i) hq
  | inr j =>
    obtain ⟨pc, m, op, sem, hnext, -, rfl⟩ := Sys.step_cases hs'
    have hgone : ∀ i, Exited (.inl i) (Function.update s.pc (.inr j) pc (.inl i)) := by
      intro i
      rw [Function.update_of_ne (by simp)]
      exact h.gone i
    refine ⟨(.inr j, e), _, hok, hs', ⟨horderly, hgone⟩, ?_⟩
    have hless : SupplierPlace.rank pc < SupplierPlace.rank (s.pc (.inr j)) := by
      refine supply_rank (le_of_eq (jobs_eq_zero h.orderly h.gone)) (fun he => ?_) hnext
      exact hok.1 (congrArg some he)
    refine sum_lt_of_moved j (fun j' hj => ?_) ?_
    · have hne : (Sum.inr j' : Proc c) ≠ .inr j := fun e => hj (Sum.inr.inj e)
      simp only [Function.update_of_ne hne]
    · simp only [Function.update_self]
      exact hless

/-- **When nothing fails before the end, the suppliers can leave.** -/
theorem suppliers_leave (hint : (c.consNum : Int) ≤ INT_MAX) {s : State c}
    (h : Reaches (step c) (fun s a => FailsHarmlessly a.1 (s.pc a.1) a.2) (init c) s)
    (hex : ∀ i, Exited (.inl i) (s.pc (.inl i))) :
    s.mem.jobs = 0 ∧
      ∃ s', Reaches (step c) (fun s a => FailsHarmlessly a.1 (s.pc a.1) a.2) s s' ∧
        ∀ p, Exited p (s'.pc p) := by
  have horderly : Orderly s := h.invariant (orderly_init c hint) (orderly_step hint)
  refine ⟨jobs_eq_zero horderly hex, ?_⟩
  obtain ⟨s', hreach, -, hall⟩ :=
    exists_reaches_of_measure toDo (deserted_step hint) s ⟨horderly, hex⟩
  exact ⟨s', hreach, hall⟩

/-- The consumer buys what it needs and goes. -/
def errand : List (Proc smallShop × Event smallShop) :=
  (.inl buyer, .ok) :: (.inl buyer, .pick seller) :: List.replicate 15 (.inl buyer, .ok)

theorem suppliers_leave_errand :
    ∃ s : State smallShop, run (step smallShop) errand (init smallShop) = some s ∧
      s.mem.jobs = 0 ∧
      ∃ s', Reaches (step smallShop) (fun s a => FailsHarmlessly a.1 (s.pc a.1) a.2) s s' ∧
        ∀ p, Exited p (s'.pc p) := by
  have hok : ∀ a ∈ errand, ∀ s : State smallShop, FailsHarmlessly a.1 (s.pc a.1) a.2 := by
    intro a ha s
    simp only [errand, List.mem_cons, List.mem_replicate] at ha
    rcases ha with rfl | rfl | ⟨-, rfl⟩ <;> exact ⟨nofun, nofun⟩
  refine ⟨_, rfl, suppliers_leave (by decide) (reaches_of_run hok .start rfl) fun i => ?_⟩
  have hi : i = buyer := Fin.ext (Nat.lt_one_iff.mp i.isLt)
  subst hi
  rfl

end ConsumerSupplier
end Labs
