import Labs.Lib.Progress
import Labs.ConsumerSupplier.Conservation

/-!
# The semaphores

Every branch of `consume` and of `supply` releases what it has acquired before it acquires
anything else: the places say so (`program_disciplined`), and no call for a semaphore is at a place
that holds one (`program_oneAtATime`). So a semaphore is at zero exactly while one process is
between its acquire and its release, and the system does not get stuck.

The calls on the semaphores succeed here; the one that attaches the segment may fail.
-/

namespace Labs
namespace ConsumerSupplier

open Lib

variable {c : Config} {m m' : Shared c} {op : SemOp Sem} {e : Event c}

/-! ## 1. What the places say -/

theorem undo_ne_wait (c : Config) (x y : Sem) : c.undo x ≠ .wait y := by
  unfold Config.undo
  split <;> simp

/-- A semaphore that its undoing leaves taken is one of the POSIX version. -/
theorem undo_eq_leave {x y : Sem} (h : c.undo y = .leave x) : c.version = .posix ∧ y = x := by
  unfold Config.undo at h
  cases hv : c.version with
  | systemV =>
    rw [hv] at h
    cases h
  | posix =>
    rw [hv] at h
    cases h
    exact ⟨rfl, rfl⟩

/-- A semaphore stays taken only when a release fails, in the POSIX version. -/
theorem program_leave {p : Proc c} {pc pc' : Place c p} {x : Sem}
    (h : program c p pc m e = some (pc', m', .leave x)) :
    e = .fail ∧ c.version = .posix ∧ x ∈ held p pc := by
  cases p with
  | inl i =>
    change ConsumerPlace c at pc
    change consume c i pc m e = _ at h
    cases pc with
    | unlock j satisfied =>
      cases e with
      | pick j => cases h
      | ok => cases h
      | fail =>
        simp only [consume, Option.some.injEq, Prod.mk.injEq] at h
        obtain ⟨hv, rfl⟩ := undo_eq_leave h.2.2
        exact ⟨rfl, hv, rfl⟩
    | jobsUnlock =>
      cases e with
      | pick j => cases h
      | ok => cases h
      | fail =>
        simp only [consume, Option.some.injEq, Prod.mk.injEq] at h
        obtain ⟨hv, rfl⟩ := undo_eq_leave h.2.2
        exact ⟨rfl, hv, rfl⟩
    | _ => cases e <;> cases h
  | inr j =>
    change SupplierPlace at pc
    change supply c j pc m e = _ at h
    cases pc with
    | unlock =>
      cases e with
      | pick j => cases h
      | ok => cases h
      | fail =>
        simp only [supply, Option.some.injEq, Prod.mk.injEq] at h
        obtain ⟨hv, rfl⟩ := undo_eq_leave h.2.2
        exact ⟨rfl, hv, rfl⟩
    | jobsUnlock done =>
      cases e with
      | pick j => cases h
      | ok => cases h
      | fail =>
        simp only [supply, Option.some.injEq, Prod.mk.injEq] at h
        obtain ⟨hv, rfl⟩ := undo_eq_leave h.2.2
        exact ⟨rfl, hv, rfl⟩
    | _ => cases e <;> cases h

/-- No process asks for a semaphore while it has one. -/
theorem program_oneAtATime (c : Config) : OneAtATime (program c) held := by
  intro p pc m e pc' m' x h
  cases p with
  | inl i =>
    change ConsumerPlace c at pc
    change consume c i pc m e = _ at h
    cases pc with
    | unlock j satisfied =>
      cases e with
      | pick j => cases h
      | ok => cases h
      | fail =>
        simp only [consume, Option.some.injEq, Prod.mk.injEq] at h
        exact absurd h.2.2 (undo_ne_wait c _ x)
    | jobsUnlock =>
      cases e with
      | pick j => cases h
      | ok => cases h
      | fail =>
        simp only [consume, Option.some.injEq, Prod.mk.injEq] at h
        exact absurd h.2.2 (undo_ne_wait c _ x)
    | _ => cases e <;> cases h <;> rfl
  | inr j =>
    change SupplierPlace at pc
    change supply c j pc m e = _ at h
    cases pc with
    | unlock =>
      cases e with
      | pick j => cases h
      | ok => cases h
      | fail =>
        simp only [supply, Option.some.injEq, Prod.mk.injEq] at h
        exact absurd h.2.2 (undo_ne_wait c _ x)
    | jobsUnlock done =>
      cases e with
      | pick j => cases h
      | ok => cases h
      | fail =>
        simp only [supply, Option.some.injEq, Prod.mk.injEq] at h
        exact absurd h.2.2 (undo_ne_wait c _ x)
    | _ => cases e <;> cases h <;> rfl

/-- The process has ended. -/
def Exited : (p : Proc c) → Place c p → Prop
  | .inl _, pc => pc = .exited
  | .inr _, pc => pc = .exited

theorem not_exited_of_held {p : Proc c} {pc : Place c p} {x : Sem} (h : x ∈ held p pc) :
    ¬ Exited p pc := by
  intro hex
  cases p with
  | inl i => rw [show pc = ConsumerPlace.exited from hex] at h; exact h
  | inr j => rw [show pc = SupplierPlace.exited from hex] at h; exact h

/-- Until it has ended, a process has something to do that does not fail. -/
theorem exists_next {p : Proc c} (pc : Place c p) (m : Shared c) (h : ¬ Exited p pc) :
    ∃ e r, e ≠ Event.fail ∧ program c p pc m e = some r := by
  cases p with
  | inl i =>
    change ConsumerPlace c at pc
    cases pc with
    | choose => exact ⟨.pick ⟨0, c.supPos⟩, _, by simp, rfl⟩
    | exited => exact absurd rfl h
    | _ => exact ⟨.ok, _, by simp, rfl⟩
  | inr j =>
    change SupplierPlace at pc
    cases pc with
    | exited => exact absurd rfl h
    | _ => exact ⟨.ok, _, by simp, rfl⟩

theorem entry_held (c : Config) (p : Proc c) : held p (entry c p) = ∅ := by
  cases p with
  | inl i => cases hv : c.version <;> simp only [entry, hv] <;> rfl
  | inr j => cases hv : c.version <;> simp only [entry, hv] <;> rfl

/-- At the start all semaphores are free. -/
theorem locked_init (c : Config) : Locked held (init c) :=
  Locked.initial (entry_held c) fun _ => rfl

/-! ## 2. Every run whose calls on the semaphores succeed -/

/-- Before `shmat`. -/
def AtAttach : (p : Proc c) → Place c p → Prop
  | .inl _, pc => pc = .attach
  | .inr _, pc => pc = .attach

/-- Of all calls only the one that attaches the segment may fail. -/
def SemCallsSucceed (p : Proc c) (pc : Place c p) (e : Event c) : Prop :=
  e = .fail → AtAttach p pc

theorem held_attach {p : Proc c} {pc : Place c p} (h : AtAttach p pc) : held p pc = ∅ := by
  cases p with
  | inl i => rw [show pc = ConsumerPlace.attach from h]; rfl
  | inr j => rw [show pc = SupplierPlace.attach from h]; rfl

theorem program_keeps (c : Config) : KeepsWhen (program c) held SemCallsSucceed := by
  intro p pc m e pc' m' op hok h
  refine ⟨program_disciplined c _ _ _ _ _ _ _ h, fun x hx => ?_⟩
  subst hx
  -- what fails has nothing in its hands
  obtain ⟨hfail, -, hheld⟩ := program_leave h
  rw [held_attach (hok hfail)] at hheld
  exact hheld

/-- The process cannot take a step. -/
def Blocked (s : State c) (p : Proc c) : Prop :=
  ∀ e s', SemCallsSucceed p (s.pc p) e → step c s (p, e) ≠ some s'

/-- **The semaphores of every run.** -/
theorem locking_discipline {s : State c}
    (h : Reaches (step c) (fun s a => SemCallsSucceed a.1 (s.pc a.1) a.2) (init c) s) :
    (∀ x, (s.sem x = 0 ∨ s.sem x = 1) ∧ (s.sem x = 0 ↔ ∃! p, x ∈ held p (s.pc p))) ∧
      (∀ p e pc m x, program c p (s.pc p) s.mem e = some (pc, m, .wait x) →
        held p (s.pc p) = ∅) ∧
      ((∃ p, ¬ Exited p (s.pc p)) → ∃ p, ¬ Exited p (s.pc p) ∧ ¬ Blocked s p) := by
  have hlocked : Locked held s :=
    h.invariant (locked_init c) fun _ _ _ hs hok hstep => hs.step (program_keeps c) hok hstep
  refine ⟨fun x => ⟨hlocked.locks.binary x, hlocked.zero_iff x⟩, ?_, ?_⟩
  · intro p e pc m x hnext
    exact program_oneAtATime c p _ _ _ _ _ x hnext
  · rintro ⟨p, hp⟩
    have hmoves : ∀ p, ¬ Exited p (s.pc p) → ∃ e r, SemCallsSucceed p (s.pc p) e ∧
        program c p (s.pc p) s.mem e = some r := by
      intro p hpc
      obtain ⟨e, r, hne, hr⟩ := exists_next (s.pc p) s.mem hpc
      exact ⟨e, r, fun he => absurd he hne, hr⟩
    obtain ⟨q, e, s', hq, hok, hs'⟩ := hlocked.progress
      (program_oneAtATime c).ordered (fun _ => le_refl 0) hmoves
      (fun p x hx => not_exited_of_held hx) hp
    exact ⟨q, hq, fun hblocked => hblocked e s' hok hs'⟩

/-- The consumer enters the first supplier's section, and the supplier gets as far as its own
    call. -/
def meeting : List (Proc smallShop × Event smallShop) :=
  [(.inl buyer, .ok), (.inl buyer, .pick seller), (.inl buyer, .ok), (.inr seller, .ok)]

theorem locking_discipline_meeting :
    ∃ s : State smallShop, run (step smallShop) meeting (init smallShop) = some s ∧
      s.sem (smallShop.stockSem seller) = 0 ∧
      (∃! p, smallShop.stockSem seller ∈ held p (s.pc p)) ∧
      ∃ p, ¬ Exited p (s.pc p) ∧ ¬ Blocked s p := by
  have hok : ∀ a ∈ meeting, ∀ s : State smallShop, SemCallsSucceed a.1 (s.pc a.1) a.2 := by
    intro a ha s hfail
    simp only [meeting, List.mem_cons, List.not_mem_nil, or_false] at ha
    rcases ha with rfl | rfl | rfl | rfl <;> cases hfail
  have hdisc := locking_discipline (reaches_of_run hok .start rfl)
  exact ⟨_, rfl, rfl, ((hdisc.1 _).2).mp rfl, hdisc.2.2 ⟨.inl buyer, nofun⟩⟩

end ConsumerSupplier
end Labs
