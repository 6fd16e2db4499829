import Labs.Lib.Processes

/-!
# Runs in which one process moves at a time

To show that a run exists one lets one process go on while the others stand still (`Alone`), and
then the next one. When each process of a set can do something in every memory that a property `K`
holds of, and leaves such a memory behind, all of them can do it one after another (`exists_each`).
-/

namespace Labs
namespace Lib

variable {P : Type} {Pc : P → Type} {M X E : Type} [DecidableEq P] [DecidableEq X]

/-- Only `p` moves between the two states. -/
structure Alone (next : Program P Pc M X E) (p : P) (s s' : Sys P Pc M X) : Prop where
  goes : Reaches (Sys.step next) (fun _ _ => True) s s'
  others : ∀ q, q ≠ p → s'.pc q = s.pc q

variable {next : Program P Pc M X E} {p : P} {s s' s'' : Sys P Pc M X}

theorem Alone.refl (p : P) (s : Sys P Pc M X) : Alone next p s s := ⟨.start, fun _ _ => rfl⟩

theorem Alone.trans (h : Alone next p s s') (h' : Alone next p s' s'') : Alone next p s s'' :=
  ⟨h.goes.trans h'.goes, fun q hq => (h'.others q hq).trans (h.others q hq)⟩

/-- One step that does nothing to the semaphores. -/
theorem exists_alone (s : Sys P Pc M X) (p : P) (e : E) (pc : Pc p) (m : M)
    (h : next p (s.pc p) s.mem e = some (pc, m, .skip)) :
    ∃ s', Alone next p s s' ∧ s'.pc p = pc ∧ s'.mem = m := by
  obtain ⟨s', hstep, hpc, hothers, hmem⟩ := Sys.exists_step h
  exact ⟨s', ⟨.next .start trivial hstep, hothers⟩, hpc, hmem⟩

/-- What each of them can do alone, they can do one after another. -/
theorem exists_each {Q R : (p : P) → Pc p → Prop} {K : M → Prop} (O : Finset P)
    (h : ∀ (s : Sys P Pc M X), ∀ p ∈ O, K s.mem → Q p (s.pc p) →
      ∃ s', Alone next p s s' ∧ R p (s'.pc p) ∧ K s'.mem)
    (hK : K s.mem) (hQ : ∀ p ∈ O, Q p (s.pc p)) :
    ∃ s', Reaches (Sys.step next) (fun _ _ => True) s s' ∧ (∀ p ∈ O, R p (s'.pc p)) ∧
      (∀ p ∉ O, s'.pc p = s.pc p) ∧ K s'.mem := by
  induction O using Finset.induction with
  | empty => exact ⟨s, .start, fun p hp => absurd hp (Finset.notMem_empty p), fun _ _ => rfl, hK⟩
  | insert p O hp ih =>
    obtain ⟨s₁, hgoes, hin, hout, hK₁⟩ :=
      ih (fun s q hq => h s q (Finset.mem_insert_of_mem hq))
        fun q hq => hQ q (Finset.mem_insert_of_mem hq)
    have hpc := hQ p (Finset.mem_insert_self p O)
    rw [← hout p hp] at hpc
    obtain ⟨s₂, halone, hR, hK₂⟩ := h s₁ p (Finset.mem_insert_self p O) hK₁ hpc
    refine ⟨s₂, hgoes.trans halone.goes, fun q hq => ?_, fun q hq => ?_, hK₂⟩
    · by_cases hqp : q = p
      · subst hqp
        exact hR
      · rw [halone.others q hqp]
        exact hin q ((Finset.mem_insert.mp hq).resolve_left hqp)
    · rw [Finset.mem_insert, not_or] at hq
      rw [halone.others q hq.1]
      exact hout q hq.2

end Lib
end Labs
