import Labs.IncrProg.Program
import Mathlib.Data.List.Nodup

/-!
# Every value is announced once

While the semaphore is free the counter is at most the cap, and what has been announced is every
value up to the counter (`Rest`). The process inside is the only one that looks at the counter or
changes it: it adds one when it has seen that the cap is not reached, and announces what it has
made before it lets another one in.

A process leaves its loop when it has seen the cap reached, and then it stays reached.

## One process inside

All that happens to the counter happens under the semaphore, so there are two states of the segment
to describe: `Rest`, when nobody is inside, and `Ahead`, when somebody has incremented and not yet
announced. The loop of a process goes from one to the other and back. The program is a case of
`Lib.Progress`, with one semaphore, and the invariant is kept by the process inside because it is
the only one there.

A value is announced by whoever has made it, before the next one is made. Hence the announced values
are in order, and each occurs once; `upTo` is that list. While somebody is inside the last value may
be missing, which is all that is said of such a state (`Inv.counter`).

That the cap stays reached is what lets a process leave without the semaphore: the counter does not
go down (`program_incr`).
-/

namespace Labs
namespace IncrProg

open Lib

variable {c : Config} {m m' : Shared} {op : SemOp Unit} {e : Event} {pc pc' : Place}

/-! ## 1. The semaphore -/

def Place.inside : Place → Prop
  | .loadIncr | .testLess _ | .load | .store _ | .announce | .loadEnd | .testReached _
  | .unlock _ => True
  | _ => False

def held : (p : Fin c.procNum) → Place → Set Unit := heldInside fun _ => Place.inside

/-- All calls succeed. -/
def Succeeds (_ : Fin c.procNum) (_ : Place) (e : Event) : Prop := e ≠ .fail

theorem program_keeps (c : Config) : KeepsWhen (program c) held Succeeds := by
  intro p pc m e pc' m' op hok h
  change incrSubroutine c.version pc m e = some (pc', m', op) at h
  cases pc with
  | lock =>
    cases e with
    | ok =>
      cases h
      exact Passes.keeps (.inr (.inl ⟨rfl, id, trivial⟩))
    | fail => exact absurd rfl hok
  | testLess incr =>
    cases e with
    | ok =>
      cases h
      split <;> exact SemOp.keeps_skip _
    | fail => cases h
  | unlock reached =>
    cases e with
    | ok =>
      cases h
      refine Passes.keeps (.inr (.inr ⟨rfl, trivial, ?_⟩))
      cases reached <;> exact id
    | fail => exact absurd rfl hok
  | _ =>
    cases e with
    | ok => cases h <;> exact SemOp.keeps_skip _
    | fail => exact absurd rfl hok

/-! ## 2. The counter -/

/-- The values from one up to `n`. -/
def upTo (n : Int) : List Int := (List.range n.toNat).map fun (k : Nat) => (k : Int) + 1

theorem upTo_succ {n : Int} (hn : 0 ≤ n) : upTo (n + 1) = upTo n ++ [n + 1] := by
  have hnat : (n + 1).toNat = n.toNat + 1 := by omega
  unfold upTo
  rw [hnat, List.range_succ, List.map_append]
  simp [Int.toNat_of_nonneg hn]

theorem upTo_nodup (n : Int) : (upTo n).Nodup := by
  refine List.Nodup.map (fun a b hab => ?_) List.nodup_range
  have hab : (a : Int) + 1 = b + 1 := hab
  omega

theorem mem_upTo {n v : Int} : v ∈ upTo n ↔ 1 ≤ v ∧ v ≤ n := by
  unfold upTo
  rw [List.mem_map]
  constructor
  · rintro ⟨k, hk, rfl⟩
    rw [List.mem_range] at hk
    omega
  · rintro ⟨h1, hn⟩
    exact ⟨(v - 1).toNat, List.mem_range.mpr (by omega), by omega⟩

/-- The cap is as it was set up, and the counter does not exceed it. -/
structure Capped (c : Config) (m : Shared) : Prop where
  cap : m.cap = c.incrNum
  nonneg : 0 ≤ m.incr
  le : m.incr ≤ c.incrNum

/-- What holds while nobody is inside: every value of the counter has been announced. -/
structure Rest (c : Config) (m : Shared) : Prop extends Capped c m where
  announced : m.announced = upTo m.incr

/-- The counter has been incremented and the new value has not been announced. -/
structure Ahead (c : Config) (m : Shared) : Prop extends Capped c m where
  pos : 0 < m.incr
  announced : m.announced = upTo (m.incr - 1)

/-- What a process knows at its place. -/
def Place.Knows (c : Config) : Place → Shared → Prop
  | .loadIncr, m | .loadEnd, m => Rest c m
  | .testLess incr, m | .testReached incr, m => Rest c m ∧ incr = m.incr
  | .load, m => Rest c m ∧ m.incr < c.incrNum
  | .store incr, m => Rest c m ∧ m.incr < c.incrNum ∧ incr = m.incr
  | .announce, m => Ahead c m
  | .unlock reached, m => Rest c m ∧ (reached = true → m.incr = c.incrNum)
  | .exited, m => m.incr = c.incrNum
  | _, _ => True

theorem wrap32_next (hm : Capped c m) (hless : m.incr < c.incrNum) :
    wrap32 (m.incr + 1) = m.incr + 1 := by
  refine wrap32_of_inRange ⟨?_, ?_⟩
  · exact le_trans (by decide : INT_MIN ≤ 0 + 1) (Int.add_le_add_right hm.nonneg 1)
  · exact le_trans hless c.incrOk.2

/-- **A step of the process inside.** -/
theorem program_knows (hok : e ≠ .fail) (hk : pc.Knows c m)
    (h : incrSubroutine c.version pc m e = some (pc', m', op))
    (hwait : op = .wait () → Rest c m) : pc'.Knows c m' ∧ (op = .post () → Rest c m') := by
  cases e with
  | fail => exact absurd rfl hok
  | ok =>
    cases pc with
    | lock =>
      cases h
      exact ⟨hwait rfl, nofun⟩
    | loadIncr | loadEnd =>
      cases h
      exact ⟨⟨hk, rfl⟩, nofun⟩
    | testLess incr =>
      cases h
      obtain ⟨hrest, rfl⟩ := hk
      refine ⟨?_, nofun⟩
      split
      · rename_i hless
        rw [hrest.cap] at hless
        exact ⟨hrest, hless⟩
      · exact hrest
    | load =>
      cases h
      exact ⟨⟨hk.1, hk.2, rfl⟩, nofun⟩
    | store incr =>
      cases h
      obtain ⟨hrest, hless, rfl⟩ := hk
      rw [wrap32_next hrest.toCapped hless]
      refine ⟨⟨⟨hrest.cap, ?_, hless⟩, ?_, ?_⟩, nofun⟩
      · exact le_trans hrest.nonneg (by simp)
      · exact Int.lt_add_one_of_le hrest.nonneg
      · show m.announced = upTo (m.incr + 1 - 1)
        rw [hrest.announced, Int.add_sub_cancel]
    | announce =>
      cases h
      have hahead : Ahead c m := hk
      refine ⟨⟨⟨hahead.cap, hahead.nonneg, hahead.le⟩, ?_⟩, nofun⟩
      have hsucc := upTo_succ (n := m.incr - 1) (Int.le_sub_one_of_lt hahead.pos)
      rw [Int.sub_add_cancel] at hsucc
      show m.announced ++ [m.incr] = upTo m.incr
      rw [hahead.announced, hsucc]
    | testReached incr =>
      cases h
      obtain ⟨hrest, rfl⟩ := hk
      refine ⟨⟨hrest, fun hreached => ?_⟩, nofun⟩
      have hle := of_decide_eq_true hreached
      rw [hrest.cap] at hle
      exact le_antisymm hrest.le hle
    | unlock reached =>
      cases h
      refine ⟨?_, fun _ => hk.1⟩
      cases reached with
      | true => exact hk.2 rfl
      | false => trivial
    | exited => cases h
    | _ =>
      cases h
      exact ⟨trivial, nofun⟩

/-- Outside nobody changes the segment. -/
theorem program_outside (h : incrSubroutine c.version pc m e = some (pc', m', op))
    (hout : ¬ pc.inside) : m' = m := by
  cases pc with
  | store incr => exact absurd trivial hout
  | announce => exact absurd trivial hout
  | _ => cases e <;> cases h <;> rfl

/-- The counter never goes down, and at the cap it stays. -/
theorem program_incr (hk : pc.Knows c m)
    (h : incrSubroutine c.version pc m e = some (pc', m', op)) :
    m.incr ≤ m'.incr ∧ (m.incr = c.incrNum → m'.incr = c.incrNum) := by
  cases pc with
  | store incr =>
    cases e <;> cases h
    obtain ⟨hrest, hless, rfl⟩ := hk
    dsimp only
    rw [wrap32_next hrest.toCapped hless]
    exact ⟨by simp, fun hcap => absurd hcap (ne_of_lt hless)⟩
  | _ => cases e <;> cases h <;> exact ⟨le_refl _, id⟩

/-! ## 3. Every run -/

def Inv (s : State c) : Prop :=
  Guarded held (fun _ => Rest c) (fun _ pc => pc.Knows c) s

theorem inv_init (c : Config) : Inv (init c) := by
  have hentry : ¬ c.version.entry.inside := by
    cases c.version <;> exact id
  refine ⟨.initial (fun p => heldInside_of_outside hentry) fun _ => rfl, fun _ _ => ?_, fun p => ?_⟩
  · exact ⟨⟨rfl, le_refl _, le_of_lt c.incrOk.1⟩, rfl⟩
  · show c.version.entry.Knows c _
    cases c.version <;> trivial

theorem inv_step (s : State c) (a : Fin c.procNum × Event) (s' : State c) (h : Inv s)
    (hok : Succeeds a.1 (s.pc a.1) a.2) (hstep : step c s a = some s') : Inv s' := by
  obtain ⟨p, e⟩ := a
  refine Guarded.step h (program_keeps c) hok ?_ ?_ ?_ hstep
  · intro pc m op hnext hwait
    obtain ⟨hknows, hpost⟩ := program_knows hok (h.knows p) hnext (hwait ())
    exact ⟨hknows, fun _ hx => hpost hx⟩
  · intro x pc m op hnext hout hrest
    rw [program_outside hnext hout]
    exact hrest
  · intro q pc m op hne hnext hapart hk
    by_cases hp : (s.pc p).inside
    · -- then `q` is outside, and knows something only when it has seen the cap reached
      have hq : ¬ (s.pc q).inside := fun hq => hapart () hp hq
      generalize s.pc q = at_q at hk hq
      cases at_q with
      | exited => exact (program_incr (h.knows p) hnext).2 hk
      | shmat | shmOpen | mmap | semOpen | lock => trivial
      | _ => exact absurd trivial hq
    · rw [program_outside hnext hp]
      exact hk

/-- The counter is in its bounds, and what has been announced ends at it or just before it. -/
theorem Inv.counter {s : State c} (h : Inv s) :
    Capped c s.mem ∧ ∃ n, n ≤ s.mem.incr ∧ s.mem.announced = upTo n := by
  have hrest : Rest c s.mem → Capped c s.mem ∧ ∃ n, n ≤ s.mem.incr ∧ s.mem.announced = upTo n :=
    fun h => ⟨h.toCapped, _, le_refl _, h.announced⟩
  rcases h.locked.locks.binary () with h0 | h1
  · obtain ⟨p, hp⟩ := h.locked.owned () h0
    have hk : (s.pc p).Knows c s.mem := h.knows p
    change (s.pc p).inside at hp
    generalize s.pc p = pc at hp hk
    cases pc with
    | loadIncr | loadEnd => exact hrest hk
    | testLess incr | testReached incr | load | store incr | unlock reached => exact hrest hk.1
    | announce =>
      have hahead : Ahead c s.mem := hk
      exact ⟨hahead.toCapped, _, Int.sub_le_self _ Int.one_nonneg, hahead.announced⟩
    | _ => exact absurd hp id
  · exact hrest (h.free () (by rw [h1]; exact Int.one_pos))

/-- **The counter of every run.** -/
theorem shared_counter {s : State c}
    (h : Reaches (step c) (fun s a => Succeeds a.1 (s.pc a.1) a.2) (init c) s) :
    s.mem.incr ≤ c.incrNum ∧
      (∀ a s', step c s a = some s' → s.mem.incr ≤ s'.mem.incr) ∧
      (∀ v, s.mem.announced.count v ≤ 1 ∧ (v ∈ s.mem.announced → 1 ≤ v ∧ v ≤ c.incrNum)) ∧
      ((∀ p, s.pc p = .exited) → s.mem.incr = c.incrNum ∧
        ∀ v, 1 ≤ v → v ≤ c.incrNum → s.mem.announced.count v = 1) := by
  have hinv : Inv s := h.invariant (inv_init c) inv_step
  obtain ⟨hcapped, n, hn, hannounced⟩ := hinv.counter
  refine ⟨hcapped.le, ?_, fun v => ⟨?_, fun hv => ?_⟩, fun hall => ?_⟩
  · rintro ⟨p, e⟩ s' hstep
    obtain ⟨pc, m, op, sem, hnext, -, rfl⟩ := Sys.step_cases hstep
    exact (program_incr (hinv.knows p) hnext).1
  · rw [hannounced]
    exact List.nodup_iff_count_le_one.mp (upTo_nodup n) v
  · rw [hannounced, mem_upTo] at hv
    exact ⟨hv.1, le_trans hv.2 (le_trans hn hcapped.le)⟩
  · have hreached : s.mem.incr = c.incrNum := by
      have hk : (s.pc ⟨0, c.procPos⟩).Knows c s.mem := hinv.knows _
      rw [hall] at hk
      exact hk
    have hfree : 0 < s.sem () := by
      rcases hinv.locked.locks.binary () with h0 | h1
      · obtain ⟨p, hp⟩ := hinv.locked.owned () h0
        have hin : (s.pc p).inside := hp
        rw [hall] at hin
        exact hin.elim
      · rw [h1]
        exact Int.one_pos
    refine ⟨hreached, fun v h1 hv => ?_⟩
    rw [(hinv.free () hfree).announced, hreached]
    exact List.count_eq_one_of_mem (upTo_nodup _) (mem_upTo.mpr ⟨h1, hv⟩)

/-- Two processes that count to one. -/
def pair : Config where
  version := .systemV
  procNum := 2
  incrNum := 1
  procPos := Nat.two_pos
  incrOk := ⟨Int.one_pos, by decide⟩

/-- The first process counts, and the second one finds the cap reached. -/
def counting : List (Fin pair.procNum × Event) :=
  List.replicate 10 (⟨0, Nat.two_pos⟩, .ok) ++ List.replicate 7 (⟨1, Nat.one_lt_two⟩, .ok)

theorem shared_counter_counting :
    ∃ s : State pair, run (step pair) counting (init pair) = some s ∧ s.mem.incr = 1 ∧
      s.mem.announced.count 1 = 1 := by
  have hok : ∀ a ∈ counting, ∀ s : State pair, Succeeds a.1 (s.pc a.1) a.2 := by
    intro a ha s
    simp only [counting, List.mem_append, List.mem_replicate] at ha
    rcases ha with ⟨-, rfl⟩ | ⟨-, rfl⟩ <;> nofun
  obtain ⟨s, hs⟩ : ∃ s : State pair, run (step pair) counting (init pair) = some s := ⟨_, rfl⟩
  have hexited : ∀ p, s.pc p = .exited := by
    intro p
    cases hs
    obtain ⟨k, hk⟩ := p
    match k, hk with
    | 0, _ => rfl
    | 1, _ => rfl
  obtain ⟨hreached, hall⟩ := (shared_counter (reaches_of_run hok .start hs)).2.2.2 hexited
  exact ⟨s, hs, hreached, hall 1 (le_refl 1) (le_refl 1)⟩

end IncrProg
end Labs
