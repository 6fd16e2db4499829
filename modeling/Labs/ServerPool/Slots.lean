import Labs.Lib.Progress
import Labs.ServerPool.Program

/-!
# What is in the table

A thread looks at a slot and stores into it in two steps, so two threads may take the same one, and
the descriptor that is stored first is gone. What is never wrong: a slot that is not zero holds the
descriptor of a thread that has finished looking, no descriptor is in two slots, and the slots in
front of one that is taken are taken too (`Inv`). The bytes that say who is busy are in front of the
table and do not touch it.

## A race that loses, and what it cannot break

The descriptors are stored without any synchronisation, so the table need not have one slot for each
thread. What is claimed of it has been chosen to be stable under the race. A store overwrites a
descriptor or a zero, in both cases by a descriptor whose owner has found its slot and will not look
again (`owned`); so whatever is overwritten, the slots in front stay taken (`closed`), and since
descriptors are `apart`, no two slots are the same (`single`).

The other direction is what the race destroys: that each thread has a slot. Nothing is said about it
here, and `Tables` shows that nothing could be.

Sockets are numbered in the order in which they are opened (`range`, `apart`); which thread has
which descriptor is up to the order of the steps.
-/

namespace Labs
namespace ServerPool

open Lib

variable {c : Config} {m m' : Shared} {op : SemOp Empty} {e : Event}

/-! ## 1. The shared memory -/

theorem table_store_slot (m : Shared) (l : Nat) (x : Int) :
    (m.store (FD_OFFSET + l) x).table = Function.update m.table l x := by
  funext l'
  show Function.update m.mem (FD_OFFSET + l) x (FD_OFFSET + l') = _
  by_cases h : l' = l
  · subst h
    rw [Function.update_self, Function.update_self]
  · rw [Function.update_of_ne h, Function.update_of_ne (by omega)]
    rfl

/-- A byte in front of the table. -/
theorem table_store_flag (m : Shared) {i : Nat} (h : i < FD_OFFSET) (x : Int) :
    (m.store i x).table = m.table := by
  funext l
  show Function.update m.mem i x (FD_OFFSET + l) = _
  rw [Function.update_of_ne (by omega)]
  rfl

theorem toChar_of_lt {fd : Int} (h0 : 0 ≤ fd) (h : fd < 128) : toChar fd = fd :=
  Int.bmod_eq_of_le (by omega) (by omega)

/-! ## 2. The invariant -/

namespace ServicePlace

def fd : ServicePlace → Option Int
  | .start | .socket => none
  | .look fd _ | .take fd _ | .recvfrom fd | .test fd _ => some fd

/-- The thread has come out of the loop over the slots. -/
def Settled : ServicePlace → Prop
  | .recvfrom _ | .test _ _ => True
  | _ => False

def Knows (c : Config) : ServicePlace → Shared → Prop
  | .start, _ | .socket, _ => True
  | .look _ l, m => l ≤ c.threads ∧ ∀ l' < l, m.table l' ≠ 0
  | .take _ l, m => l < c.threads ∧ ∀ l' < l, m.table l' ≠ 0
  | .recvfrom _, m | .test _ _, m => m.table 0 ≠ 0

/-- The number of sockets of the thread. -/
def sockets (pc : ServicePlace) : Nat := if pc.fd = none then 0 else 1

end ServicePlace

/-- Of the places of the threads and the memory. -/
structure Inv (c : Config) (pcs : Fin c.threads → ServicePlace) (m : Shared) : Prop where
  opened : m.opened = ∑ i, (pcs i).sockets
  range : ∀ i fd, (pcs i).fd = some fd → c.servFd < fd ∧ fd ≤ c.servFd + m.opened
  apart : ∀ i j fd, (pcs i).fd = some fd → (pcs j).fd = some fd → i = j
  knows : ∀ i, (pcs i).Knows c m
  /-- What is in a slot belongs to somebody who does not look any more. -/
  owned : ∀ l, m.table l ≠ 0 → ∃ i, (pcs i).fd = some (m.table l) ∧ (pcs i).Settled
  single : ∀ l l', m.table l ≠ 0 → m.table l = m.table l' → l = l'
  closed : ∀ l l', m.table l ≠ 0 → l' ≤ l → m.table l' ≠ 0
  within : ∀ l, m.table l ≠ 0 → l < c.threads

variable {pcs : Fin c.threads → ServicePlace} {i : Fin c.threads} {pc : ServicePlace}

theorem Inv.opened_le (h : Inv c pcs m) : m.opened ≤ c.threads := by
  rw [h.opened]
  refine (Finset.sum_le_card_nsmul Finset.univ _ 1 fun i _ => ?_).trans (by simp)
  unfold ServicePlace.sockets
  split <;> simp

theorem Inv.fd_lt (h : Inv c pcs m) {fd : Int} (hfd : (pcs i).fd = some fd) :
    0 < fd ∧ fd < 128 := by
  have hrange := h.range i fd hfd
  have hopened := h.opened_le
  have hpos := c.servFdPos
  have hfits := c.fits
  omega

/-- Somebody who is still looking has stored nothing. -/
theorem Inv.not_stored (h : Inv c pcs m) {fd : Int} (hfd : (pcs i).fd = some fd)
    (hlooks : ¬ (pcs i).Settled) (l : Nat) : m.table l ≠ fd := by
  intro hl
  have hne : m.table l ≠ 0 := by
    rw [hl]
    exact ne_of_gt (h.fd_lt hfd).1
  obtain ⟨j, hj, hsettled⟩ := h.owned l hne
  rw [hl] at hj
  have hji := h.apart j i fd hj hfd
  subst hji
  exact hlooks hsettled

theorem ServicePlace.Knows.grows (hk : pc.Knows c m)
    (hgrows : ∀ l, m.table l ≠ 0 → m'.table l ≠ 0) : pc.Knows c m' := by
  cases pc with
  | start | socket => exact trivial
  | look fd l | take fd l => exact ⟨hk.1, fun l' hl => hgrows l' (hk.2 l' hl)⟩
  | recvfrom fd | test fd last => exact hgrows 0 hk

/-- A thread goes on with the socket that it has, and the table stays as it is. -/
theorem Inv.move (h : Inv c pcs m) (htable : m'.table = m.table) (hopened : m'.opened = m.opened)
    (hfd : pc.fd = (pcs i).fd) (hsettled : (pcs i).Settled → pc.Settled) (hk : pc.Knows c m) :
    Inv c (Function.update pcs i pc) m' := by
  have hfds : ∀ j, (Function.update pcs i pc j).fd = (pcs j).fd := by
    intro j
    by_cases hj : j = i
    · subst hj
      rw [Function.update_self, hfd]
    · rw [Function.update_of_ne hj]
  refine ⟨?_, fun j fd hj => ?_, fun j j' fd hj hj' => ?_, fun j => ?_, fun l hl => ?_,
    fun l l' => ?_, fun l l' => ?_, fun l => ?_⟩
  · simp only [ServicePlace.sockets, hfds, hopened]
    exact h.opened
  · rw [hfds] at hj
    rw [hopened]
    exact h.range j fd hj
  · rw [hfds] at hj hj'
    exact h.apart j j' fd hj hj'
  · have hgrows : ∀ l, m.table l ≠ 0 → m'.table l ≠ 0 := by
      intro l
      rw [htable]
      exact id
    by_cases hj : j = i
    · subst hj
      rw [Function.update_self]
      exact hk.grows hgrows
    · rw [Function.update_of_ne hj]
      exact (h.knows j).grows hgrows
  · rw [htable] at hl ⊢
    obtain ⟨j, hj, hs⟩ := h.owned l hl
    refine ⟨j, (hfds j).trans hj, ?_⟩
    by_cases hji : j = i
    · subst hji
      rw [Function.update_self]
      exact hsettled hs
    · rw [Function.update_of_ne hji]
      exact hs
  · rw [htable]
    exact h.single l l'
  · rw [htable]
    exact h.closed l l'
  · rw [htable]
    exact h.within l

/-- A thread opens its socket. -/
theorem Inv.openSocket (h : Inv c pcs m) (hpc : pcs i = .socket) :
    Inv c (Function.update pcs i (.look (c.servFd + 1 + m.opened : Nat) 0))
      { m with opened := m.opened + 1 } := by
  have hnew : ∀ j fd, j ≠ i → (pcs j).fd = some fd → fd ≠ (c.servFd + 1 + m.opened : Nat) := by
    intro j fd _ hj hfd
    have hrange := h.range j fd hj
    rw [hfd] at hrange
    push_cast at hrange
    omega
  have hnone : (pcs i).fd = none := by
    rw [hpc]
    rfl
  have hkeeps : ∀ l, m.table l ≠ 0 → ∃ j, j ≠ i ∧ (pcs j).fd = some (m.table l) ∧
      (pcs j).Settled := by
    intro l hl
    obtain ⟨j, hj, hs⟩ := h.owned l hl
    refine ⟨j, fun hji => ?_, hj, hs⟩
    rw [hji, hnone] at hj
    cases hj
  refine ⟨?_, fun j fd hj => ?_, fun j j' fd hj hj' => ?_, fun j => ?_, fun l hl => ?_,
    h.single, h.closed, h.within⟩
  · have hsum := sum_of_moved
      (f := fun j => (Function.update pcs i (.look (c.servFd + 1 + m.opened : Nat) 0) j).sockets)
      (g := fun j => (pcs j).sockets) i fun j hj => by
        show (Function.update pcs i _ j).sockets = (pcs j).sockets
        rw [Function.update_of_ne hj]
    simp only [Function.update_self] at hsum
    have hself : (pcs i).sockets = 0 := if_pos hnone
    have hone : (ServicePlace.look (c.servFd + 1 + m.opened : Nat) 0).sockets = 1 :=
      if_neg (Option.some_ne_none _)
    rw [hself, hone, ← h.opened] at hsum
    exact hsum.symm
  · show _ ∧ fd ≤ c.servFd + ((m.opened + 1 : Nat) : Int)
    by_cases hji : j = i
    · subst hji
      rw [Function.update_self] at hj
      cases hj
      push_cast
      omega
    · rw [Function.update_of_ne hji] at hj
      have hrange := h.range j fd hj
      push_cast
      omega
  · by_cases hji : j = i
    · by_cases hji' : j' = i
      · rw [hji, hji']
      · subst hji
        rw [Function.update_self] at hj
        rw [Function.update_of_ne hji'] at hj'
        cases hj
        exact absurd rfl (hnew j' _ hji' hj')
    · rw [Function.update_of_ne hji] at hj
      by_cases hji' : j' = i
      · subst hji'
        rw [Function.update_self] at hj'
        cases hj'
        exact absurd rfl (hnew j _ hji hj)
      · rw [Function.update_of_ne hji'] at hj'
        exact h.apart j j' fd hj hj'
  · by_cases hji : j = i
    · subst hji
      rw [Function.update_self]
      exact ⟨Nat.zero_le _, fun l' hl => absurd hl (Nat.not_lt_zero l')⟩
    · rw [Function.update_of_ne hji]
      exact (h.knows j).grows fun _ => id
  · obtain ⟨j, hji, hj, hs⟩ := hkeeps l hl
    refine ⟨j, ?_, ?_⟩ <;> rw [Function.update_of_ne hji]
    · exact hj
    · exact hs

/-- A thread takes the slot that it has found free. Another one may have taken it since. -/
theorem Inv.takeSlot (h : Inv c pcs m) {fd : Int} {l : Nat} (hpc : pcs i = .take fd l) :
    Inv c (Function.update pcs i (.recvfrom fd)) (m.store (FD_OFFSET + l) (toChar fd)) := by
  have hfd : (pcs i).fd = some fd := by
    rw [hpc]
    rfl
  have hlooks : ¬ (pcs i).Settled := by
    rw [hpc]
    exact id
  obtain ⟨hpos, hlt⟩ := h.fd_lt hfd
  obtain ⟨hl, hbefore⟩ : l < c.threads ∧ ∀ l' < l, m.table l' ≠ 0 := by
    have hk := h.knows i
    rw [hpc] at hk
    exact hk
  rw [toChar_of_lt (le_of_lt hpos) hlt]
  have htable : (m.store (FD_OFFSET + l) fd).table = Function.update m.table l fd :=
    table_store_slot m l fd
  have hgrows : ∀ l', m.table l' ≠ 0 → (m.store (FD_OFFSET + l) fd).table l' ≠ 0 := by
    intro l' hl'
    rw [htable]
    by_cases hll : l' = l
    · subst hll
      rw [Function.update_self]
      exact ne_of_gt hpos
    · rw [Function.update_of_ne hll]
      exact hl'
  have hfds : ∀ j, (Function.update pcs i (.recvfrom fd) j).fd = (pcs j).fd := by
    intro j
    by_cases hj : j = i
    · subst hj
      rw [Function.update_self, hfd]
      rfl
    · rw [Function.update_of_ne hj]
  refine ⟨?_, fun j fd' hj => ?_, fun j j' fd' hj hj' => ?_, fun j => ?_, fun l₁ h₁ => ?_,
    fun l₁ l₂ h₁ h₂ => ?_, fun l₁ l₂ h₁ hle => ?_, fun l₁ h₁ => ?_⟩
  · simp only [ServicePlace.sockets, hfds]
    exact h.opened
  · rw [hfds] at hj
    exact h.range j fd' hj
  · rw [hfds] at hj hj'
    exact h.apart j j' fd' hj hj'
  · by_cases hji : j = i
    · subst hji
      rw [Function.update_self]
      show (m.store (FD_OFFSET + l) fd).table 0 ≠ 0
      rcases Nat.eq_zero_or_pos l with h0 | h0
      · rw [htable, h0, Function.update_self]
        exact ne_of_gt hpos
      · exact hgrows 0 (hbefore 0 h0)
    · rw [Function.update_of_ne hji]
      exact (h.knows j).grows hgrows
  · rw [htable] at h₁ ⊢
    by_cases hll : l₁ = l
    · subst hll
      refine ⟨i, ?_, ?_⟩
      · rw [hfds, Function.update_self, hfd]
      · rw [Function.update_self]
        exact trivial
    · rw [Function.update_of_ne hll] at h₁ ⊢
      obtain ⟨j, hj, hs⟩ := h.owned l₁ h₁
      have hji : j ≠ i := fun hji => hlooks (hji ▸ hs)
      refine ⟨j, (hfds j).trans hj, ?_⟩
      rw [Function.update_of_ne hji]
      exact hs
  · rw [htable] at h₁ h₂
    by_cases hl₁ : l₁ = l
    · by_cases hl₂ : l₂ = l
      · rw [hl₁, hl₂]
      · rw [hl₁, Function.update_self, Function.update_of_ne hl₂] at h₂
        exact absurd h₂.symm (h.not_stored hfd hlooks l₂)
    · rw [Function.update_of_ne hl₁] at h₁ h₂
      by_cases hl₂ : l₂ = l
      · rw [hl₂, Function.update_self] at h₂
        exact absurd h₂ (h.not_stored hfd hlooks l₁)
      · rw [Function.update_of_ne hl₂] at h₂
        exact h.single l₁ l₂ h₁ h₂
  · rw [htable] at h₁
    by_cases hl₁ : l₁ = l
    · subst hl₁
      rcases Nat.lt_or_eq_of_le hle with hlt' | heq
      · exact hgrows l₂ (hbefore l₂ hlt')
      · rw [heq, htable, Function.update_self]
        exact ne_of_gt hpos
    · rw [Function.update_of_ne hl₁] at h₁
      exact hgrows l₂ (h.closed l₁ l₂ h₁ hle)
  · rw [htable] at h₁
    by_cases hl₁ : l₁ = l
    · rw [hl₁]
      exact hl
    · rw [Function.update_of_ne hl₁] at h₁
      exact h.within l₁ h₁

/-! ## 3. The steps -/

theorem Inv.congr (h : Inv c pcs m) (htable : m'.table = m.table) (hopened : m'.opened = m.opened) :
    Inv c pcs m' := by
  have hmove := h.move (i := ⟨0, c.threadsPos⟩) htable hopened rfl id (h.knows _)
  rwa [Function.update_eq_self] at hmove

theorem service_inv (h : Inv c pcs m) (hstep : service c i (pcs i) m e = some (pc, m', op)) :
    Inv c (Function.update pcs i pc) m' := by
  have hk := h.knows i
  have hflag : ∀ fd, (pcs i).fd = some fd → ∀ x, (m.store fd.toNat x).table = m.table := by
    intro fd hfd x
    have hrange := h.fd_lt hfd
    exact table_store_flag m (show fd.toNat < 500 by omega) x
  cases hpc : pcs i with
  | start =>
    rw [hpc] at hstep
    cases e <;> try cases hstep
    simp only [service] at hstep
    split at hstep <;> cases hstep
    exact h.move rfl rfl (by rw [hpc]; rfl) (by rw [hpc]; exact id) trivial
  | socket =>
    rw [hpc] at hstep
    cases e <;> cases hstep
    exact h.openSocket hpc
  | look fd l =>
    rw [hpc] at hstep hk
    cases e <;> cases hstep
    obtain ⟨hl, hbefore⟩ := hk
    split
    · rename_i hlt
      split
      · exact h.move rfl rfl (by rw [hpc]; rfl) (by rw [hpc]; exact False.elim) ⟨hlt, hbefore⟩
      · rename_i hne
        refine h.move rfl rfl (by rw [hpc]; rfl) (by rw [hpc]; exact False.elim) ⟨hlt, ?_⟩
        intro l' hl'
        rcases Nat.lt_succ_iff_lt_or_eq.mp hl' with hless | rfl
        · exact hbefore l' hless
        · exact hne
    · rename_i hend
      refine h.move rfl rfl (by rw [hpc]; rfl) (by rw [hpc]; exact False.elim) ?_
      exact hbefore 0 (lt_of_lt_of_le c.threadsPos (not_lt.mp hend))
  | take fd l =>
    rw [hpc] at hstep
    cases e <;> cases hstep
    exact h.takeSlot hpc
  | recvfrom fd =>
    rw [hpc] at hstep hk hflag
    cases e <;> cases hstep
    exact h.move (hflag fd rfl 0) rfl (by rw [hpc]; rfl) (by rw [hpc]; exact id) hk
  | test fd last =>
    rw [hpc] at hstep hk hflag
    cases last with
    | true =>
      cases e <;> cases hstep
      exact h.move (hflag fd rfl 1) rfl (by rw [hpc]; rfl) (by rw [hpc]; exact id) hk
    | false =>
      cases e <;> cases hstep
      exact h.move rfl rfl (by rw [hpc]; rfl) (by rw [hpc]; exact id) hk

/-- The server does not touch the table. -/
theorem server_table {pc pc' : ServerPlace} (h : server c pc m e = some (pc', m', op)) :
    m'.table = m.table ∧ m'.opened = m.opened := by
  cases pc with
  | create i =>
    cases e <;> cases h
    exact ⟨rfl, rfl⟩
  | recvfrom =>
    cases e with
    | call threadNum sent =>
      simp only [server] at h
      split at h <;> cases h
      split <;> exact ⟨rfl, rfl⟩
    | ok | request last => cases h

/-- The places of the threads. -/
def places (s : State c) (i : Fin c.threads) : ServicePlace := s.pc (.service i)

theorem inv_init (c : Config) : Inv c (places (init c)) (init c).mem := by
  have hzero : ∀ l, (init c).mem.table l = 0 := by
    intro l
    show (if 500 + l < 20 then (1 : Int) else 0) = 0
    rw [if_neg (by omega)]
  refine ⟨?_, fun i fd hi => ?_, fun i j fd hi => ?_, fun i => trivial, fun l hl => ?_,
    fun l l' hl => ?_, fun l l' hl => ?_, fun l hl => ?_⟩
  · simp [init, places, entry, ServicePlace.sockets, ServicePlace.fd]
  · cases hi
  · cases hi
  · exact absurd (hzero l) hl
  · exact absurd (hzero l) hl
  · exact absurd (hzero l) hl
  · exact absurd (hzero l) hl

theorem inv_step (s : State c) (a : Party c × Event) (s' : State c)
    (h : Inv c (places s) s.mem) (hstep : step c s a = some s') : Inv c (places s') s'.mem := by
  obtain ⟨p, e⟩ := a
  obtain ⟨pc, m, op, sem, hnext, -, rfl⟩ := Sys.step_cases hstep
  cases p with
  | server =>
    obtain ⟨htable, hopened⟩ := server_table hnext
    have hsame : places ⟨Function.update s.pc .server pc, m, sem⟩ = places s := by
      funext i
      have hne : Party.service i ≠ .server := by simp
      show Function.update s.pc .server pc (.service i) = s.pc (.service i)
      rw [Function.update_of_ne hne]
    rw [hsame]
    exact h.congr htable hopened
  | service i =>
    have hmoved : places ⟨Function.update s.pc (.service i) pc, m, sem⟩ =
        Function.update (places s) i pc := by
      funext j
      by_cases hj : j = i
      · subst hj
        rw [Function.update_self]
        exact Function.update_self ..
      · rw [Function.update_of_ne hj]
        exact Function.update_of_ne (fun h => hj (Party.service.inj h)) _ _
    rw [hmoved]
    exact service_inv h hnext

theorem inv_of_reaches {s : State c} (h : Reaches (step c) (fun _ _ => True) (init c) s) :
    Inv c (places s) s.mem := by
  induction h with
  | start => exact inv_init c
  | next before ok moves ih => exact inv_step _ _ _ ih moves

/-! ## 4. When all have looked -/

/-- The sockets of different threads are in the first `k` slots, and the others are free. -/
structure Table (c : Config) (k : Nat) (t : Nat → Int) : Prop where
  pos : 0 < k
  le : k ≤ c.threads
  sockets : ∀ l < k, c.servFd < t l ∧ t l ≤ c.servFd + c.threads
  single : ∀ l < k, ∀ l' < k, t l = t l' → l = l'
  rest : ∀ l, k ≤ l → t l = 0

def Settled (s : State c) : Prop := ∀ i, (places s i).Settled

theorem Inv.exists_table (h : Inv c pcs m) (hall : ∀ i, (pcs i).Settled) :
    ∃ k, Table c k m.table := by
  have hfirst : m.table 0 ≠ 0 := by
    have hk := h.knows ⟨0, c.threadsPos⟩
    have hsettled := hall ⟨0, c.threadsPos⟩
    cases hpc : pcs ⟨0, c.threadsPos⟩ with
    | recvfrom fd | test fd last =>
      rw [hpc] at hk
      exact hk
    | start | socket | look fd l | take fd l =>
      rw [hpc] at hsettled
      exact absurd hsettled id
  have hfree : ∃ l, m.table l = 0 :=
    ⟨c.threads, by_contra fun hne => lt_irrefl _ (h.within _ hne)⟩
  classical
  have hbelow : ∀ l < Nat.find hfree, m.table l ≠ 0 := fun l hl => Nat.find_min hfree hl
  refine ⟨Nat.find hfree, ?_, ?_, fun l hl => ?_, fun l hl l' _ => ?_, fun l hl => ?_⟩
  · refine Nat.pos_of_ne_zero fun h0 => hfirst ?_
    have hzero := Nat.find_spec hfree
    rwa [h0] at hzero
  · exact Nat.find_min' hfree (by_contra fun hne => lt_irrefl _ (h.within _ hne))
  · obtain ⟨i, hi, -⟩ := h.owned l (hbelow l hl)
    have hrange := h.range i _ hi
    have hopened := h.opened_le
    omega
  · exact h.single l l' (hbelow l hl)
  · by_contra hne
    exact h.closed l _ hne hl (Nat.find_spec hfree)

end ServerPool
end Labs
