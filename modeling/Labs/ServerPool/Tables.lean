import Labs.Lib.Solo
import Labs.ServerPool.Slots

/-!
# Which tables the threads can leave

Every table with the sockets of some threads in its first slots is what some order of the steps
leads to. All threads open their sockets. Those that are not to be in the table find the first slot
free, together with the one that is to be in it, and store into it first. The others come one after
another, each to the next slot.

Once all threads have looked the table stays as it is, and the server loses the package of every
client for which it draws a slot that is still free.

## Constructing a race

For each table that `Slots` allows there is an order of the steps that leads to it. The construction
does as little at once as possible. First all threads open their sockets in their order, so the
descriptor of a thread is known (`fdOf`). Then everybody who is to be lost, and the one who is to
win, find the first slot free, one after another, and nobody stores. Now the losers store, each over
the one before, and the winner last. Every other thread then walks past the slots that are taken and
takes the next one by itself.

Each of these is a run of threads one after another, of a whole set of them; `Has` says where the
threads of the set are, and the lemmas about sets come from `Lib.Solo`. What is left to check of a
single thread is a step or two.

The last section is about what a table means for clients. It is not part of the construction: once
nobody is looking, the table stays for ever, and which packages are lost can be read off the draws.
-/

namespace Labs
namespace ServerPool

open Lib

variable {c : Config} {s : State c} {i : Fin c.threads}

/-! ## 1. One thread at a time -/

/-- The descriptor of a thread, when they open their sockets in order. -/
def fdOf (i : Fin c.threads) : Int := (c.servFd + 1 + i.val : Nat)

theorem fdOf_range (i : Fin c.threads) : 0 < fdOf i ∧ fdOf i < 128 := by
  have hfits := c.fits
  have hi := i.isLt
  unfold fdOf
  omega

theorem exists_alone_service (s : State c) (i : Fin c.threads) (e : Event) (pc : ServicePlace)
    (m : Shared) (h : service c i (s.pc (.service i)) s.mem e = some (pc, m, .skip)) :
    ∃ s', Alone (program c) (.service i) s s' ∧ s'.pc (.service i) = pc ∧ s'.mem = m :=
  exists_alone s (.service i) e pc m h

/-- The thread finds its slot free. -/
theorem exists_found {fd : Int} {l : Nat} (hpc : s.pc (.service i) = ServicePlace.look fd l)
    (hl : l < c.threads) (hfree : s.mem.table l = 0) :
    ∃ s', Alone (program c) (.service i) s s' ∧
      s'.pc (.service i) = ServicePlace.take fd l ∧ s'.mem = s.mem := by
  apply exists_alone_service s i .ok
  rw [hpc]
  simp [service, hl, hfree]

/-- The thread stores into the slot that it has found. -/
theorem exists_taken {l : Nat} (hpc : s.pc (.service i) = ServicePlace.take (fdOf i) l) :
    ∃ s', Alone (program c) (.service i) s s' ∧
      s'.pc (.service i) = ServicePlace.recvfrom (fdOf i) ∧
      s'.mem.table = Function.update s.mem.table l (fdOf i) := by
  obtain ⟨s', halone, hpc', hmem⟩ := exists_alone_service s i .ok (.recvfrom (fdOf i))
    (s.mem.store (FD_OFFSET + l) (toChar (fdOf i))) (by rw [hpc]; rfl)
  have hrange := fdOf_range i
  refine ⟨s', halone, hpc', ?_⟩
  rw [hmem, toChar_of_lt (le_of_lt hrange.1) hrange.2, table_store_slot]

/-- The thread goes past the slots that are taken. -/
theorem exists_walked {fd : Int} (n l : Nat) (hpc : s.pc (.service i) = ServicePlace.look fd l)
    (hl : l + n ≤ c.threads) (htaken : ∀ j < n, s.mem.table (l + j) ≠ 0) :
    ∃ s', Alone (program c) (.service i) s s' ∧
      s'.pc (.service i) = ServicePlace.look fd (l + n) ∧ s'.mem = s.mem := by
  induction n with
  | zero => exact ⟨s, .refl _ s, hpc, rfl⟩
  | succ n ih =>
    obtain ⟨s₁, halone₁, hpc₁, hm₁⟩ := ih (by omega) fun j hj => htaken j (by omega)
    have hne := htaken n (Nat.lt_succ_self n)
    have hlt : l + n < c.threads := by omega
    obtain ⟨s₂, halone₂, hpc₂, hm₂⟩ := exists_alone_service s₁ i .ok
      (.look fd (l + n + 1)) s₁.mem (by rw [hpc₁, hm₁]; simp [service, hlt, hne])
    exact ⟨s₂, halone₁.trans halone₂, hpc₂, hm₂.trans hm₁⟩

/-! ## 2. The sockets are open -/

theorem exists_created (c : Config) (n : Nat) (hn : n ≤ c.threads) :
    ∃ s, Reaches (step c) (fun _ _ => True) (init c) s ∧
      (s.pc .server = if n < c.threads then ServerPlace.create n else .recvfrom) ∧
      (∀ i, s.pc (.service i) = ServicePlace.start) ∧ s.mem = { (init c).mem with created := n } := by
  induction n with
  | zero => exact ⟨init c, .start, (if_pos c.threadsPos).symm, fun _ => rfl, rfl⟩
  | succ n ih =>
    obtain ⟨s₁, hreach₁, hserver₁, hservice₁, hm₁⟩ := ih (by omega)
    rw [if_pos (by omega)] at hserver₁
    obtain ⟨s₂, halone, hpc, hm⟩ := @exists_alone _ _ _ _ _ _ _ (program c) s₁ .server .ok
      (if n + 1 < c.threads then ServerPlace.create (n + 1) else .recvfrom)
      { s₁.mem with created := n + 1 } (by rw [hserver₁]; rfl)
    refine ⟨s₂, hreach₁.trans halone.goes, hpc, fun i => ?_, by rw [hm, hm₁]⟩
    rw [halone.others _ (by simp)]
    exact hservice₁ i

/-- All threads have a socket, and nobody has looked at the table. -/
structure Opened (n : Nat) (s : State c) : Prop where
  looking : ∀ i : Fin c.threads, i.val < n → s.pc (.service i) = ServicePlace.look (fdOf i) 0
  others : ∀ i : Fin c.threads, n ≤ i.val → s.pc (.service i) = ServicePlace.start
  created : s.mem.created = c.threads
  opened : s.mem.opened = n
  table : s.mem.table = fun _ => 0

theorem exists_opened (c : Config) (n : Nat) (hn : n ≤ c.threads) :
    ∃ s : State c, Reaches (step c) (fun _ _ => True) (init c) s ∧ Opened n s := by
  induction n with
  | zero =>
    obtain ⟨s, hreach, -, hservice, hm⟩ := exists_created c c.threads (le_refl _)
    refine ⟨s, hreach, fun i hi => absurd hi (Nat.not_lt_zero _), fun i _ => hservice i, ?_, ?_, ?_⟩
    · rw [hm]
    · rw [hm]
      rfl
    · rw [hm]
      funext l
      show (if 500 + l < 20 then (1 : Int) else 0) = 0
      rw [if_neg (by omega)]
  | succ n ih =>
    obtain ⟨s, hreach, hopen⟩ := ih (by omega)
    have hpc := hopen.others ⟨n, hn⟩ (le_refl n)
    have hcreated : n < s.mem.created := by
      rw [hopen.created]
      exact hn
    obtain ⟨s₁, halone₁, hpc₁, hm₁⟩ := exists_alone_service s ⟨n, hn⟩ .ok .socket s.mem
      (by rw [hpc]; exact if_pos hcreated)
    obtain ⟨s₂, halone₂, hpc₂, hm₂⟩ := exists_alone_service s₁ ⟨n, hn⟩ .ok
      (.look (c.servFd + 1 + s₁.mem.opened : Nat) 0)
      { s₁.mem with opened := s₁.mem.opened + 1 } (by rw [hpc₁]; rfl)
    have halone := halone₁.trans halone₂
    have hother : ∀ j : Fin c.threads, j.val ≠ n → s₂.pc (.service j) = s.pc (.service j) :=
      fun j hj => halone.others _ fun h => hj (congrArg Fin.val (Party.service.inj h))
    refine ⟨s₂, hreach.trans halone.goes, fun j hj => ?_, fun j hj => ?_, ?_, ?_, ?_⟩
    · rcases Nat.lt_succ_iff_lt_or_eq.mp hj with hlt | heq
      · rw [hother j (ne_of_lt hlt)]
        exact hopen.looking j hlt
      · obtain rfl : j = ⟨n, hn⟩ := Fin.ext heq
        rw [hpc₂, hm₁, hopen.opened]
        rfl
    · rw [hother j (by omega)]
      exact hopen.others j (by omega)
    · rw [hm₂, hm₁]
      exact hopen.created
    · rw [hm₂, hm₁]
      show s.mem.opened + 1 = n + 1
      rw [hopen.opened]
    · rw [hm₂, hm₁]
      exact hopen.table

/-! ## 3. The slots are taken -/

/-- What the threads of a set do, when each is at the place that `f` says. -/
def Has (f : Fin c.threads → ServicePlace) : (p : Party c) → Place p → Prop
  | .server, _ => True
  | .service i, pc => pc = f i

/-- The parties of a set of threads. -/
def parties (O : Finset (Fin c.threads)) : Finset (Party c) := O.image Party.service

theorem mem_parties {O : Finset (Fin c.threads)} : .service i ∈ parties O ↔ i ∈ O := by
  simp [parties]

/-- Each thread of a set does the same, one after another. -/
theorem exists_all {f g : Fin c.threads → ServicePlace} {K : Shared → Prop}
    (O : Finset (Fin c.threads))
    (h : ∀ (s : State c), ∀ i ∈ O, K s.mem → s.pc (.service i) = f i →
      ∃ s', Alone (program c) (.service i) s s' ∧ s'.pc (.service i) = g i ∧ K s'.mem)
    (hK : K s.mem) (hf : ∀ i ∈ O, s.pc (.service i) = f i) :
    ∃ s', Reaches (step c) (fun _ _ => True) s s' ∧ (∀ i ∈ O, s'.pc (.service i) = g i) ∧
      (∀ i ∉ O, s'.pc (.service i) = s.pc (.service i)) ∧ K s'.mem := by
  have hsingle : ∀ p ∈ parties O, ∃ i ∈ O, Party.service i = p :=
    fun p hp => Finset.mem_image.mp hp
  obtain ⟨s', hreach, hin, hout, hK'⟩ := @exists_each _ _ _ _ _ _ _ (program c) s (Has f) (Has g) K
    (parties O)
    (fun s₁ p hp hK₁ hQ => by
      obtain ⟨i, hi, rfl⟩ := hsingle p hp
      exact h s₁ i hi hK₁ hQ)
    hK (fun p hp => by
      obtain ⟨i, hi, rfl⟩ := hsingle p hp
      exact hf i hi)
  exact ⟨s', hreach, fun i hi => hin _ (mem_parties.mpr hi),
    fun i hi => hout _ fun hmem => hi (mem_parties.mp hmem), hK'⟩

/-- The first `l` slots hold what they are to hold. The threads for the others have not looked, and
    nobody else is looking any more. -/
structure Filled (k : Nat) (t : Nat → Int) (who : Nat → Fin c.threads) (l : Nat) (s : State c) :
    Prop where
  waiting : ∀ j, l ≤ j → j < k → s.pc (.service (who j)) = ServicePlace.look (fdOf (who j)) 0
  settled : ∀ i, (∀ j, l ≤ j → j < k → who j ≠ i) → (places s i).Settled
  table : s.mem.table = fun j => if j < l then t j else 0

variable {k l : Nat} {t : Nat → Int} {who : Nat → Fin c.threads}

/-- The thread for the next slot. -/
theorem Filled.next (h : Filled k t who l s) (ht : Table c k t) (hl : l < k)
    (hwho : ∀ j < k, fdOf (who j) = t j) :
    ∃ s', Reaches (step c) (fun _ _ => True) s s' ∧ Filled k t who (l + 1) s' := by
  have hle := ht.le
  have htaken : ∀ j < l, s.mem.table (0 + j) ≠ 0 := by
    intro j hj
    have hsocket := (ht.sockets j (by omega)).1
    rw [Nat.zero_add, h.table]
    show (if j < l then t j else 0) ≠ 0
    rw [if_pos hj]
    omega
  obtain ⟨s₁, halone₁, hpc₁, hm₁⟩ := exists_walked l 0 (h.waiting l (le_refl l) hl) (by omega) htaken
  rw [Nat.zero_add] at hpc₁
  obtain ⟨s₂, halone₂, hpc₂, hm₂⟩ := exists_found hpc₁ (by omega)
    (by rw [hm₁, h.table]; exact if_neg (lt_irrefl l))
  obtain ⟨s₃, halone₃, hpc₃, hm₃⟩ := exists_taken hpc₂
  have halone := (halone₁.trans halone₂).trans halone₃
  have hother : ∀ j, who l ≠ j → s₃.pc (.service j) = s.pc (.service j) :=
    fun j hj => halone.others _ fun h => hj (Party.service.inj h).symm
  have hapart : ∀ j, l < j → j < k → who l ≠ who j := by
    intro j hlj hj heq
    have hsame := ht.single l hl j hj (by rw [← hwho l hl, ← hwho j hj, heq])
    omega
  refine ⟨s₃, halone.goes, fun j hj hjk => ?_, fun i hi => ?_, ?_⟩
  · rw [hother _ (hapart j hj hjk)]
    exact h.waiting j (by omega) hjk
  · show (ServicePlace.Settled (s₃.pc (.service i)))
    by_cases hil : who l = i
    · subst hil
      rw [hpc₃]
      exact trivial
    · rw [hother i hil]
      refine h.settled i fun j hj hjk => ?_
      rcases Nat.lt_or_eq_of_le hj with hlt | heq
      · exact hi j hlt hjk
      · exact heq ▸ hil
  · rw [hm₃, hm₂, hm₁, h.table, hwho l hl]
    funext j
    by_cases hjl : j = l
    · subst hjl
      rw [Function.update_self, if_pos (Nat.lt_succ_self j)]
    · rw [Function.update_of_ne hjl]
      have hiff : j < l + 1 ↔ j < l := by omega
      simp only [hiff]

theorem Filled.all (h : Filled k t who l s) (ht : Table c k t) (hl : l ≤ k)
    (hwho : ∀ j < k, fdOf (who j) = t j) :
    ∃ s', Reaches (step c) (fun _ _ => True) s s' ∧ Filled k t who k s' := by
  induction hn : k - l generalizing l s with
  | zero =>
    obtain rfl : l = k := by omega
    exact ⟨s, .start, h⟩
  | succ n ih =>
    obtain ⟨s₁, hreach₁, h₁⟩ := h.next ht (by omega) hwho
    obtain ⟨s₂, hreach₂, h₂⟩ := ih h₁ (by omega) (by omega)
    exact ⟨s₂, hreach₁.trans hreach₂, h₂⟩

/-- The first slot is fought for. Whoever is not to be in the table loses it. -/
theorem exists_first (ht : Table c k t) (hwho : ∀ j < k, fdOf (who j) = t j) :
    ∃ s : State c, Reaches (step c) (fun _ _ => True) (init c) s ∧ Filled k t who 1 s := by
  classical
  obtain ⟨s₀, hreach₀, hopen⟩ := exists_opened c c.threads (le_refl _)
  have hlook : ∀ i, s₀.pc (.service i) = ServicePlace.look (fdOf i) 0 :=
    fun i => hopen.looking i i.isLt
  -- those that are not to come later
  let O : Finset (Fin c.threads) := Finset.univ.filter fun i => ∀ j, 1 ≤ j → j < k → who j ≠ i
  have hO : ∀ i, i ∈ O ↔ ∀ j, 1 ≤ j → j < k → who j ≠ i := fun i => by simp [O]
  have hfirst : who 0 ∈ O := by
    refine (hO _).mpr fun j hj hjk heq => ?_
    have hsame := ht.single j hjk 0 ht.pos (by rw [← hwho j hjk, ← hwho 0 ht.pos, heq])
    omega
  obtain ⟨s₁, hreach₁, hin₁, hout₁, htable₁⟩ := exists_all
    (f := fun i => ServicePlace.look (fdOf i) 0) (g := fun i => ServicePlace.take (fdOf i) 0)
    (K := fun m => m.table = fun _ => 0) O
    (fun s i _ htable hpc => by
      obtain ⟨s', halone, hpc', hm⟩ := exists_found hpc c.threadsPos (by rw [htable])
      exact ⟨s', halone, hpc', by rw [hm, htable]⟩)
    hopen.table fun i _ => hlook i
  obtain ⟨s₂, hreach₂, hin₂, hout₂, htable₂⟩ := exists_all (s := s₁)
    (f := fun i => ServicePlace.take (fdOf i) 0) (g := fun i => ServicePlace.recvfrom (fdOf i))
    (K := fun m => ∀ l, l ≠ 0 → m.table l = 0) (O.erase (who 0))
    (fun s i _ htable hpc => by
      obtain ⟨s', halone, hpc', hm⟩ := exists_taken hpc
      refine ⟨s', halone, hpc', fun l hl => ?_⟩
      rw [hm, Function.update_of_ne hl]
      exact htable l hl)
    (fun l _ => by rw [htable₁]) fun i hi => hin₁ i (Finset.mem_of_mem_erase hi)
  have hpc₂ := (hout₂ _ (Finset.notMem_erase _ _)).trans (hin₁ _ hfirst)
  obtain ⟨s₃, halone, hpc₃, hm₃⟩ := exists_taken hpc₂
  have hother : ∀ i, who 0 ≠ i → s₃.pc (.service i) = s₂.pc (.service i) :=
    fun i hi => halone.others _ fun h => hi (Party.service.inj h).symm
  refine ⟨s₃, hreach₀.trans (hreach₁.trans (hreach₂.trans halone.goes)), fun j hj hjk => ?_,
    fun i hi => ?_, ?_⟩
  · have hnot : who j ∉ O := fun hmem => (hO _).mp hmem j hj hjk rfl
    have hne : who 0 ≠ who j := by
      intro heq
      rw [← heq] at hnot
      exact hnot hfirst
    rw [hother _ hne, hout₂ _ fun hmem => hnot (Finset.mem_of_mem_erase hmem), hout₁ _ hnot]
    exact hlook _
  · show (ServicePlace.Settled (s₃.pc (.service i)))
    by_cases hi0 : who 0 = i
    · subst hi0
      rw [hpc₃]
      exact trivial
    · rw [hother i hi0, hin₂ i (Finset.mem_erase.mpr ⟨Ne.symm hi0, (hO i).mpr hi⟩)]
      exact trivial
  · rw [hm₃, hwho 0 ht.pos]
    funext j
    by_cases hj : j = 0
    · subst hj
      rw [Function.update_self, if_pos Nat.one_pos]
    · rw [Function.update_of_ne hj, if_neg (by omega)]
      exact htable₂ j hj

/-- **The tables that the threads can leave** have the sockets of some of them in the first slots, in
    any order, and at least one. -/
theorem settled_table_iff (t : Nat → Int) :
    (∃ s : State c, Reaches (step c) (fun _ _ => True) (init c) s ∧ Settled s ∧
      s.mem.table = t) ↔ ∃ k, Table c k t := by
  constructor
  · rintro ⟨s, hreach, hsettled, rfl⟩
    exact (inv_of_reaches hreach).exists_table hsettled
  · rintro ⟨k, ht⟩
    have hholder : ∀ j, ∃ i : Fin c.threads, j < k → fdOf i = t j := by
      intro j
      by_cases hj : j < k
      · have hsocket := ht.sockets j hj
        refine ⟨⟨(t j - c.servFd - 1).toNat, by omega⟩, fun _ => ?_⟩
        unfold fdOf
        push_cast
        omega
      · exact ⟨⟨0, c.threadsPos⟩, fun h => absurd h hj⟩
    choose who hwho using hholder
    obtain ⟨s₁, hreach₁, h₁⟩ := exists_first ht hwho
    obtain ⟨s₂, hreach₂, h₂⟩ := h₁.all ht ht.pos hwho
    refine ⟨s₂, hreach₁.trans hreach₂, fun i => h₂.settled i fun j hj hjk => by omega, ?_⟩
    rw [h₂.table]
    funext j
    split
    · rfl
    · rename_i hj
      exact (ht.rest j (not_lt.mp hj)).symm

/-! ## 4. What the clients get -/

/-- A slot is drawn that no thread has taken, or `sendto` fails. -/
def unanswered (k : Nat) (a : Party c × Event) : Bool :=
  match a with
  | (.server, .call threadNum sent) => decide (k ≤ threadNum) || !sent
  | _ => false

theorem service_settled {m m' : Shared} {e : Event} {op : SemOp Empty} {pc pc' : ServicePlace}
    (hsettled : pc.Settled) (hfd : ∀ fd, pc.fd = some fd → fd < 128)
    (h : service c i pc m e = some (pc', m', op)) :
    pc'.Settled ∧ m'.table = m.table ∧ m'.packagesLost = m.packagesLost := by
  have hflag : ∀ fd, pc.fd = some fd → ∀ x, (m.store fd.toNat x).table = m.table := by
    intro fd heq x
    have hlt := hfd fd heq
    exact table_store_flag m (show fd.toNat < 500 by omega) x
  cases pc with
  | recvfrom fd =>
    cases e <;> cases h
    exact ⟨trivial, hflag fd rfl 0, rfl⟩
  | test fd last =>
    cases last <;> cases e <;> cases h
    · exact ⟨trivial, rfl, rfl⟩
    · exact ⟨trivial, hflag fd rfl 1, rfl⟩
  | start | socket | look fd l | take fd l => exact absurd hsettled id

theorem isSocket_iff {pcs : Fin c.threads → ServicePlace} {m : Shared} (h : Inv c pcs m)
    (ht : Table c k m.table) (l : Nat) : IsSocket c m (m.table l) ↔ l < k := by
  have hpos := c.servFdPos
  constructor
  · intro hsocket
    by_contra hl
    have hzero := hsocket.1
    rw [ht.rest l (not_lt.mp hl)] at hzero
    omega
  · intro hl
    have hbelow := ht.sockets l hl
    obtain ⟨i, hi, -⟩ := h.owned l (by omega)
    have hrange := h.range i _ hi
    exact ⟨by omega, hrange.2⟩

theorem service_lost {m m' : Shared} {e : Event} {op : SemOp Empty} {pc pc' : ServicePlace}
    (h : service c i pc m e = some (pc', m', op)) : m'.packagesLost = m.packagesLost := by
  cases pc with
  | start =>
    cases e <;> simp only [service] at h
    · split at h <;> cases h
      rfl
    · cases h
    · cases h
  | test fd last => cases last <;> cases e <;> cases h <;> rfl
  | socket | look fd l | take fd l | recvfrom fd =>
    cases e <;> cases h
    rfl

theorem inRange_lost (h : Reaches (step c) (fun _ _ => True) (init c) s) :
    InRange32 s.mem.packagesLost := by
  refine @Reaches.invariant _ _ (step c) (fun _ _ => True) (init c) s
    (fun s => InRange32 s.mem.packagesLost) (show InRange32 0 by decide) (fun s a s' hs _ hstep => ?_) h
  obtain ⟨pc, m, op, sem, hnext, -, rfl⟩ := Sys.step_cases hstep
  obtain ⟨p, e⟩ := a
  cases p with
  | service i =>
    show InRange32 m.packagesLost
    rw [service_lost hnext]
    exact hs
  | server =>
    change server c (s.pc .server) s.mem e = _ at hnext
    generalize s.pc .server = at_server at hnext
    change ServerPlace at at_server
    cases at_server with
    | create i =>
      cases e <;> cases hnext
      exact hs
    | recvfrom =>
      cases e with
      | call threadNum sent =>
        simp only [server] at hnext
        split at hnext <;> cases hnext
        show InRange32 (Shared.packagesLost (if _ then _ else _))
        split
        · exact hs
        · exact inRange_wrap32 _
      | ok | request last => cases hnext

/-- With all threads settled a step leaves them so, and loses a package for a free slot or a `sendto`
    that fails. -/
theorem settled_step {s' : State c} {a : Party c × Event} (hinv : Inv c (places s) s.mem)
    (hsettled : Settled s) (ht : Table c k s.mem.table) (hstep : step c s a = some s') :
    Settled s' ∧ s'.mem.table = s.mem.table ∧
      s'.mem.packagesLost =
        if unanswered k a then wrap32 (s.mem.packagesLost + 1) else s.mem.packagesLost := by
  obtain ⟨p, e⟩ := a
  obtain ⟨pc, m, op, sem, hnext, -, rfl⟩ := Sys.step_cases hstep
  cases p with
  | server =>
    have hkept : Settled ⟨Function.update s.pc .server pc, m, sem⟩ := by
      intro i
      show ServicePlace.Settled (Function.update s.pc .server pc (.service i))
      rw [Function.update_of_ne (by simp)]
      exact hsettled i
    refine ⟨hkept, (server_table hnext).1, ?_⟩
    change server c (s.pc .server) s.mem e = _ at hnext
    generalize s.pc .server = at_server at hnext
    change ServerPlace at at_server
    cases at_server with
    | create i =>
      cases e <;> cases hnext
      rfl
    | recvfrom =>
      cases e with
      | call threadNum sent =>
        simp only [server] at hnext
        split at hnext <;> cases hnext
        have hiff := isSocket_iff hinv ht threadNum
        by_cases hl : threadNum < k
        · cases sent <;> simp [unanswered, hiff, hl]
        · simp [unanswered, hiff, hl, not_lt.mp hl]
      | ok | request last => cases hnext
  | service i =>
    obtain ⟨hi, htable, hlost⟩ := service_settled (hsettled i)
      (fun fd hfd => (hinv.fd_lt hfd).2) hnext
    refine ⟨fun j => ?_, htable, hlost⟩
    show ServicePlace.Settled (Function.update s.pc (.service i) pc (.service j))
    by_cases hj : j = i
    · subst hj
      rw [Function.update_self]
      exact hi
    · rw [Function.update_of_ne fun h => hj (Party.service.inj h)]
      exact hsettled j

/-- **The table stays, and every client whose slot is free loses its package**, in every run that
    goes on from there. No other package is lost, but where `sendto` fails. -/
theorem lost_of_free_slots (hreach : Reaches (step c) (fun _ _ => True) (init c) s)
    (hsettled : Settled s) (ht : Table c k s.mem.table) {as : List (Party c × Event)} {s' : State c}
    (hrun : run (step c) as s = some s') :
    s'.mem.table = s.mem.table ∧
      s'.mem.packagesLost = wrap32 (s.mem.packagesLost + as.countP (unanswered k)) := by
  induction as generalizing s with
  | nil =>
    cases hrun
    refine ⟨rfl, ?_⟩
    rw [List.countP_nil, Int.natCast_zero, Int.add_zero, wrap32_of_inRange (inRange_lost hreach)]
  | cons a as ih =>
    obtain ⟨s₁, hs₁, hrest⟩ := Option.bind_eq_some_iff.mp hrun
    obtain ⟨hsettled₁, htable, hlost⟩ := settled_step (inv_of_reaches hreach) hsettled ht hs₁
    obtain ⟨htable', hlost'⟩ := ih (hreach.next trivial hs₁) hsettled₁ (htable ▸ ht) hrest
    refine ⟨htable'.trans htable, ?_⟩
    rw [hlost', hlost, List.countP_cons]
    by_cases ha : unanswered k a = true
    · rw [if_pos ha, if_pos ha, wrap32_add]
      congr 1
      push_cast
      ring
    · rw [if_neg ha, if_neg ha, Nat.add_zero]

/-- Two threads. -/
def pair : Config := ⟨2, 5, Nat.two_pos, by decide, by decide⟩

/-- Both find the first slot free, and both take it. -/
def bothFirst : List (Party pair × Event) :=
  List.replicate 2 (.server, .ok) ++ List.replicate 3 (.service ⟨0, Nat.two_pos⟩, .ok) ++
    List.replicate 3 (.service ⟨1, Nat.one_lt_two⟩, .ok) ++
    [(.service ⟨0, Nat.two_pos⟩, .ok), (.service ⟨1, Nat.one_lt_two⟩, .ok)]

/-- After that the second slot is drawn, and the first. -/
theorem lost_of_free_slots_pair :
    ∃ s s' : State pair, run (step pair) bothFirst (init pair) = some s ∧
      run (step pair) [(.server, .call 1 true), (.server, .call 0 true)] s = some s' ∧
      s'.mem.table = s.mem.table ∧
      s'.mem.packagesLost = wrap32 (s.mem.packagesLost + 1) := by
  have hrun : ∃ s : State pair, run (step pair) bothFirst (init pair) = some s ∧ Settled s ∧
      s.mem.table 1 = 0 ∧
      ∃ s', run (step pair) [(.server, .call 1 true), (.server, .call 0 true)] s = some s' := by
    refine ⟨_, rfl, fun i => ?_, rfl, _, rfl⟩
    obtain ⟨_ | _ | v, hv⟩ := i
    · exact trivial
    · exact trivial
    · change v + 1 + 1 < 2 at hv
      omega
  obtain ⟨s, hs, hsettled, hfree, s', hs'⟩ := hrun
  have hok : ∀ a ∈ bothFirst, ∀ _s : State pair, True := fun _ _ _ => trivial
  have hreach := reaches_of_run hok .start hs
  obtain ⟨k, ht⟩ := (inv_of_reaches hreach).exists_table hsettled
  obtain rfl : k = 1 := by
    have hpos := ht.pos
    by_contra hne
    have hsocket := (ht.sockets 1 (by omega)).1
    rw [hfree] at hsocket
    exact absurd hsocket (by decide)
  exact ⟨s, s', hs, hs', lost_of_free_slots hreach hsettled ht hs'⟩

end ServerPool
end Labs
