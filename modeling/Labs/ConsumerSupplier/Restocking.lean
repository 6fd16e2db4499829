import Labs.ConsumerSupplier.Conservation

/-!
# Restocking without end

A supplier restocks until the last consumer is done, whatever it has in stock. What its stock comes
to is told by a ledger that is kept beside the run: how often it restocked, how often consumers
bought from it, and what they took. The stock is that balance, stored in an `int`
(`Recorded.stock`), and it is so in every run, whether or not the additions overflow.

The options store any `int` but zero as a unit: they test a `long`, keep an `int` of it, and put a
default in the place of zero. So the units are not those of a `Config` here, of which only the
version and the counts matter to `consume` and, apart from the amount, to `supply`.

## Why a ledger

Whether an addition overflows is a question about a step; whether restocking is safe in a run
depends on all that has happened to a supplier. The two meet in the stock, which is an `int` and
forgets. So the run carries a `Ledger` in unbounded integers, written from the places of the
processes, and `Recorded` ties the stock to it: the stock is the balance wrapped, also behind an
overflow. Then the condition of `restocksSafely_iff` is about what the supplier has been given and
what was taken from it.

The units are not those of a `Config`, since the options store values that no `Config` has: negative
ones, and what is left of a number that was too large. `supplyOf` is `supply` with another amount
and nothing else (`supplyOf_supplyUnit`), so the invariants of the places are used as they are.

Section 5 is the other half of the story. There is a run in which consumers are left and one
supplier goes round alone (`Unvisited.turns`); as it restocks without looking, some restock finds no
room, whatever the unit is (`exists_unsafe`). So no check of the options could make the program
safe, only one in the loop.
-/

namespace Labs
namespace ConsumerSupplier

open Lib

variable {c : Config} {m m' : Shared c} {op : SemOp Sem} {e : Event c}

/-! ## 1. Any accepted units -/

/-- What is stored for `-D` and `-S`. -/
structure Units where
  demandUnit : Int
  supplyUnit : Int
  demandOk : InRange32 demandUnit ∧ demandUnit ≠ 0
  supplyOk : InRange32 supplyUnit ∧ supplyUnit ≠ 0

/-- `supply` with the `restock_amount` it is called with. -/
def supplyOf (c : Config) (restockAmount : Int) (j : Fin c.supNum) :
    SupplierPlace → Shared c → Event c → Option (SupplierPlace × Shared c × SemOp Sem)
  | .storeSup sup, m, .ok =>
    some (.unlock, (m.setSup j (wrap32 (sup + restockAmount))).restocked, .skip)
  | pc, m, e => supply c j pc m e

theorem supplyOf_supplyUnit (c : Config) (j : Fin c.supNum) :
    supplyOf c c.supplyUnit j = supply c j := by
  funext pc m e
  cases pc with
  | storeSup sup => cases e <;> rfl
  | _ => rfl

def programOf (c : Config) (u : Units) : Program (Proc c) (Place c) (Shared c) Sem (Event c)
  | .inl i => consume c i
  | .inr j => supplyOf c u.supplyUnit j

def initOf (c : Config) (u : Units) : State c where
  pc := entry c
  mem := ⟨fun _ => u.demandUnit, fun _ => u.supplyUnit, wrap32 c.consNum, 0⟩
  sem := fun _ => 1

/-- The units of a `Config` are among them. -/
def Config.toUnits (c : Config) : Units where
  demandUnit := c.demandUnit
  supplyUnit := c.supplyUnit
  demandOk := ⟨⟨le_trans (by decide) (le_of_lt c.demandOk.1), c.demandOk.2⟩, ne_of_gt c.demandOk.1⟩
  supplyOk := ⟨⟨le_trans (by decide) (le_of_lt c.supplyOk.1), c.supplyOk.2⟩, ne_of_gt c.supplyOk.1⟩

theorem programOf_toUnits (c : Config) : programOf c c.toUnits = program c := by
  funext p
  cases p with
  | inl i => rfl
  | inr j => exact supplyOf_supplyUnit c j

/-! ## 2. The ledger -/

structure Ledger (c : Config) where
  restocks : Fin c.supNum → Nat
  purchases : Fin c.supNum → Nat
  taken : Fin c.supNum → Int

namespace Ledger

def empty (c : Config) : Ledger c := ⟨fun _ => 0, fun _ => 0, fun _ => 0⟩

def restock (l : Ledger c) (j : Fin c.supNum) : Ledger c :=
  { l with restocks := Function.update l.restocks j (l.restocks j + 1) }

def purchase (l : Ledger c) (j : Fin c.supNum) (take : Int) : Ledger c :=
  { l with
    purchases := Function.update l.purchases j (l.purchases j + 1)
    taken := Function.update l.taken j (l.taken j + take) }

/-- What a supplier has been given, and what has been taken from it. -/
def balance (l : Ledger c) (u : Units) (j : Fin c.supNum) : Int :=
  u.supplyUnit * (1 + l.restocks j) - l.taken j

theorem balance_restock (l : Ledger c) (u : Units) (j : Fin c.supNum) :
    (l.restock j).balance u =
      Function.update (l.balance u) j (l.balance u j + u.supplyUnit) := by
  funext j'
  by_cases hj : j' = j
  · subst hj
    simp [balance, restock]
    ring
  · simp [balance, restock, hj]

theorem balance_purchase (l : Ledger c) (u : Units) (j : Fin c.supNum) (take : Int) :
    (l.purchase j take).balance u = Function.update (l.balance u) j (l.balance u j - take) := by
  funext j'
  by_cases hj : j' = j
  · subst hj
    simp [balance, purchase]
    ring
  · simp [balance, purchase, hj]

end Ledger

/-- What a step from this place adds to the ledger. -/
def ConsumerPlace.note : ConsumerPlace c → Ledger c → Ledger c
  | .storeSup j take _, l => l.purchase j take
  | _, l => l

def SupplierPlace.note (j : Fin c.supNum) : SupplierPlace → Ledger c → Ledger c
  | .storeSup _, l => l.restock j
  | _, l => l

def note : (p : Proc c) → Place c p → Ledger c → Ledger c
  | .inl _, pc, l => ConsumerPlace.note pc l
  | .inr j, pc, l => SupplierPlace.note j pc l

/-- A state, and the ledger of the run that led to it. -/
structure Account (c : Config) where
  state : State c
  ledger : Ledger c

def Account.init (c : Config) (u : Units) : Account c := ⟨initOf c u, .empty c⟩

def Account.step (u : Units) (b : Account c) (a : Proc c × Event c) : Option (Account c) :=
  (Sys.step (programOf c u) b.state a).map fun s => ⟨s, note a.1 (b.state.pc a.1) b.ledger⟩

/-! ## 3. The stock is the balance -/

/-- What a process has read of the stock is still there when it writes. -/
def Reads : (p : Proc c) → Place c p → Shared c → Prop
  | .inl _, .storeSup j _ sup, m => sup = m.supUnit j
  | .inr j, .storeSup sup, m => sup = m.supUnit j
  | _, _, _ => True

theorem supplyOf_cases {j : Fin c.supNum} {amount : Int} {pc pc' : SupplierPlace}
    (h : supplyOf c amount j pc m e = some (pc', m', op)) :
    (∃ sup, pc = .storeSup sup ∧ pc' = .unlock ∧ op = .skip ∧
      m' = (m.setSup j (wrap32 (sup + amount))).restocked) ∨
    (∀ sup, pc ≠ .storeSup sup) ∧ supply c j pc m e = some (pc', m', op) := by
  cases pc with
  | storeSup sup =>
    cases e <;> cases h
    exact .inl ⟨sup, rfl, rfl, rfl, rfl⟩
  | _ => exact .inr ⟨nofun, h⟩

theorem programOf_disciplined (c : Config) (u : Units) : Disciplined (programOf c u) held := by
  intro p pc m e pc' m' op h
  cases p with
  | inl i => exact consume_moves h
  | inr j =>
    rcases supplyOf_cases h with ⟨sup, rfl, rfl, rfl, rfl⟩ | ⟨-, h⟩
    · rfl
    · exact supply_moves h

/-- **What a step of a consumer does to the stock**, and to the ledger. -/
theorem consume_note {i : Fin c.consNum} {pc pc' : ConsumerPlace c}
    (h : consume c i pc m e = some (pc', m', op)) :
    (∃ j take sup, pc = .storeSup j take sup ∧ pc' = .testDem j ∧
      m' = m.setSup j (wrap32 (sup - take))) ∨
    m'.supUnit = m.supUnit ∧ ∀ l, pc.note l = l := by
  cases pc with
  | storeSup j take sup =>
    cases e <;> cases h
    exact .inl ⟨j, take, sup, rfl, rfl, rfl⟩
  | _ => cases e <;> cases h <;> exact .inr ⟨rfl, fun _ => rfl⟩

theorem supplyOf_note {j : Fin c.supNum} {amount : Int} {pc pc' : SupplierPlace}
    (h : supplyOf c amount j pc m e = some (pc', m', op)) :
    (∃ sup, pc = .storeSup sup ∧ pc' = .unlock ∧
      m' = (m.setSup j (wrap32 (sup + amount))).restocked) ∨
    m'.supUnit = m.supUnit ∧ ∀ l : Ledger c, pc.note j l = l := by
  cases pc with
  | storeSup sup =>
    cases e <;> cases h
    exact .inl ⟨sup, rfl, rfl, rfl⟩
  | _ => cases e <;> cases h <;> exact .inr ⟨rfl, fun _ => rfl⟩

/-- What a process has read is the stock when it gets to its store. -/
theorem programOf_reads {u : Units} {p : Proc c} {pc pc' : Place c p}
    (h : programOf c u p pc m e = some (pc', m', op)) : Reads p pc' m' := by
  cases p with
  | inl i =>
    change ConsumerPlace c at pc pc'
    change consume c i pc m e = _ at h
    cases pc with
    | testSup j | unlock j satisfied =>
      cases e <;> cases h
      all_goals try split
      all_goals exact trivial
    | loadSup j take =>
      cases e <;> cases h
      rfl
    | _ => cases e <;> cases h <;> exact trivial
  | inr j =>
    change SupplierPlace at pc pc'
    change supplyOf c u.supplyUnit j pc m e = _ at h
    cases pc with
    | loadSup =>
      cases e <;> cases h
      rfl
    | jobsUnlock done =>
      cases e <;> cases h
      all_goals try split
      all_goals exact trivial
    | _ => cases e <;> cases h <;> exact trivial

/-- Who has not got the semaphore of a supplier does not change its stock. -/
theorem programOf_sup {u : Units} {p : Proc c} {pc pc' : Place c p} {j : Fin c.supNum}
    (h : programOf c u p pc m e = some (pc', m', op)) (hnot : c.stockSem j ∉ held p pc) :
    m'.supUnit j = m.supUnit j := by
  cases p with
  | inl i => exact (consume_untouched h).2.sup j hnot
  | inr j' =>
    rcases supplyOf_cases h with ⟨sup, rfl, -, -, rfl⟩ | ⟨-, h⟩
    · refine Function.update_of_ne (fun hj => hnot ?_) _ _
      rw [hj]
      exact rfl
    · exact (supply_untouched h).2.sup j hnot

theorem reads_stable {q : Proc c} {pc : Place c q} (hk : Reads q pc m)
    (hsup : ∀ j, c.stockSem j ∈ held q pc → m'.supUnit j = m.supUnit j) : Reads q pc m' := by
  cases q with
  | inl i =>
    change ConsumerPlace c at pc
    cases pc with
    | storeSup j take sup =>
      show sup = m'.supUnit j
      rw [hsup j rfl]
      exact hk
    | _ => trivial
  | inr j =>
    change SupplierPlace at pc
    cases pc with
    | storeSup sup =>
      show sup = m'.supUnit j
      rw [hsup j rfl]
      exact hk
    | _ => trivial

/-- The stock of every supplier is its balance, stored in an `int`. -/
structure Recorded (u : Units) (b : Account c) : Prop where
  sound : Sound held (fun _ => True) Reads b.state
  stock : b.state.mem.supUnit = fun j => wrap32 (b.ledger.balance u j)

theorem recorded_init (c : Config) (u : Units) : Recorded u (.init c u) := by
  refine ⟨⟨.initial (fun p => ?_) fun _ => rfl, trivial, fun p => ?_⟩, ?_⟩
  · show held p (entry c p) = ∅
    cases p <;> cases hv : c.version <;> simp only [entry, hv] <;> rfl
  · show Reads p (entry c p) _
    cases p <;> cases hv : c.version <;> simp only [entry, hv] <;> exact trivial
  · funext j
    show u.supplyUnit = wrap32 (u.supplyUnit * (1 + ((0 : Nat) : Int)) - 0)
    rw [wrap32_of_inRange] <;> simp [u.supplyOk.1]

theorem update_wrap32 (f : Fin c.supNum → Int) (j : Fin c.supNum) (x : Int) :
    Function.update (fun j => wrap32 (f j)) j (wrap32 x) =
      fun j' => wrap32 (Function.update f j x j') :=
  (Function.comp_update wrap32 f j x).symm

/-- **The ledger of every run.** -/
theorem Recorded.step {u : Units} {b b' : Account c} {a : Proc c × Event c} (h : Recorded u b)
    (hstep : Account.step u b a = some b') : Recorded u b' := by
  obtain ⟨s', hs', rfl⟩ := Option.map_eq_some_iff.mp hstep
  obtain ⟨p, e⟩ := a
  refine ⟨h.sound.step (programOf_disciplined c u) ?_ ?_ hs', ?_⟩
  · intro pc m op hnext
    exact ⟨trivial, programOf_reads hnext⟩
  · intro q pc m op _ hnext hapart hk
    exact reads_stable hk fun j hj => programOf_sup hnext fun hp => hapart _ hp hj
  · obtain ⟨pc, m, op, sem, hnext, -, rfl⟩ := Sys.step_cases hs'
    have hreads := h.sound.knows p
    show m.supUnit = fun j => wrap32 ((note p (b.state.pc p) b.ledger).balance u j)
    cases p with
    | inl i =>
      rcases consume_note hnext with ⟨j, take, sup, hpc, -, rfl⟩ | ⟨hsup, hnote⟩
      · rw [hpc] at hreads ⊢
        have hreads : sup = b.state.mem.supUnit j := hreads
        show Function.update b.state.mem.supUnit j (wrap32 (sup - take)) =
          fun j' => wrap32 ((b.ledger.purchase j take).balance u j')
        rw [b.ledger.balance_purchase, ← update_wrap32, hreads, h.stock, wrap32_sub_wrap]
      · show m.supUnit = fun j => wrap32 ((ConsumerPlace.note _ b.ledger).balance u j)
        rw [hnote, hsup]
        exact h.stock
    | inr j =>
      rcases supplyOf_note hnext with ⟨sup, hpc, -, rfl⟩ | ⟨hsup, hnote⟩
      · rw [hpc] at hreads ⊢
        have hreads : sup = b.state.mem.supUnit j := hreads
        show Function.update b.state.mem.supUnit j (wrap32 (sup + u.supplyUnit)) =
          fun j' => wrap32 ((b.ledger.restock j).balance u j')
        rw [b.ledger.balance_restock, ← update_wrap32, hreads, h.stock, wrap32_add]
      · show m.supUnit = fun j' => wrap32 ((SupplierPlace.note j _ b.ledger).balance u j')
        rw [hnote, hsup]
        exact h.stock

/-! ## 4. Whether the additions overflow -/

/-- If the step is the store of a restock, the sum is in the range of `int`. -/
def NoOverflow (u : Units) (b : Account c) (a : Proc c × Event c) : Prop :=
  ∀ j sup, a.1 = .inr j → b.state.pc (.inr j) = SupplierPlace.storeSup sup →
    InRange32 (sup + u.supplyUnit)

/-- A supplier that has only been restocked is not empty. -/
def Stocked (b : Account c) : Prop := ∀ j, b.ledger.purchases j = 0 → 0 < b.state.mem.supUnit j

/-- No addition of the run overflows, and no supplier that has only been restocked is ever
    empty. -/
def RestocksSafely (u : Units) (as : List (Proc c × Event c)) : Prop :=
  Takes (Account.step u) (NoOverflow u) as (.init c u) ∧
    Visits (Account.step u) Stocked as (.init c u)

/-- If the step is the store of a restock, the supplier's history leaves room for it. -/
def Room (u : Units) (b : Account c) (a : Proc c × Event c) : Prop :=
  ∀ j sup, a.1 = .inr j → b.state.pc (.inr j) = SupplierPlace.storeSup sup →
    wrap32 (b.ledger.balance u j) + u.supplyUnit ≤ INT_MAX

theorem noOverflow_iff {u : Units} {b : Account c} {a : Proc c × Event c} (h : Recorded u b)
    (hpos : 0 < u.supplyUnit) : NoOverflow u b a ↔ Room u b a := by
  refine forall_congr' fun j => forall_congr' fun sup => forall_congr' fun _ =>
    forall_congr' fun hpc => ?_
  have hreads : Reads (.inr j) (b.state.pc (.inr j)) b.state.mem := h.sound.knows (.inr j)
  rw [hpc] at hreads
  have hsup : sup = b.state.mem.supUnit j := hreads
  rw [h.stock] at hsup
  rw [hsup]
  have hmin := (inRange_wrap32 (b.ledger.balance u j)).1
  exact ⟨fun hrange => hrange.2, fun hmax => ⟨by linarith, hmax⟩⟩

/-- **A step without an overflow** leaves no supplier empty that has only been restocked. -/
theorem Stocked.step {u : Units} {b b' : Account c} {a : Proc c × Event c} (h : Stocked b)
    (hrec : Recorded u b) (hpos : 0 < u.supplyUnit) (hok : NoOverflow u b a)
    (hstep : Account.step u b a = some b') : Stocked b' := by
  obtain ⟨s', hs', rfl⟩ := Option.map_eq_some_iff.mp hstep
  obtain ⟨p, e⟩ := a
  obtain ⟨pc, m, op, sem, hnext, -, rfl⟩ := Sys.step_cases hs'
  intro j' hj'
  show 0 < m.supUnit j'
  change (note p (b.state.pc p) b.ledger).purchases j' = 0 at hj'
  cases p with
  | inl i =>
    rcases consume_note hnext with ⟨j, take, sup, hpc, -, rfl⟩ | ⟨hsup, hnote⟩
    · rw [hpc] at hj'
      have hj' : Function.update b.ledger.purchases j (b.ledger.purchases j + 1) j' = 0 := hj'
      by_cases hne : j' = j
      · subst hne
        rw [Function.update_self] at hj'
        exact absurd hj' (Nat.succ_ne_zero _)
      · rw [Function.update_of_ne hne] at hj'
        show 0 < Function.update b.state.mem.supUnit j _ j'
        rw [Function.update_of_ne hne]
        exact h j' hj'
    · change (ConsumerPlace.note _ b.ledger).purchases j' = 0 at hj'
      rw [hnote] at hj'
      rw [hsup]
      exact h j' hj'
  | inr j =>
    rcases supplyOf_note hnext with ⟨sup, hpc, -, rfl⟩ | ⟨hsup, hnote⟩
    · have hreads := hrec.sound.knows (.inr j)
      rw [hpc] at hj' hreads
      have hreads : sup = b.state.mem.supUnit j := hreads
      have hj' : b.ledger.purchases j' = 0 := hj'
      show 0 < Function.update b.state.mem.supUnit j (wrap32 (sup + u.supplyUnit)) j'
      by_cases hne : j' = j
      · subst hne
        have hbefore : 0 < sup := hreads ▸ h j' hj'
        rw [Function.update_self, wrap32_of_inRange (hok j' sup rfl hpc)]
        linarith
      · rw [Function.update_of_ne hne]
        exact h j' hj'
    · change (SupplierPlace.note j _ b.ledger).purchases j' = 0 at hj'
      rw [hnote] at hj'
      rw [hsup]
      exact h j' hj'

theorem takes_noOverflow_iff {u : Units} {as : List (Proc c × Event c)}
    (hpos : 0 < u.supplyUnit) :
    Takes (Account.step u) (NoOverflow u) as (.init c u) ↔
      Takes (Account.step u) (Room u) as (.init c u) :=
  takes_congr (fun _ _ _ h hstep => Recorded.step h hstep)
    (fun _ _ _ h _ => noOverflow_iff h hpos) (recorded_init c u)

theorem RestocksSafely.room {u : Units} {as : List (Proc c × Event c)}
    (h : RestocksSafely u as) :
    0 < u.supplyUnit ∧ Takes (Account.step u) (Room u) as (.init c u) := by
  have hpos : 0 < u.supplyUnit := h.2.head ⟨0, c.supPos⟩ rfl
  exact ⟨hpos, (takes_noOverflow_iff hpos).mp h.1⟩

/-- **When restocking is safe**: the unit is positive, and no restock is made for which the
    supplier's history leaves no room. -/
theorem restocksSafely_iff (c : Config) (u : Units) (as : List (Proc c × Event c)) :
    RestocksSafely u as ↔
      0 < u.supplyUnit ∧ Takes (Account.step u) (Room u) as (.init c u) := by
  refine ⟨RestocksSafely.room, ?_⟩
  rintro ⟨hpos, hroom⟩
  have htakes := (takes_noOverflow_iff hpos).mpr hroom
  have hkeeps : ∀ (b : Account c) a b', Recorded u b ∧ Stocked b → NoOverflow u b a →
      Account.step u b a = some b' → Recorded u b' ∧ Stocked b' :=
    fun _ _ _ h hok hstep => ⟨h.1.step hstep, h.2.step h.1 hpos hok hstep⟩
  exact ⟨htakes, visits_of_takes hkeeps (fun _ h => h.2)
    ⟨recorded_init c u, fun _ _ => hpos⟩ htakes⟩

/-- The greatest number that the options take. -/
def maxUnits : Units where
  demandUnit := 1
  supplyUnit := 2147483647
  demandOk := by decide
  supplyOk := by decide

/-- The supplier attaches the segment and restocks. -/
def firstRestock : List (Proc smallShop × Event smallShop) := List.replicate 4 (.inr seller, .ok)

/-- It is empty afterwards. -/
theorem restock_overflows :
    (∃ b, run (Account.step maxUnits) firstRestock (.init smallShop maxUnits) = some b ∧
      b.ledger.purchases seller = 0 ∧ b.state.mem.supUnit seller = -2) ∧
    ¬ Takes (Account.step maxUnits) (NoOverflow maxUnits) firstRestock
        (.init smallShop maxUnits) ∧
    ¬ Visits (Account.step maxUnits) Stocked firstRestock (.init smallShop maxUnits) := by
  obtain ⟨b, hb, hpurchases, hsup⟩ : ∃ b, run (Account.step maxUnits) firstRestock
      (.init smallShop maxUnits) = some b ∧ b.ledger.purchases seller = 0 ∧
      b.state.mem.supUnit seller = -2 := ⟨_, rfl, rfl, rfl⟩
  refine ⟨⟨b, hb, hpurchases, hsup⟩, fun htakes => ?_, fun hvisits => ?_⟩
  · have hstore := ((((htakes _ rfl).2 _ rfl).2 _ rfl).2 _ rfl).1 seller 2147483647 rfl rfl
    exact absurd hstore.2 (by decide)
  · have hpos := hvisits.of_run hb seller hpurchases
    rw [hsup] at hpos
    exact absurd hpos (by decide)

/-! ## 5. A supplier that nobody visits -/

variable {u : Units} {j : Fin c.supNum} {pc pc' : SupplierPlace} {stock stock' jobs jobs' : Int}
  {k k' : Nat} {b : Account c} {sem' : Sem → Int}

/-- The supplier is at this place, and the two semaphores it uses are so; nobody has bought from it,
    and consumers are left. -/
structure Unvisited (j : Fin c.supNum) (pc : SupplierPlace) (stock jobs : Int) (k : Nat)
    (b : Account c) : Prop where
  place : b.state.pc (.inr j) = pc
  stockSem : b.state.sem (c.stockSem j) = stock
  jobsSem : b.state.sem .jobs = jobs
  left : 0 < b.state.mem.jobs
  restocks : b.ledger.restocks j = k
  taken : b.ledger.taken j = 0

theorem stockSem_ne_jobs (c : Config) (j : Fin c.supNum) : c.stockSem j ≠ .jobs := by
  unfold Config.stockSem
  cases c.version <;> nofun

theorem SupplierPlace.note_taken (j : Fin c.supNum) (pc : SupplierPlace) (l : Ledger c) :
    (pc.note j l).taken = l.taken := by cases pc <;> rfl

theorem Unvisited.step (h : Unvisited j pc stock jobs k b)
    (hnext : supplyOf c u.supplyUnit j pc b.state.mem .ok = some (pc', m', op))
    (hop : op.apply b.state.sem = some sem') (hleft : m'.jobs = b.state.mem.jobs)
    (hstock : sem' (c.stockSem j) = stock') (hjobs : sem' .jobs = jobs')
    (hk : (pc.note j b.ledger).restocks j = k') :
    ∃ b', Account.step u b (.inr j, .ok) = some b' ∧ Unvisited j pc' stock' jobs' k' b' := by
  have hstep : Sys.step (programOf c u) b.state (.inr j, .ok) =
      some ⟨Function.update b.state.pc (.inr j) pc', m', sem'⟩ := by
    refine Option.bind_eq_some_iff.mpr ⟨(pc', m', op), ?_, ?_⟩
    · show supplyOf c u.supplyUnit j (b.state.pc (.inr j)) b.state.mem .ok = _
      rw [h.place]
      exact hnext
    · exact Option.map_eq_some_iff.mpr ⟨sem', hop, rfl⟩
  refine ⟨_, Option.map_eq_some_iff.mpr ⟨_, hstep, rfl⟩, ?_⟩
  refine ⟨Function.update_self _ _ _, hstock, hjobs, hleft ▸ h.left, ?_, ?_⟩
  · show (SupplierPlace.note j (b.state.pc (.inr j)) b.ledger).restocks j = _
    rw [h.place]
    exact hk
  · show (SupplierPlace.note j (b.state.pc (.inr j)) b.ledger).taken j = 0
    rw [SupplierPlace.note_taken]
    exact h.taken

/-- To the store of a restock. -/
theorem Unvisited.enter (h : Unvisited j .lock 1 1 k b) :
    ∃ b₁ b₂, Account.step u b (.inr j, .ok) = some b₁ ∧
      Account.step u b₁ (.inr j, .ok) = some b₂ ∧
      Unvisited j (.storeSup (b₁.state.mem.supUnit j)) 0 1 k b₂ := by
  have hne := stockSem_ne_jobs c j
  obtain ⟨b₁, hs₁, h₁⟩ : ∃ b', Account.step u b (.inr j, .ok) = some b' ∧
      Unvisited j .loadSup 0 1 k b' :=
    h.step rfl (SemOp.apply_wait_of_one h.stockSem) rfl (by simp) (by simp [hne.symm, h.jobsSem])
      h.restocks
  obtain ⟨b₂, hs₂, h₂⟩ : ∃ b', Account.step u b₁ (.inr j, .ok) = some b' ∧
      Unvisited j (.storeSup (b₁.state.mem.supUnit j)) 0 1 k b' :=
    h₁.step rfl rfl rfl h₁.stockSem h₁.jobsSem h₁.restocks
  exact ⟨b₁, b₂, hs₁, hs₂, h₂⟩

/-- One turn of the loop of `supply`. -/
theorem Unvisited.turn (h : Unvisited j .lock 1 1 k b) :
    ∃ b', run (Account.step u) (List.replicate 7 (.inr j, .ok)) b = some b' ∧
      Unvisited j .lock 1 1 (k + 1) b' := by
  have hne := stockSem_ne_jobs c j
  obtain ⟨b₁, b₂, hs₁, hs₂, h₂⟩ := h.enter (u := u)
  obtain ⟨b₃, hs₃, h₃⟩ : ∃ b', Account.step u b₂ (.inr j, .ok) = some b' ∧
      Unvisited j .unlock 0 1 (k + 1) b' :=
    h₂.step rfl rfl rfl h₂.stockSem h₂.jobsSem
      (by simp [SupplierPlace.note, Ledger.restock, h₂.restocks])
  obtain ⟨b₄, hs₄, h₄⟩ : ∃ b', Account.step u b₃ (.inr j, .ok) = some b' ∧
      Unvisited j .jobsLock 1 1 (k + 1) b' :=
    h₃.step rfl (SemOp.apply_post_of_zero h₃.stockSem) rfl (by simp)
      (by simp [hne.symm, h₃.jobsSem]) h₃.restocks
  obtain ⟨b₅, hs₅, h₅⟩ : ∃ b', Account.step u b₄ (.inr j, .ok) = some b' ∧
      Unvisited j .testJobs 1 0 (k + 1) b' :=
    h₄.step rfl (SemOp.apply_wait_of_one h₄.jobsSem) rfl (by simp [hne, h₄.stockSem]) (by simp)
      h₄.restocks
  obtain ⟨b₆, hs₆, h₆⟩ : ∃ b', Account.step u b₅ (.inr j, .ok) = some b' ∧
      Unvisited j (.jobsUnlock false) 1 0 (k + 1) b' := by
    have hnot : decide (b₅.state.mem.jobs ≤ 0) = false := decide_eq_false (not_le.mpr h₅.left)
    have hnext : supplyOf c u.supplyUnit j .testJobs b₅.state.mem .ok =
        some (.jobsUnlock false, b₅.state.mem, .skip) := by
      show some (SupplierPlace.jobsUnlock (decide (b₅.state.mem.jobs ≤ 0)), _, SemOp.skip) = _
      rw [hnot]
    exact h₅.step hnext rfl rfl h₅.stockSem h₅.jobsSem h₅.restocks
  obtain ⟨b₇, hs₇, h₇⟩ : ∃ b', Account.step u b₆ (.inr j, .ok) = some b' ∧
      Unvisited j .lock 1 1 (k + 1) b' :=
    h₆.step rfl (SemOp.apply_post_of_zero h₆.jobsSem) rfl (by simp [hne, h₆.stockSem]) (by simp)
      h₆.restocks
  refine ⟨b₇, ?_, h₇⟩
  simp [List.replicate, run, hs₁, hs₂, hs₃, hs₄, hs₅, hs₆, hs₇]

/-- Left to itself, a supplier goes on restocking. -/
theorem Unvisited.turns (n : Nat) (h : Unvisited j .lock 1 1 k b) :
    ∃ as b', run (Account.step u) as b = some b' ∧ Unvisited j .lock 1 1 (k + n) b' := by
  induction n with
  | zero => exact ⟨[], b, rfl, h⟩
  | succ n ih =>
    obtain ⟨as, b₁, hrun, h₁⟩ := ih
    obtain ⟨b₂, hturn, h₂⟩ := h₁.turn (u := u)
    refine ⟨as ++ List.replicate 7 (.inr j, .ok), b₂, ?_, h₂⟩
    rw [run_append, hrun]
    exact hturn

/-- A supplier gets to its loop before anybody else does anything. -/
theorem exists_unvisited (c : Config) (u : Units) (hcons : (c.consNum : Int) ≤ INT_MAX)
    (j : Fin c.supNum) :
    ∃ as b, run (Account.step u) as (.init c u) = some b ∧ Unvisited j .lock 1 1 0 b := by
  have hleft : 0 < (Account.init c u).state.mem.jobs := by
    have hpos : (0 : Int) < c.consNum := Int.natCast_pos.mpr c.consPos
    simp only [Account.init, initOf]
    rw [wrap32_of_inRange ⟨le_trans (by decide) (le_of_lt hpos), hcons⟩]
    exact hpos
  have hentry : Unvisited j (entry c (.inr j)) 1 1 0 (.init c u) := ⟨rfl, rfl, rfl, hleft, rfl, rfl⟩
  cases hv : c.version with
  | systemV =>
    have hattach : Unvisited j .attach 1 1 0 (.init c u) := by
      simpa only [entry, hv] using hentry
    obtain ⟨b, hs, hb⟩ : ∃ b, Account.step u (.init c u) (.inr j, .ok) = some b ∧
        Unvisited j .lock 1 1 0 b := hattach.step rfl rfl rfl rfl rfl rfl
    exact ⟨[(.inr j, .ok)], b, by simp [run, hs], hb⟩
  | posix =>
    refine ⟨[], .init c u, rfl, ?_⟩
    simpa only [entry, hv] using hentry

/-- **No option value is safe from every run.** -/
theorem exists_unsafe (c : Config) (u : Units) (hcons : (c.consNum : Int) ≤ INT_MAX) :
    ∃ as : List (Proc c × Event c), ¬ RestocksSafely u as := by
  by_cases hpos : 0 < u.supplyUnit
  · -- the turn in which the stock outgrows an `int`
    have hmax : u.supplyUnit ≤ INT_MAX := u.supplyOk.1.2
    have hlow := Int.mul_ediv_self_le (x := INT_MAX) (ne_of_gt hpos)
    have hhigh := Int.lt_mul_ediv_self_add (x := INT_MAX) hpos
    have hone : 1 ≤ INT_MAX / u.supplyUnit := (Int.le_ediv_iff_mul_le hpos).mpr (by omega)
    obtain ⟨k, hk⟩ : ∃ k : Nat, (k : Int) = INT_MAX / u.supplyUnit - 1 :=
      ⟨_, Int.toNat_of_nonneg (by omega)⟩
    have j : Fin c.supNum := ⟨0, c.supPos⟩
    obtain ⟨as, b, hrun, hb⟩ := exists_unvisited c u hcons j
    obtain ⟨bs, b', hturns, hb'⟩ := hb.turns (u := u) k
    refine ⟨as ++ bs ++ List.replicate 3 (.inr j, .ok), fun hsafe => ?_⟩
    have hrun' : run (Account.step u) (as ++ bs) (.init c u) = some b' := by
      rw [run_append, hrun]
      exact hturns
    have htakes := hsafe.room.2.of_run hrun'
    obtain ⟨b₁, b₂, hs₁, hs₂, h₂⟩ := hb'.enter (u := u)
    have hrest := (htakes _ hs₁).2 _ hs₂
    obtain ⟨b₃, hs₃, -⟩ : ∃ b₃, Account.step u b₂ (.inr j, .ok) = some b₃ ∧
        Unvisited j .unlock 0 1 (0 + k + 1) b₃ :=
      h₂.step rfl rfl rfl h₂.stockSem h₂.jobsSem
        (by simp [SupplierPlace.note, Ledger.restock, h₂.restocks])
    have hroom := (hrest.2 _ hs₃).1 j _ rfl h₂.place
    have hbalance : b₂.ledger.balance u j = u.supplyUnit * (INT_MAX / u.supplyUnit) := by
      unfold Ledger.balance
      rw [h₂.restocks, h₂.taken]
      push_cast
      rw [hk]
      ring
    rw [hbalance, wrap32_of_inRange ⟨?_, hlow⟩] at hroom
    · omega
    · exact le_trans (by decide) (mul_nonneg (le_of_lt hpos) (le_trans Int.one_nonneg hone))
  · exact ⟨[], fun hsafe => hpos hsafe.room.1⟩
end ConsumerSupplier
end Labs
