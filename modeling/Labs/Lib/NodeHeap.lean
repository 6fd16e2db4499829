import Labs.Lib.Calls
import Mathlib.Data.List.Nodup
import Mathlib.Logic.Function.Basic

/-!
# Singly linked nodes in a heap that remembers what was freed

A heap maps an address to a node while the node is live. Addresses below `brk` have been
handed out at some time, so an address below `brk` without a node was freed: loading, storing
or freeing it again is the error `useAfterFree`, and nothing is ever allocated there again.

`Chain h p xs q` says that following `next` from `p` passes exactly the nodes `xs` and arrives
at `q`; with `q = none` it is a whole list. What a program may do to a list is then one lemma
each: a store or a free outside the chain does not change it (`Chain.congr`), two chains compose
(`Chain.append`), and a node can be taken off its front (`Chain.free_head`) or out of it
(`Chain.unlink`) and put into it (`Chain.link`).

## Why addresses are not used again

`malloc` may return an address that was freed. A model in which it does lets a dangling pointer come
to a live node, and then a program could read the wrong node and go on. Here a freed address is dead
for good, so the first use of a dangling pointer is an error, whatever the allocator would have
done; a program without such an error, that uses addresses for nothing else, behaves the same with
every allocator.

## How chains are used

A chain is a list, not a graph: `xs` gives the nodes in their order, with their addresses. That no
node occurs twice is not asked but follows, from the end in `NULL` (`Chain.nodup`). Therefore a
program that unlinks one node of a list changes no other, which is what its loop invariants rest on.
-/

namespace Labs
namespace Lib

abbrev Addr := Nat

/-- A pointer to a node; `none` is `NULL`. -/
abbrev Link := Option Addr

structure Node (α : Type) where
  val : α
  next : Link

structure Heap (α : Type) where
  cells : Addr → Option (Node α)
  brk : Addr
  fresh : ∀ a, brk ≤ a → cells a = none

namespace Heap

variable {α : Type}

def empty : Heap α := ⟨fun _ => none, 0, fun _ _ => rfl⟩

/-- `p->…`, read. -/
def load (h : Heap α) : Link → Except Stop (Node α)
  | none => .error .nullDeref
  | some a =>
    match h.cells a with
    | none => .error .useAfterFree
    | some n => .ok n

/-- `cells` with the node at a live address replaced, or removed. -/
def set (h : Heap α) (a : Addr) (n : Option (Node α)) (ha : h.cells a ≠ none) : Heap α where
  cells := Function.update h.cells a n
  brk := h.brk
  fresh b hb := by
    have hne : b ≠ a := fun e => ha (e ▸ h.fresh b hb)
    rw [Function.update_of_ne hne]
    exact h.fresh b hb

/-- `p->… = …`, write. -/
def store (h : Heap α) (p : Link) (n : Node α) : Except Stop (Heap α) :=
  match p with
  | none => .error .nullDeref
  | some a => if ha : h.cells a ≠ none then .ok (h.set a n ha) else .error .useAfterFree

/-- `free(p)`. -/
def free (h : Heap α) (p : Link) : Except Stop (Heap α) :=
  match p with
  | none => .ok h
  | some a => if ha : h.cells a ≠ none then .ok (h.set a none ha) else .error .useAfterFree

/-- `p->next = q`. -/
def setNext (h : Heap α) (p q : Link) : Except Stop (Heap α) := do
  let n ← h.load p
  h.store p { n with next := q }

/-- A new node, at an address that was never used before. -/
def alloc (h : Heap α) (n : Node α) : Heap α where
  cells := Function.update h.cells h.brk (some n)
  brk := h.brk + 1
  fresh b hb := by
    have hlt : h.brk < b := hb
    rw [Function.update_of_ne (Nat.ne_of_gt hlt)]
    exact h.fresh b (Nat.le_of_lt hlt)

theorem lt_brk {h : Heap α} {a : Addr} {n : Node α} (ha : h.cells a = some n) : a < h.brk := by
  by_contra hge
  rw [h.fresh a (Nat.not_lt.mp hge)] at ha
  exact absurd ha (by simp)

theorem load_live {h : Heap α} {a : Addr} {n : Node α} (ha : h.cells a = some n) :
    h.load (some a) = .ok n := by
  simp [load, ha]

theorem store_live {h : Heap α} {a : Addr} {n m : Node α} (ha : h.cells a = some n) :
    ∃ h', h.store (some a) m = .ok h' ∧ h'.brk = h.brk ∧
      h'.cells = Function.update h.cells a (some m) := by
  have hne : h.cells a ≠ none := by simp [ha]
  exact ⟨h.set a m hne, dif_pos hne, rfl, rfl⟩

theorem free_live {h : Heap α} {a : Addr} {n : Node α} (ha : h.cells a = some n) :
    ∃ h', h.free (some a) = .ok h' ∧ h'.brk = h.brk ∧
      h'.cells = Function.update h.cells a none := by
  have hne : h.cells a ≠ none := by simp [ha]
  exact ⟨h.set a none hne, dif_pos hne, rfl, rfl⟩

theorem setNext_live {h : Heap α} {a : Addr} {n : Node α} (ha : h.cells a = some n) (q : Link) :
    ∃ h', h.setNext (some a) q = .ok h' ∧ h'.brk = h.brk ∧
      h'.cells = Function.update h.cells a (some ⟨n.val, q⟩) := by
  obtain ⟨h', hs, hrest⟩ := store_live (m := ⟨n.val, q⟩) ha
  exact ⟨h', (bind_of_ok (load_live ha) _).trans hs, hrest⟩

theorem load_freed {h : Heap α} {a : Addr} (ha : h.cells a = none) :
    h.load (some a) = .error .useAfterFree := by
  simp [load, ha]

end Heap

/-! ## Chains -/

variable {α : Type}

def Chain (h : Heap α) : Link → List (Addr × α) → Link → Prop
  | p, [], q => p = q
  | p, (a, x) :: xs, q => p = some a ∧ ∃ next, h.cells a = some ⟨x, next⟩ ∧ Chain h next xs q

/-- The addresses of a chain. -/
abbrev addrs (xs : List (Addr × α)) : List Addr := xs.map Prod.fst

namespace Chain

variable {h h' : Heap α}

theorem append : ∀ {xs ys : List (Addr × α)} {p q r : Link},
    Chain h p xs q → Chain h q ys r → Chain h p (xs ++ ys) r
  | [], _, _, _, _, hp, hq => by rwa [← (hp : _ = _)] at hq
  | (_, _) :: _, _, _, _, _, hp, hq =>
    let ⟨he, next, ha, hrest⟩ := hp
    ⟨he, next, ha, append hrest hq⟩

theorem split : ∀ {xs ys : List (Addr × α)} {p r : Link},
    Chain h p (xs ++ ys) r → ∃ q, Chain h p xs q ∧ Chain h q ys r
  | [], _, p, _, hp => ⟨p, rfl, hp⟩
  | (_, _) :: _, _, _, _, hp =>
    let ⟨he, next, ha, hrest⟩ := hp
    let ⟨q, h₁, h₂⟩ := split hrest
    ⟨q, ⟨he, next, ha, h₁⟩, h₂⟩

theorem live {xs : List (Addr × α)} {p q : Link} (hc : Chain h p xs q) :
    ∀ a ∈ addrs xs, h.cells a ≠ none := by
  induction xs generalizing p with
  | nil => exact fun a ha => absurd ha (by simp)
  | cons e xs ih =>
    obtain ⟨b, x⟩ := e
    obtain ⟨-, next, hb, hrest⟩ := hc
    intro a ha
    rcases List.mem_cons.mp ha with rfl | ha
    · simp [hb]
    · exact ih hrest a ha

/-- A heap that agrees on the nodes of a chain has the chain. -/
theorem congr {xs : List (Addr × α)} {p q : Link} (hc : Chain h p xs q)
    (heq : ∀ a ∈ addrs xs, h'.cells a = h.cells a) : Chain h' p xs q := by
  induction xs generalizing p with
  | nil => exact hc
  | cons e xs ih =>
    obtain ⟨b, x⟩ := e
    obtain ⟨he, next, hb, hrest⟩ := hc
    refine ⟨he, next, ?_, ih hrest fun a ha => heq a (List.mem_cons_of_mem _ ha)⟩
    rw [heq b List.mem_cons_self, hb]

theorem congr_update {xs : List (Addr × α)} {p q : Link} {b : Addr} {n : Option (Node α)}
    (hc : Chain h p xs q) (hb : b ∉ addrs xs) (heq : h'.cells = Function.update h.cells b n) :
    Chain h' p xs q := by
  refine hc.congr fun a ha => ?_
  have hne : a ≠ b := fun e => hb (e ▸ ha)
  rw [heq, Function.update_of_ne hne]

theorem alloc {xs : List (Addr × α)} {p q : Link} (hc : Chain h p xs q) (n : Node α) :
    Chain (h.alloc n) p xs q := by
  refine hc.congr_update (fun hm => ?_) rfl
  exact hc.live _ hm (h.fresh _ (Nat.le_refl _))

/-- A chain that ends in `NULL` is determined by its start. -/
theorem unique : ∀ {xs ys : List (Addr × α)} {p : Link},
    Chain h p xs none → Chain h p ys none → xs = ys
  | [], [], _, _, _ => rfl
  | [], (_, _) :: _, _, hx, hy => absurd (hx.symm.trans hy.1) (by simp)
  | (_, _) :: _, [], _, hx, hy => absurd (hy.symm.trans hx.1) (by simp)
  | (a, x) :: xs, (b, y) :: ys, _, hx, hy => by
    obtain ⟨hea, na, ha, hxs⟩ := hx
    obtain ⟨heb, nb, hb, hys⟩ := hy
    have hab : a = b := Option.some.inj (hea.symm.trans heb)
    subst hab
    have hn : (⟨x, na⟩ : Node α) = ⟨y, nb⟩ := Option.some.inj (ha.symm.trans hb)
    injection hn with hval hnext
    subst hval hnext
    rw [unique hxs hys]

/-- No node occurs twice in a list: the list from its second occurrence on would be the list
    from the first. -/
theorem nodup {xs : List (Addr × α)} {p : Link} (hc : Chain h p xs none) :
    (addrs xs).Nodup := by
  induction xs generalizing p with
  | nil => exact List.nodup_nil
  | cons e xs ih =>
    obtain ⟨a, x⟩ := e
    have hall := hc
    obtain ⟨he, next, -, hrest⟩ := hc
    refine List.nodup_cons.mpr ⟨fun hm => ?_, ih hrest⟩
    obtain ⟨⟨b, y⟩, hmem, rfl⟩ := List.mem_map.mp hm
    obtain ⟨us, vs, rfl⟩ := List.append_of_mem hmem
    obtain ⟨q, -, hq⟩ := hrest.split
    have hsame : Chain h (some b) ((b, y) :: vs) none := hq.1 ▸ hq
    have heq := unique (he ▸ hall) hsame
    have := congrArg List.length heq
    simp only [List.length_cons, List.length_append] at this
    omega

theorem not_mem_tail {e : Addr × α} {xs : List (Addr × α)} {p : Link}
    (hc : Chain h p (e :: xs) none) : e.1 ∉ addrs xs :=
  (List.nodup_cons.mp hc.nodup).1

/-- The first node of a list is none of those behind it. -/
theorem head_ne {us vs : List (Addr × α)} {a : Addr} {x : α} {p : Link}
    (hc : Chain h p (us ++ (a, x) :: vs) none) (hus : us ≠ []) : some a ≠ p := by
  cases us with
  | nil => exact absurd rfl hus
  | cons e us =>
    intro heq
    have hea : some e.1 = some a := hc.1.symm.trans heq.symm
    refine hc.not_mem_tail (List.mem_map.mpr ⟨(a, x), ?_, (Option.some.inj hea).symm⟩)
    exact List.mem_append_right us List.mem_cons_self

/-- The first node of a list can be freed. -/
theorem free_head {xs : List (Addr × α)} {a : Addr} {x : α} {p : Link}
    (hc : Chain h p ((a, x) :: xs) none) :
    ∃ next h', h.cells a = some ⟨x, next⟩ ∧ h.free (some a) = .ok h' ∧ h'.brk = h.brk ∧
      Chain h' next xs none := by
  have hnot := hc.not_mem_tail
  obtain ⟨-, next, ha, hrest⟩ := hc
  obtain ⟨h', hf, hbrk, hcells⟩ := Heap.free_live ha
  exact ⟨next, h', ha, hf, hbrk, hrest.congr_update hnot hcells⟩

/-- A node behind another one can be unlinked and freed. -/
theorem unlink {us vs : List (Addr × α)} {a b : Addr} {x y : α} {p : Link}
    (hc : Chain h p (us ++ (b, y) :: (a, x) :: vs) none) :
    ∃ next h₁ h₂, h.cells a = some ⟨x, next⟩ ∧ h.setNext (some b) next = .ok h₁ ∧
      h₁.free (some a) = .ok h₂ ∧ h₂.brk = h.brk ∧ h₂.cells a = none ∧
      Chain h₂ next vs none ∧ Chain h₂ p (us ++ (b, y) :: vs) none := by
  have hnd := hc.nodup
  simp only [addrs, List.map_append, List.map_cons, List.nodup_append, List.nodup_cons] at hnd
  obtain ⟨-, ⟨hbrest, havs, -⟩, hdisj⟩ := hnd
  have hba : b ≠ a := fun e => hbrest (e ▸ List.mem_cons_self)
  have hbus : b ∉ addrs us := fun hm => hdisj b hm b List.mem_cons_self rfl
  have haus : a ∉ addrs us :=
    fun hm => hdisj a hm a (List.mem_cons_of_mem _ List.mem_cons_self) rfl
  have hbvs : b ∉ addrs vs := fun hm => hbrest (List.mem_cons_of_mem _ hm)
  obtain ⟨q, hus, hq, nb, hb, ha', next, ha, hvs⟩ := hc.split
  obtain ⟨h₁, hs, hbrk₁, hc₁⟩ := Heap.setNext_live hb next
  have ha₁ : h₁.cells a = some ⟨x, next⟩ := by
    rw [hc₁, Function.update_of_ne hba.symm, ha]
  obtain ⟨h₂, hf, hbrk₂, hc₂⟩ := Heap.free_live ha₁
  have hvs₂ : Chain h₂ next vs none := (hvs.congr_update hbvs hc₁).congr_update havs hc₂
  have hus₂ : Chain h₂ p us q := (hus.congr_update hbus hc₁).congr_update haus hc₂
  refine ⟨next, h₁, h₂, ha, hs, hf, hbrk₂.trans hbrk₁, ?_, hvs₂, hus₂.append ⟨hq, next, ?_, hvs₂⟩⟩
  · rw [hc₂, Function.update_self]
  · rw [hc₂, Function.update_of_ne hba, hc₁, Function.update_self]

/-- A new node can be linked behind a node of a list. -/
theorem link {us vs : List (Addr × α)} {b : Addr} {y e : α} {p q : Link}
    (hc : Chain h p (us ++ (b, y) :: vs) none) (hq : Chain h q vs none) :
    ∃ h', (h.alloc ⟨e, q⟩).setNext (some b) (some h.brk) = .ok h' ∧
      Chain h' p (us ++ (b, y) :: (h.brk, e) :: vs) none := by
  have hnd := hc.nodup
  simp only [addrs, List.map_append, List.map_cons, List.nodup_append, List.nodup_cons] at hnd
  obtain ⟨-, ⟨hbvs, -⟩, hdisj⟩ := hnd
  have hbus : b ∉ addrs us := fun hm => hdisj b hm b List.mem_cons_self rfl
  obtain ⟨s, hus, hs, nb, hb, -⟩ := hc.split
  have hne : b ≠ h.brk := Nat.ne_of_lt (Heap.lt_brk hb)
  have hb' : (h.alloc ⟨e, q⟩).cells b = some ⟨y, nb⟩ :=
    (Function.update_of_ne hne _ _).trans hb
  obtain ⟨h', hset, -, hcells⟩ := Heap.setNext_live hb' (some h.brk)
  have hnew : h'.cells h.brk = some ⟨e, q⟩ := by
    rw [hcells, Function.update_of_ne hne.symm]
    exact Function.update_self ..
  have hus' : Chain h' p us s := (hus.alloc _).congr_update hbus hcells
  have hvs' : Chain h' q vs none := (hq.alloc _).congr_update hbvs hcells
  refine ⟨h', hset, hus'.append ⟨hs, some h.brk, ?_, rfl, q, hnew, hvs'⟩⟩
  rw [hcells, Function.update_self]

theorem length_le_brk {xs : List (Addr × α)} {p : Link} (hc : Chain h p xs none) :
    xs.length ≤ h.brk := by
  have hsub : addrs xs ⊆ List.range h.brk := by
    intro a ha
    refine List.mem_range.mpr ?_
    by_contra hge
    exact hc.live a ha (h.fresh a (Nat.not_lt.mp hge))
  simpa using hc.nodup.length_le_of_subset hsub

end Chain

end Lib
end Labs
