import Labs.TaskLedger.AddressBook

/-!
# The list stays a list

Whatever `entry_total` is, and whatever is read, a call that returns leaves the nodes linked: those
that `next` leads to from `head` are live, and the last one has no successor (`Linked`). A walk of
`add` past the end of the list, and a walk of `remove_by` over a freed node, stop the program before
they can do any harm to it. So `destructor` finds a list, and frees it.

## The invariant without the counter

`Holds` is lost as soon as `constructor` leaves `entry_total` as `malloc` found it. What remains is
that the nodes are linked. It is weak enough to survive every command, with any counter and any
answers of the system, and it is all that `destructor` needs.

Each command is a lemma of one shape: the call stops, or leaves a list (`Links`). For `insert` that
is a case analysis on where the walk ends; a walk past the last node stops, so what is linked in
stands behind a node that is there (`insert_cases`). For `remove_by` it is an induction along the
chain, with the nodes that were kept in front. `load_from` is a sequence of insertions at the
beginning.

With that the stops of the whole program are the stops of its turns (`book_stops`). The modules
about the end of the input and about accesses beside the memory both use it, each for its own kind
of stop.
-/

namespace Labs
namespace TaskLedger

open Lib

def Linked (L : Ledger) : Prop := ∃ xs, Chain L.heap L.head xs none

variable {hit : Priv → Bool} {unique : Bool} {L L' : Ledger} {xs us zs : List (Addr × Priv)}
  {fuel : Nat} {prevNode curNode : Link} {w : World} {inp : List UInt8}

/-- The call stops, or leaves the list linked. -/
def Links {α : Type} (ledger : α → Ledger) (x : Except Stop α) : Prop :=
  Ends x (fun _ => True) fun a => Linked (ledger a)

/-! ## 1. `add` -/

/-- A walk of more steps than there are nodes meets `NULL`. -/
theorem walk_past_end {h : Heap Priv} {i : Nat} {p : Link} (hc : Chain h p xs none)
    (hi : xs.length < i) : walk h i p prevNode = .error .nullDeref := by
  induction xs generalizing i p prevNode with
  | nil =>
    obtain ⟨i, rfl⟩ := Nat.exists_eq_add_of_lt hi
    have hnone : p = none := hc
    rw [hnone]
    rfl
  | cons e xs ih =>
    obtain ⟨a, x⟩ := e
    obtain ⟨rfl, next, ha, hrest⟩ := hc
    cases i with
    | zero => exact absurd hi (Nat.not_lt_zero _)
    | succ i =>
      refine (bind_of_ok (Heap.load_live ha) _).trans ?_
      exact ih hrest (Nat.lt_of_succ_lt_succ hi)

theorem insertBegin_linked (h : Linked L) (e : Priv) : Linked (insertBegin L e) := by
  obtain ⟨xs, hc⟩ := h
  refine ⟨(L.heap.brk, e) :: xs, rfl, L.head, ?_, hc.alloc _⟩
  exact Function.update_self ..

/-- The walk of `add` finds the nodes that it steps on. -/
def WalkFits (L : Ledger) : Pos → Prop
  | .MIDDLE => 2 < L.entryTotal →
    ∀ xs, Chain L.heap L.head xs none → (L.entryTotal / 2).toNat ≤ xs.length
  | .END => 1 < L.entryTotal → L.head ≠ none
  | .BEGIN | .other => True

theorem insertMiddle_cases (hc : Chain L.heap L.head xs none) (e : Priv)
    (hmid : 2 < L.entryTotal) :
    ((L.entryTotal / 2).toNat ≤ xs.length ∧ ∃ L', insertMiddle L e = .ok L' ∧ Linked L') ∨
      xs.length < (L.entryTotal / 2).toNat ∧ insertMiddle L e = .error .nullDeref := by
  by_cases hlong : xs.length < (L.entryTotal / 2).toNat
  · exact .inr ⟨hlong, by rw [insertMiddle, bind_of_error (walk_past_end hc hlong)]⟩
  · obtain ⟨us, b, y, vs, rfl, hus⟩ :=
      cut_behind xs (i := (L.entryTotal / 2).toNat - 1) (by omega)
    have hsteps : (L.entryTotal / 2).toNat = us.length + 1 := by omega
    obtain ⟨q, hw, hq⟩ := walk_spec L.head hc
    obtain ⟨heap, hset, hlinked⟩ := hc.link (e := e) hq
    refine .inl ⟨not_lt.mp hlong, { L with heap, entryTotal := wrap32 (L.entryTotal + 1) }, ?_,
      _, hlinked⟩
    rw [insertMiddle, hsteps, bind_of_ok hw]
    exact bind_of_ok hset _

theorem insertEnd_cases (hc : Chain L.heap L.head xs none) (e : Priv) :
    (L.head ≠ none ∧ ∃ L', insertEnd L e = .ok L' ∧ Linked L') ∨
      L.head = none ∧ insertEnd L e = .error .nullDeref := by
  rcases xs.eq_nil_or_concat' with rfl | ⟨us, ⟨b, y⟩, rfl⟩
  · have hnone : L.head = none := hc
    exact .inr ⟨hnone, by rw [insertEnd, hnone]; rfl⟩
  · have hfuel : us.length < L.heap.brk + 1 := by
      have hle := hc.length_le_brk
      rw [List.length_append] at hle
      omega
    have hhead : L.head ≠ none := by
      intro hnone
      rw [hnone] at hc
      cases us with
      | nil => cases hc.1
      | cons a us => cases hc.1
    obtain ⟨heap, hset, hlinked⟩ := hc.link (e := e) (q := none) rfl
    refine .inl ⟨hhead, { L with heap, entryTotal := wrap32 (L.entryTotal + 1) }, ?_, _, hlinked⟩
    rw [insertEnd, bind_of_ok (lastNode_spec hc hfuel)]
    exact bind_of_ok hset _

/-- **`insert` leaves a list, or its walk meets `NULL`.** -/
theorem insert_cases (h : Linked L) (e : Priv) (pos : Pos) :
    (WalkFits L pos ∧ ∃ L', insert L e pos = .ok L' ∧ Linked L') ∨
      ¬ WalkFits L pos ∧ insert L e pos = .error .nullDeref := by
  have hbegin : ∃ L', (.ok (insertBegin L e) : Except Stop Ledger) = .ok L' ∧ Linked L' :=
    ⟨_, rfl, insertBegin_linked h e⟩
  obtain ⟨xs, hc⟩ := h
  cases pos with
  | BEGIN | other => exact .inl ⟨trivial, hbegin⟩
  | MIDDLE =>
    rw [insert]
    split
    · rename_i hmid
      rcases insertMiddle_cases hc e hmid with ⟨hle, hok⟩ | ⟨hlong, herror⟩
      · exact .inl ⟨fun _ _ hys => hc.unique hys ▸ hle, hok⟩
      · exact .inr ⟨fun hfits => absurd (hfits hmid xs hc) (not_le.mpr hlong), herror⟩
    · rename_i hmid
      exact .inl ⟨fun h => absurd h hmid, hbegin⟩
  | END =>
    rw [insert]
    split
    · rename_i hend
      rcases insertEnd_cases hc e with ⟨hhead, hok⟩ | ⟨hnone, herror⟩
      · exact .inl ⟨fun _ => hhead, hok⟩
      · exact .inr ⟨fun hfits => hfits hend hnone, herror⟩
    · rename_i hend
      exact .inl ⟨fun h => absurd h hend, hbegin⟩

theorem insert_links (h : Linked L) (e : Priv) (pos : Pos) : Links id (insert L e pos) := by
  rcases insert_cases h e pos with ⟨-, L', hok, hlinked⟩ | ⟨-, herror⟩
  · rw [hok]
    exact hlinked
  · rw [herror]
    exact trivial

theorem add_links (h : Linked L) (callocOk : Bool) (entry : Option Priv) (pos : Pos) :
    Links (·.2.1) (add callocOk L entry pos inp) := by
  unfold add
  split
  · exact h
  · refine Ends.skip _ ?_
    rintro ⟨r, e, rest⟩
    show Links _ (if r = ERR then _ else _)
    split
    · exact h
    · split
      · exact h
      · exact Ends.bind (insert_links h e pos) fun _ hL' => hL'

/-! ## 2. `remove_by` -/

/-- The loop is at `zs`, and `us` is what it has kept. -/
theorem removeLoop_links (hc : Chain L.heap L.head (us ++ zs) none)
    (hcur : Chain L.heap curNode zs none)
    (hprev : us = [] ∨ ∃ us' b y, us = us' ++ [(b, y)] ∧ prevNode = some b) :
    Links id (removeLoop unique hit fuel L curNode prevNode) := by
  induction fuel generalizing L us zs curNode prevNode with
  | zero => exact trivial
  | succ fuel ih =>
    cases zs with
    | nil =>
      have hnone : curNode = none := hcur
      rw [hnone, removeLoop]
      exact ⟨_, hc⟩
    | cons e zs =>
      obtain ⟨a, x⟩ := e
      have hsome : curNode = some a := hcur.1
      subst hsome
      cases hx : hit x with
      | false =>
        obtain ⟨next, hrest, hstep⟩ := removeLoop_keep unique fuel prevNode hcur hx
        rw [hstep]
        have hkept : Chain L.heap L.head ((us ++ [(a, x)]) ++ zs) none := by
          rw [List.append_assoc]
          exact hc
        exact ih hkept hrest (.inr ⟨us, a, x, rfl, rfl⟩)
      | true =>
        rcases hprev with rfl | ⟨us', b, y, rfl, rfl⟩
        · have hhead : L.head = some a := hc.1
          obtain ⟨L', hrest, -, hstep⟩ := removeLoop_pop unique fuel prevNode hc hx
          rw [← hhead, hstep]
          split
          · exact ⟨_, hrest⟩
          · have hall : Chain L'.heap L'.head ([] ++ zs) none := hrest
            exact ih hall hrest (.inl rfl)
        · rw [List.append_assoc] at hc
          obtain ⟨L', hrest, -, hstep⟩ := removeLoop_unlink unique fuel hc hx
          rw [hstep]
          split
          · exact ⟨_, hrest⟩
          · exact trivial

theorem removeBy_links (h : Linked L) (opt : Opt) : Links (·.2.1) (removeBy L opt inp) := by
  unfold removeBy
  split
  · exact h
  · rename_i f hf
    refine Ends.skip _ ?_
    rintro ⟨r, key, rest⟩
    show Links _ (if r = ERR then _ else _)
    split
    · exact h
    · obtain ⟨xs, hc⟩ := h
      have hall : Chain L.heap L.head ([] ++ xs) none := hc
      exact Ends.bind (removeLoop_links hall hc (.inl rfl)) fun _ hL' => hL'

/-! ## 3. `load_from` -/

theorem loadRecords_links {callocNode : Nat → Bool} {buf : List UInt8} {ts : List Tok} {m i : Nat}
    (h : Linked L) : Links Prod.snd (loadRecords callocNode buf ts m i L) := by
  induction m generalizing i L with
  | zero => exact h
  | succ m ih =>
    rw [loadRecords]
    refine Ends.skip _ fun t => ?_
    show Links _ (if t.type ≠ .JSMN_OBJECT then _ else _)
    split
    · exact h
    · refine Ends.skip _ fun r => ?_
      cases r with
      | none => exact h
      | some je =>
        show Links _ (add (callocNode m) L (some je.2) .BEGIN [] >>= _)
        refine Ends.bind (add_links h (callocNode m) (some je.2) .BEGIN) ?_
        rintro ⟨r, L', rest⟩ hL'
        show Links _ (if r = ERR then _ else _)
        split
        · exact hL'
        · exact ih hL'

theorem loadDocument_links {callocNode : Nat → Bool} {buf : List UInt8} {ts : List Tok}
    (h : Linked L) : Links Prod.snd (loadDocument callocNode buf ts L) := by
  refine Ends.skip _ fun object => ?_
  show Links _ (if object.type ≠ .JSMN_OBJECT then _ else _)
  split
  · exact h
  · refine Ends.skip _ fun key => Ends.skip _ fun text => Ends.skip _ fun found => ?_
    show Links _ (if found = false then _ else _)
    split
    · exact h
    · refine Ends.skip _ fun array => ?_
      show Links _ (if array.type ≠ .JSMN_ARRAY then _ else _)
      split
      · exact h
      · exact loadRecords_links h

theorem loadFrom_links (h : Linked L) (jsmn : List UInt8 → Parsed) (file : FileAnswers) :
    Links (·.2.1) (loadFrom jsmn file L) := by
  rcases loadFrom_cases jsmn file L with ⟨-, _, hret⟩ | ⟨-, -, _, hret⟩ | ⟨_, _, _, -, hret⟩ <;>
    rw [hret]
  · exact h
  · exact h
  · unfold parseAndLoad
    dsimp only
    split
    · exact h
    · refine Ends.bind (loadDocument_links h) ?_
      rintro ⟨ok, L'⟩ hL'
      cases ok <;> exact hL'

/-! ## 4. Runs -/

theorem perform_links (h : Linked L) (turn : Nat) (command : Command) :
    Links (·.2.1) (perform w turn L inp command) := by
  cases command with
  | add pos => exact add_links h _ _ _
  | removeBy opt => exact removeBy_links h opt
  | findBy opt => exact Ends.skip _ fun _ => h
  | loadFrom filename =>
    exact Ends.bind (loadFrom_links h w.jsmn (w.answers turn filename)) fun _ hL' => hL'
  | display => exact Ends.skip _ fun _ => h
  | noFilename | nothing | leave => exact h

/-- The turns that `address_book` takes. -/
def Reached (w : World) (inp : List UInt8) (b : Book) : Prop :=
  ∃ garbage, w.object = some garbage ∧
    Reaches (nextOf (Book.next w)) (fun _ _ => True) ⟨0, initObj garbage, inp⟩ b

def Book.Sound (b : Book) : Prop := Linked b.ledger

theorem Book.Sound.next (b : Book) (_ : Unit) (b' : Book) (h : b.Sound) (_ : True)
    (hstep : nextOf (Book.next w) b () = some b') : b'.Sound := by
  have hlinks : Ends (Book.next w b) (fun _ => True) fun r =>
      ∀ b', r = .inr b' → Book.Sound b' := by
    refine Ends.skip _ ?_
    rintro ⟨command, rest⟩
    show Ends (if command = .leave then _ else _) _ _
    split
    · exact nofun
    · refine Ends.bind (perform_links h b.turn command) ?_
      rintro ⟨status, L, rest⟩ hL
      show Ends (if status ≠ OK then _ else _) _ _
      split
      · exact nofun
      · intro b' hb'
        cases hb'
        exact hL
  exact hlinks.of_eq_ok (nextOf_eq_some.mp hstep) b' rfl

theorem Reached.linked {b : Book} (h : Reached w inp b) : Linked b.ledger := by
  obtain ⟨garbage, -, hreaches⟩ := h
  have hstart : Book.Sound ⟨0, initObj garbage, inp⟩ := ⟨[], rfl⟩
  have hsound : b.Sound := hreaches.invariant hstart Book.Sound.next
  exact hsound

theorem freeAll_chain {h : Heap Priv} {p : Link} (hc : Chain h p xs none)
    (hfuel : xs.length < fuel) : ∃ h', freeAll fuel h p = .ok h' := by
  induction xs generalizing fuel h p with
  | nil =>
    obtain ⟨fuel, rfl⟩ := Nat.exists_eq_add_of_lt hfuel
    have hnone : p = none := hc
    rw [hnone]
    exact ⟨h, rfl⟩
  | cons e xs ih =>
    obtain ⟨a, x⟩ := e
    have hp : p = some a := hc.1
    subst hp
    cases fuel with
    | zero => exact absurd hfuel (Nat.not_lt_zero _)
    | succ fuel =>
      obtain ⟨next, h', ha, hf, -, hrest⟩ := hc.free_head
      obtain ⟨h'', hall⟩ := ih hrest (Nat.lt_of_succ_lt_succ hfuel)
      refine ⟨h'', ?_⟩
      rw [freeAll, bind_of_ok (Heap.load_live ha), bind_of_ok hf]
      exact hall

theorem destructor_linked (h : Linked L) : ∃ heap, destructor L = .ok heap := by
  obtain ⟨xs, hc⟩ := h
  exact freeAll_chain hc (Nat.lt_succ_of_le hc.length_le_brk)

/-! ## 5. Where the book stops -/

variable {E : Stop → Prop} {b : Book}

/-- A turn stops where it reads its command, or where it does it. -/
theorem next_stops : Stops E (b.next w) ↔ Stops E (b.command w) ∨
    ∃ command rest, b.command w = .ok (command, rest) ∧
      Stops E (perform w b.turn b.ledger rest command) := by
  refine stops_bind.trans (or_congr_right ?_)
  constructor
  · rintro ⟨⟨command, rest⟩, hread, hrest⟩
    have hrest : Stops E (if command = .leave then _ else _) := hrest
    split at hrest
    · exact hrest.of_ok.elim
    · refine ⟨command, rest, hread, (stops_bind_left ?_).mp hrest⟩
      rintro ⟨status, L, rest'⟩ hlast
      have hlast : Stops E (if status ≠ OK then _ else _) := hlast
      split at hlast <;> exact hlast.of_ok
  · rintro ⟨command, rest, hread, hstops⟩
    refine ⟨(command, rest), hread, ?_⟩
    have hne : command ≠ .leave := by
      rintro rfl
      exact hstops.of_ok
    show Stops E (if command = .leave then _ else _)
    rw [if_neg hne]
    exact stops_bind.mpr (.inl hstops)

/-- What a last turn leaves to `destructor` is a list. -/
theorem linked_of_last {status : Int} (h : Linked b.ledger)
    (hlast : b.next w = .ok (.inl (status, L))) : Linked L := by
  have hlinks : Ends (b.next w) (fun _ => True) fun r =>
      ∀ status L, r = .inl (status, L) → Linked L := by
    refine Ends.skip _ ?_
    rintro ⟨command, rest⟩
    show Ends (if command = .leave then _ else _) _ _
    split
    · intro status L hr
      cases hr
      exact h
    · refine Ends.bind (perform_links h b.turn command) ?_
      rintro ⟨status, L, rest⟩ hL
      show Ends (if status ≠ OK then _ else _) _ _
      split
      · intro status L hr
        cases hr
        exact hL
      · exact nofun
  exact hlinks.of_eq_ok hlast status L rfl

/-- **The book stops where one of its turns does.** `destructor` does not. -/
theorem book_stops (w : World) (inp : List UInt8) :
    ¬ Stops E (addressBook w inp) ↔ ∀ b, Reached w inp b → ¬ Stops E (b.next w) := by
  unfold addressBook
  cases hobject : w.object with
  | none =>
    refine ⟨fun _ b ⟨garbage, hsome, _⟩ => ?_, fun _ h => h.of_ok⟩
    cases hobject.symm.trans hsome
  | some garbage =>
    constructor
    · rintro hends b ⟨garbage', hsome, hreaches⟩ hstops
      cases hobject.symm.trans hsome
      exact hends (stops_bind.mpr (.inl ((loop_stops _ _).mpr ⟨b, hreaches, hstops⟩)))
    · intro hturns
      have hreached : ∀ b, Reaches (nextOf (Book.next w)) (fun _ _ => True)
          ⟨0, initObj garbage, inp⟩ b → Reached w inp b :=
        fun b hreaches => ⟨garbage, hobject, hreaches⟩
      refine not_stops_bind (fun hloop => ?_) ?_
      · obtain ⟨b, hreaches, hstops⟩ := (loop_stops _ _).mp hloop
        exact hturns b (hreached b hreaches) hstops
      · rintro ⟨status, L⟩ hloop
        obtain ⟨b, hreaches, ⟨e, -, herror⟩ | ⟨r, hlast, hok⟩⟩ := loop_last (next_shrinks w) _
        · cases herror.symm.trans hloop
        · cases hok.symm.trans hloop
          have hlinked := linked_of_last (hreached b hreaches).linked hlast
          obtain ⟨heap, hfreed⟩ := destructor_linked hlinked
          show ¬ Stops E (destructor L >>= _)
          rw [bind_of_ok hfreed]
          exact Stops.of_ok

end TaskLedger
end Labs
