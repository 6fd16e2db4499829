import Labs.FileManager.Program
import Labs.Lib.Ledger
import Labs.Lib.Loops

/-!
# What is freed at the end

`init_mc`, `deinit_mc`, `get_curdir_data` and `free_curdir_data` of `LAB_11/task_mc`, and `start_mc`
as far as it calls them or goes to `err`. The blocks are those that `scandir` allocates: one for each
entry, and one for the list of them. The windows are left out. What the cursor is on when ENTER is
pressed, the world decides here, and what the calls answer.

`n[side]` is the number of entries, the variable of the loops that free them, and what `scandir`
returned when it failed. In the last case there is no list, and the loop of `deinit_mc` looks into it
(`shutdown_safe_iff`). `free_curdir_data` looks for the list first.

## Ownership

Blocks are numbers of a `Lib.Ledger`, which has what is live and what has been freed; freeing a
block that is not live is an error of its own. `Memory.Sound` says that the live blocks are those of
the two sides and that the numbers in `n` are right. This is one invariant for the whole program:
`scandir` extends it (`Memory.put`), changing the directory gives blocks back and takes others, and
the keys leave it alone.

The one place where it fails is behind a `scandir` that has failed. Then `n[side]` is `-1` and the
list is missing, and the loop `while (n[side]--)` starts with a number that is not zero.
`Memory.AtErr` has both kinds of state, so there is a single statement about what `deinit_mc` finds,
and `shutdown_safe_iff` reads it off. The loop of `free_curdir_data` looks the same and is guarded;
that is why the failure is harmless there and not here.
-/

namespace Labs
namespace FileManager

open Lib

/-- What `name_list[side]` points to: a block with the pointers to the entries. -/
structure NameList where
  block : Nat
  entries : List Nat
deriving DecidableEq

/-- `n[side]` and `name_list[side]`. -/
structure Held where
  n : Int
  nameList : Option NameList
deriving DecidableEq

structure Memory where
  held : Win → Held
  side : Win
  ledger : Ledger

def FAIL : Int := -1

/-! ## 1. The program -/

/-- `name_list[side][k]` -/
def entryAt (nameList : Option NameList) (l : Ledger) (k : Int) : Except Stop Nat :=
  match nameList with
  | none => .error .nullDeref
  | some list =>
    if list.block ∉ l.live then .error .useAfterFree
    else if k < 0 then .error .outOfBounds
    else
      match list.entries[k.toNat]? with
      | none => .error .outOfBounds
      | some entry => .ok entry

/-- One turn of `while (n[side]--)`. -/
def freeTurn (nameList : Option NameList) (s : Int × Ledger) :
    Except Stop (Int × Ledger ⊕ Int × Ledger) :=
  if s.1 = 0 then .ok (.inl (-1, s.2))
  else do
    let entry ← entryAt nameList s.2 (s.1 - 1)
    let l ← s.2.free (some entry)
    .ok (.inr (s.1 - 1, l))

theorem nonneg_of_entryAt {nameList : Option NameList} {l : Ledger} {k : Int} {entry : Nat}
    (h : entryAt nameList l k = .ok entry) : 0 ≤ k := by
  unfold entryAt at h
  split at h
  · cases h
  · split at h
    · cases h
    · split at h
      · cases h
      · omega

/-- A turn that goes on has come from an entry. -/
theorem freeTurn_shrinking (nameList : Option NameList) :
    Shrinking (freeTurn nameList) fun s => s.1.toNat := by
  intro s s' h
  unfold freeTurn at h
  split at h
  · cases h
  · obtain ⟨entry, hentry, h⟩ := of_bind_eq_ok h
    obtain ⟨l, -, h⟩ := of_bind_eq_ok h
    cases h
    have hnonneg := nonneg_of_entryAt hentry
    show (s.1 - 1).toNat < s.1.toNat
    omega

/-- `while (n[side]--) free(name_list[side][n[side]])`: what is in `n[side]` then. -/
def freeEntries (nameList : Option NameList) (n : Int) (l : Ledger) : Except Stop (Int × Ledger) :=
  loop (freeTurn nameList) (fun s => s.1.toNat) (freeTurn_shrinking nameList) (n, l)

def freeCurdirData (h : Held) (l : Ledger) : Except Stop (Held × Ledger) :=
  match h.nameList with
  | none => .ok (h, l)
  | some list => do
    let (_, l) ← freeEntries (some list) h.n l
    let l ← l.free (some list.block)
    .ok (⟨0, none⟩, l)

/-- `n[side]` is what `scandir` returns; when it fails, the list stays as it is. -/
def getCurdirData (scandir : Option Listing) (h : Held) (l : Ledger) : Held × Ledger :=
  match scandir with
  | none => (⟨FAIL, h.nameList⟩, l)
  | some listing =>
    let (entries, l) := l.alloc listing.names.length
    (⟨listing.names.length, some ⟨l.brk, entries⟩⟩, (l.alloc 1).2)

/-- The two lines of `deinit_mc` for one of the sides. -/
def deinitSide (h : Held) (l : Ledger) : Except Stop Ledger := do
  let (_, l) ← freeEntries h.nameList h.n l
  l.free (h.nameList.map NameList.block)

def deinitMc (m : Memory) : Except Stop Ledger := do
  let l ← deinitSide (m.held .LEFT) m.ledger
  deinitSide (m.held .RIGHT) l

/-- Which of the calls has failed, or the end of the input. -/
inductive Exit
  | getcwd
  | scandir
  | chdir
  | EOF
deriving DecidableEq

/-- What the calls answer before the loop. -/
structure Setup where
  getcwd : Win → Bool
  scandir : Win → Option Listing

/-- After `init_mc`. -/
def Memory.init : Memory := ⟨fun _ => ⟨0, none⟩, .LEFT, .empty⟩

def Memory.put (m : Memory) (side : Win) (got : Held × Ledger) : Memory :=
  { m with held := Function.update m.held side got.1, ledger := got.2 }

def Memory.get (m : Memory) (side : Win) (scandir : Option Listing) : Memory :=
  m.put side (getCurdirData scandir (m.held side) m.ledger)

/-- `start_mc` up to the loop, or to `err`. -/
def setUp (a : Setup) : Exit × Memory ⊕ Memory :=
  if a.getcwd .LEFT = false ∨ a.getcwd .RIGHT = false then .inl (.getcwd, .init)
  else
    let m := Memory.init.get .LEFT (a.scandir .LEFT)
    if a.scandir .LEFT = none then .inl (.scandir, m)
    else
      let m := m.get .RIGHT (a.scandir .RIGHT)
      if a.scandir .RIGHT = none then .inl (.scandir, m) else .inr m

/-- A turn of the loop. -/
inductive Turn
  | EOF
  /-- `KEY_LEFT` and `KEY_RIGHT` -/
  | move (side : Win)
  /-- ENTER on a directory -/
  | ENTER (answers : Answers)
  /-- any other key, or ENTER on something else -/
  | other

def enterDir (m : Memory) (answers : Answers) : Except Stop (Exit × Memory ⊕ Memory) :=
  if answers.chdir = false then .ok (.inl (.chdir, m))
  else if answers.getcwd = none then .ok (.inl (.getcwd, m))
  else do
    let got ← freeCurdirData (m.held m.side) m.ledger
    let m := (m.put m.side got).get m.side answers.scandir
    .ok (if answers.scandir = none then .inl (.scandir, m) else .inr m)

def Memory.turn (m : Memory) : Turn → Except Stop (Exit × Memory ⊕ Memory)
  | .EOF => .ok (.inl (.EOF, m))
  | .move side => .ok (.inr { m with side := side })
  | .ENTER answers => enterDir m answers
  | .other => .ok (.inr m)

/-- These turns, or those of them that are taken before `err`. -/
def Memory.turns (m : Memory) : List Turn → Except Stop (Exit × Memory ⊕ Memory)
  | [] => .ok (.inr m)
  | turn :: turns => do
    match ← m.turn turn with
    | .inl exit => .ok (.inl exit)
    | .inr m => m.turns turns

def startMc (a : Setup) (turns : List Turn) : Except Stop (Exit × Memory ⊕ Memory) :=
  match setUp a with
  | .inl exit => .ok (.inl exit)
  | .inr m => m.turns turns

/-! ## 2. One side -/

variable {h : Held} {l : Ledger} {list : NameList} {rest : List Nat} {m : Memory} {side : Win}

def Held.entries (h : Held) : List Nat := (h.nameList.map NameList.entries).getD []

/-- The blocks that are freed through it. -/
def Held.blocks (h : Held) : List Nat := h.entries ++ (h.nameList.map NameList.block).toList

/-- `n[side]` is the number of the entries. -/
def Held.Whole (h : Held) : Prop := h.n = h.entries.length

/-- The last entry that is left is freed first. -/
theorem freeEntries_spec {k : Nat} (hk : k ≤ list.entries.length) (hblock : list.block ∈ rest)
    (hlive : l.live.Perm (list.entries.take k ++ rest)) :
    ∃ l', freeEntries (some list) k l = .ok (-1, l') ∧ l'.live.Perm rest ∧
      l'.freed.Perm (list.entries.take k ++ l.freed) := by
  induction k generalizing l with
  | zero => exact ⟨l, loop_of_inl rfl, hlive, .refl _⟩
  | succ k ih =>
    have hentry : entryAt (some list) l k = .ok list.entries[k] := by
      have hmem : list.block ∈ l.live := hlive.mem_iff.mpr (List.mem_append_right _ hblock)
      simp [entryAt, hmem, List.getElem?_eq_getElem hk]
    rw [List.take_succ_eq_append_getElem hk, List.append_assoc] at hlive
    obtain ⟨l₁, hfree, hlive₁, hfreed₁⟩ := Ledger.free_live (hlive.trans List.perm_middle)
    obtain ⟨l₂, hloop, hlive₂, hfreed₂⟩ := ih (by omega) hlive₁
    have hturn : freeTurn (some list) (((k + 1 : Nat) : Int), l) = .ok (.inr ((k : Int), l₁)) := by
      have hne : ((k + 1 : Nat) : Int) ≠ 0 := by omega
      have hpred : ((k + 1 : Nat) : Int) - 1 = k := by omega
      unfold freeTurn
      rw [if_neg hne, hpred, bind_of_ok hentry, bind_of_ok hfree]
    refine ⟨l₂, ?_, hlive₂, ?_⟩
    · exact (loop_of_inr hturn).trans hloop
    · rw [List.take_succ_eq_append_getElem hk, List.append_assoc, List.singleton_append, ← hfreed₁]
      exact hfreed₂

/-- Where `n[side]` is right, all the blocks of the side are freed, and no other one. -/
theorem deinitSide_whole (hwhole : h.Whole) (hlive : l.live.Perm (h.blocks ++ rest)) :
    ∃ l', deinitSide h l = .ok l' ∧ l'.live.Perm rest ∧ l'.freed.Perm (h.blocks ++ l.freed) := by
  obtain ⟨n, nameList⟩ := h
  cases nameList with
  | none =>
    have hn : n = 0 := hwhole
    subst hn
    have hnone : freeEntries none 0 l = .ok (-1, l) := loop_of_inl rfl
    exact ⟨l, bind_of_ok hnone _, hlive, .refl _⟩
  | some list =>
    have hn : n = list.entries.length := hwhole
    subst hn
    have hblocks : Held.blocks ⟨list.entries.length, some list⟩ = list.entries ++ [list.block] := rfl
    rw [hblocks, List.append_assoc, List.singleton_append] at hlive ⊢
    have htake : list.entries.take list.entries.length = list.entries := List.take_length
    rw [← htake] at hlive
    obtain ⟨l₁, hloop, hlive₁, hfreed₁⟩ :=
      freeEntries_spec (Nat.le_refl _) (List.mem_cons_self ..) hlive
    obtain ⟨l₂, hfree, hlive₂, hfreed₂⟩ := Ledger.free_live hlive₁
    refine ⟨l₂, (bind_of_ok hloop _).trans hfree, hlive₂, ?_⟩
    rw [hfreed₂]
    rw [htake] at hfreed₁
    exact (hfreed₁.cons list.block).trans List.perm_middle.symm

/-- `free_curdir_data` does the same, and says so. -/
theorem freeCurdirData_whole (hwhole : h.Whole) (hlive : l.live.Perm (h.blocks ++ rest)) :
    ∃ l', freeCurdirData h l = .ok (⟨0, none⟩, l') ∧ l'.live.Perm rest := by
  obtain ⟨l', hdeinit, hlive', -⟩ := deinitSide_whole hwhole hlive
  obtain ⟨n, nameList⟩ := h
  cases nameList with
  | none =>
    have hn : n = 0 := hwhole
    subst hn
    exact ⟨l, rfl, hlive⟩
  | some list =>
    refine ⟨l', ?_, hlive'⟩
    obtain ⟨⟨n', l₁⟩, hloop, hfree⟩ := of_bind_eq_ok hdeinit
    have hfree : l₁.free (some list.block) = .ok l' := hfree
    show ((freeEntries (some list) n l).bind _) = _
    rw [hloop]
    show ((l₁.free (some list.block)).bind _) = _
    rw [hfree]
    rfl

/-- After `scandir` has failed there is no list, and the loop asks for an entry of it. -/
theorem deinitSide_failed (l : Ledger) : deinitSide ⟨FAIL, none⟩ l = .error .nullDeref := by
  have hloop : freeEntries none FAIL l = .error .nullDeref := loop_of_error rfl
  show ((freeEntries none FAIL l).bind _) = _
  rw [hloop]
  rfl

/-! ## 3. Both sides -/

def Win.other : Win → Win
  | .LEFT => .RIGHT
  | .RIGHT => .LEFT

theorem Win.other_ne (side : Win) : side.other ≠ side := by
  cases side <;> decide

/-- The blocks of both sides. -/
def Memory.blocks (m : Memory) : List Nat := (m.held .LEFT).blocks ++ (m.held .RIGHT).blocks

/-- The blocks that are live are those of the two sides, and the two numbers are right. -/
structure Memory.Sound (m : Memory) : Prop where
  whole : ∀ side, (m.held side).Whole
  owns : m.ledger.live.Perm m.blocks

@[simp] theorem Memory.put_held (got : Held × Ledger) : (m.put side got).held side = got.1 := by
  simp [put]

@[simp] theorem Memory.put_other (got : Held × Ledger) :
    (m.put side got).held side.other = m.held side.other := by
  simp [put, Win.other_ne]

theorem Memory.blocks_perm (m : Memory) (side : Win) :
    m.blocks.Perm ((m.held side).blocks ++ (m.held side.other).blocks) := by
  cases side with
  | LEFT => exact .refl _
  | RIGHT => exact List.perm_append_comm

/-- What is put into one side leaves the other one as it is. -/
theorem Memory.sound_put {got : Held × Ledger} (hother : (m.held side.other).Whole)
    (hwhole : got.1.Whole)
    (howns : got.2.live.Perm (got.1.blocks ++ (m.held side.other).blocks)) :
    (m.put side got).Sound where
  whole := by
    have hboth : ∀ other, other = side ∨ other = side.other := by
      intro other
      cases other <;> cases side <;> simp [Win.other]
    intro other
    obtain rfl | rfl := hboth other
    · rw [put_held]
      exact hwhole
    · rw [put_other]
      exact hother
  owns := by
    have hblocks := (m.put side got).blocks_perm side
    rw [put_held, put_other] at hblocks
    exact howns.trans hblocks.symm

/-- The entries that `scandir` has found belong to the side that it was asked for. -/
theorem Memory.Sound.get (hm : m.Sound) (hnone : (m.held side).nameList = none)
    (listing : Listing) : (m.get side (some listing)).Sound := by
  apply sound_put (hm.whole side.other)
  · simp [getCurdirData, Held.Whole, Held.entries, Ledger.alloc]
  · have hlive : (getCurdirData (some listing) (m.held side) m.ledger).2.live =
        (m.ledger.brk + listing.names.length) ::
          (List.range' m.ledger.brk listing.names.length ++ m.ledger.live) := by
      simp [getCurdirData, Ledger.alloc]
    have hblocks : (getCurdirData (some listing) (m.held side) m.ledger).1.blocks =
        List.range' m.ledger.brk listing.names.length ++
          [m.ledger.brk + listing.names.length] := by
      simp [getCurdirData, Held.blocks, Held.entries, Ledger.alloc]
    have howns : m.ledger.live.Perm (m.held side.other).blocks := by
      have hperm := hm.owns.trans (m.blocks_perm side)
      simpa [Held.blocks, Held.entries, hnone] using hperm
    rw [hlive, hblocks, List.append_assoc, List.singleton_append]
    exact List.perm_middle.symm.trans ((howns.cons _).append_left _)

theorem Memory.get_none : (m.get side none).held side = ⟨FAIL, (m.held side).nameList⟩ := by
  simp [get, getCurdirData]

/-! ## 4. The way to `err` -/

/-- At `err`: the memory is sound, or `scandir` has failed and there is no list on its side. -/
def Memory.AtErr (m : Memory) (exit : Exit) : Prop :=
  if exit = .scandir then ∃ side, m.held side = ⟨FAIL, none⟩ else m.Sound

def Rightly : Exit × Memory ⊕ Memory → Prop
  | .inl exit => exit.2.AtErr exit.1
  | .inr m => m.Sound

theorem sound_init : Memory.init.Sound where
  whole := fun _ => rfl
  owns := .refl _

/-- Before `scandir` is asked for a side, the side has no list. -/
theorem rightly_get (hm : m.Sound) (hnone : (m.held side).nameList = none)
    (scandir : Option Listing) :
    Rightly (if scandir = none then .inl (.scandir, m.get side scandir)
      else .inr (m.get side scandir)) := by
  cases scandir with
  | none => exact ⟨side, by rw [Memory.get_none, hnone]⟩
  | some listing => exact hm.get hnone listing

theorem rightly_setUp (a : Setup) : Rightly (setUp a) := by
  unfold setUp
  split
  · exact sound_init
  · cases hleft : a.scandir .LEFT with
    | none => exact ⟨.LEFT, Memory.get_none⟩
    | some left =>
      have hsound : (Memory.init.get .LEFT (some left)).Sound := sound_init.get rfl left
      exact rightly_get hsound rfl (a.scandir .RIGHT)

/-- The list is freed before `scandir` is asked for another one. -/
theorem rightly_enterDir (hm : m.Sound) (answers : Answers) :
    Ends (enterDir m answers) (fun _ => False) Rightly := by
  unfold enterDir
  split
  · exact hm
  · split
    · exact hm
    · obtain ⟨l', hfree, hlive⟩ := freeCurdirData_whole (hm.whole m.side)
        (hm.owns.trans (m.blocks_perm m.side))
      rw [bind_of_ok hfree]
      have hsound : (m.put m.side (⟨0, none⟩, l')).Sound :=
        Memory.sound_put (hm.whole m.side.other) rfl hlive
      exact rightly_get hsound (by rw [Memory.put_held]) answers.scandir

theorem rightly_turn (hm : m.Sound) (turn : Turn) :
    Ends (m.turn turn) (fun _ => False) Rightly := by
  cases turn with
  | EOF => exact hm
  | move side => exact ⟨hm.whole, hm.owns⟩
  | ENTER answers => exact rightly_enterDir hm answers
  | other => exact hm

theorem rightly_turns (hm : m.Sound) (turns : List Turn) :
    Ends (m.turns turns) (fun _ => False) Rightly := by
  induction turns generalizing m with
  | nil => exact hm
  | cons turn turns ih =>
    apply Ends.bind (rightly_turn hm turn)
    intro r hr
    cases r with
    | inl exit => exact hr
    | inr m' => exact ih hr

/-- In the loop nothing is freed that is not live. -/
theorem rightly_startMc (a : Setup) (turns : List Turn) :
    Ends (startMc a turns) (fun _ => False) Rightly := by
  have hsetUp := rightly_setUp a
  unfold startMc
  cases h : setUp a with
  | inl exit =>
    rw [h] at hsetUp
    exact hsetUp
  | inr m =>
    rw [h] at hsetUp
    exact rightly_turns hsetUp turns

/-! ## 5. `deinit_mc` -/

/-- It returns, and has freed the blocks of the two sides and nothing else; then none is live. -/
def Memory.ShutsDown (m : Memory) : Prop :=
  ∃ l, deinitMc m = .ok l ∧ l.live = [] ∧ l.freed.Perm (m.blocks ++ m.ledger.freed)

theorem Memory.Sound.shutsDown (hm : m.Sound) : m.ShutsDown := by
  obtain ⟨l₁, hleft, hlive₁, hfreed₁⟩ := deinitSide_whole (hm.whole .LEFT) hm.owns
  obtain ⟨l₂, hright, hlive₂, hfreed₂⟩ := @deinitSide_whole _ l₁ [] (hm.whole .RIGHT) (by simpa)
  refine ⟨l₂, (bind_of_ok hleft _).trans hright, hlive₂.eq_nil, ?_⟩
  rw [Memory.blocks, List.append_assoc]
  have hboth := hfreed₂.trans (hfreed₁.append_left _)
  rw [← List.append_assoc] at hboth ⊢
  exact hboth.trans (List.perm_append_comm.append_right _)

/-- The first side may be freed before the second one stops the program. -/
theorem not_shutsDown_of_failed (h : m.held side = ⟨FAIL, none⟩) : ¬ m.ShutsDown := by
  intro hshuts
  obtain ⟨l, hdeinit, -⟩ := hshuts
  obtain ⟨l₁, hleft, hright⟩ := of_bind_eq_ok hdeinit
  cases side with
  | LEFT =>
    rw [h, deinitSide_failed] at hleft
    cases hleft
  | RIGHT =>
    rw [h, deinitSide_failed] at hright
    cases hright

/-- **The shutdown is safe** unless `err` is reached because `scandir` has failed. -/
theorem shutdown_safe_iff (a : Setup) (turns : List Turn) (exit : Exit) (m : Memory)
    (herr : startMc a turns = .ok (.inl (exit, m))) : m.ShutsDown ↔ exit ≠ .scandir := by
  have hat : m.AtErr exit := (rightly_startMc a turns).of_eq_ok herr
  unfold Memory.AtErr at hat
  constructor
  · intro hshuts hexit
    rw [if_pos hexit] at hat
    obtain ⟨side, hfailed⟩ := hat
    exact not_shutsDown_of_failed hfailed hshuts
  · intro hexit
    rw [if_neg hexit] at hat
    exact hat.shutsDown

/-- In a directory with one entry, up to the end of the input. -/
def quietSetup : Setup := ⟨fun _ => true, fun _ => some ⟨[[46]], List.cons_ne_nil _ _,
  List.nodup_singleton _⟩⟩

theorem shutdown_safe_iff_leave :
    ∃ m, startMc quietSetup [.move .RIGHT, .EOF] = .ok (.inl (.EOF, m)) ∧ m.ShutsDown :=
  ⟨_, rfl, (shutdown_safe_iff quietSetup [.move .RIGHT, .EOF] .EOF _ rfl).mpr (by decide)⟩

/-- The program in a directory that cannot be read. -/
theorem not_shutsDown_unreadable :
    ∃ m, startMc ⟨fun _ => true, fun _ => none⟩ [] = .ok (.inl (.scandir, m)) ∧ ¬ m.ShutsDown :=
  ⟨_, rfl, @not_shutsDown_of_failed _ .LEFT Memory.get_none⟩

end FileManager
end Labs
