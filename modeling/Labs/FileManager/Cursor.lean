import Labs.FileManager.Program

/-!
# The cursor

Within a pane the cursor keeps to the entries: `KEY_DOWN` looks whether there is one more, and a
directory that is opened has an entry. But `c_y` and `offset` belong to the pane they were moved
in, and `KEY_LEFT` and `KEY_RIGHT` take them to a pane with a list of its own length. These two
keys are the only way out of the list, and they are one exactly where the other pane has not got
more than `idx` entries (`cursor_in_range_iff`).

## One inequality

`InRange` asks for two accesses and two bounds. All of them follow from `idx` being below the number
of entries of the active pane, by what no key changes (`Sound.inRange_iff`): the row is never above
the first, and the list is never scrolled over its start.

`Moves` says once where a key can lead, with the guard of its branch. `up` and `scrollUp` make `idx`
smaller, `down` and `scrollDown` have looked at the next entry, `enter` goes to the first entry of a
list that is not empty. What remains is `switch`, which keeps `idx` and changes the list, and `Fits`
is its condition.
-/

namespace Labs
namespace FileManager

open Lib

variable {w : World} {mc mc' : Mc} {key : Key}

/-- The cursor is at an entry of the active pane, and both accesses of the turn to `name_list` are
    inside of it. -/
structure InRange (mc : Mc) : Prop where
  low : 0 ≤ mc.cY - 2
  high : mc.cY - 2 + mc.offset < mc.n mc.side
  line : (nameAt mc.active.nameList.names (mc.cY - 2)).isSome
  entry : (nameAt mc.active.nameList.names mc.idx).isSome

/-- The pane that the key makes the active one. -/
def Key.target : Key → Option Win
  | .RIGHT => some .RIGHT
  | .LEFT => some .LEFT
  | _ => none

/-- The key does not lead to another pane, or to one with more than `idx` entries. -/
def Fits (mc : Mc) (key : Key) : Prop :=
  ∀ side, key.target = some side → mc.side ≠ side → mc.idx < mc.n side

/-- What no key changes. -/
structure Sound (mc : Mc) : Prop where
  row : 2 ≤ mc.cY
  offset : 0 ≤ mc.offset

/-- Every pane has an entry. -/
theorem Mc.n_pos (mc : Mc) (side : Win) : 0 < mc.n side :=
  List.length_pos_iff.mpr (mc.pane side).nameList.nonempty

/-- The accesses are inside of the list if the entry at `idx` is. -/
theorem Sound.inRange_iff (h : Sound mc) : InRange mc ↔ mc.idx < mc.n mc.side := by
  have hrow := h.row
  have hoffset := h.offset
  constructor
  · exact fun hin => hin.high
  · intro hlt
    have hlt' : mc.cY - 2 + mc.offset < mc.active.nameList.names.length := hlt
    exact ⟨by omega, hlt, nameAt_isSome.mpr ⟨by omega, by omega⟩,
      nameAt_isSome.mpr ⟨by unfold Mc.idx; omega, hlt⟩⟩

/-! ## 1. One key -/

/-- A turn of the loop: `display_line`, then the key. -/
theorem step_eq_some (h : step w mc key = some mc') :
    ∃ name, nameAt mc.active.nameList.names (mc.cY - 2) = some name ∧
      (mc.setPane { mc.active with line := mc.active.printed w name }).press w key = some mc' := by
  obtain ⟨pane, hpane, hpress⟩ := Option.bind_eq_some_iff.mp h
  obtain ⟨name, hname, rfl⟩ := displayLine_eq_some hpane
  exact ⟨name, hname, hpress⟩

/-- Where a key leads to. -/
inductive Moves (w : World) (mc : Mc) : Key → Mc → Prop
  | stay {key : Key} (h : ∀ side, key.target = some side → mc.side = side) : Moves w mc key mc
  | up (hrow : 2 < mc.cY) : Moves w mc .UP { mc with cY := mc.cY - 1 }
  | scrollUp (hrow : mc.cY ≤ 2) (hoffset : mc.offset ≠ 0) :
      Moves w mc .UP (mc.scroll w (mc.offset - 1))
  | down (hidx : mc.idx + 1 < mc.n mc.side) (hrow : mc.cY + 1 < w.LINES - 5) :
      Moves w mc .DOWN { mc with cY := mc.cY + 1 }
  | scrollDown (hidx : mc.idx + 1 < mc.n mc.side) (hrow : mc.cY + 1 ≥ w.LINES - 5) :
      Moves w mc .DOWN (mc.scroll w (mc.offset + 1))
  | switch {key : Key} {side : Win} (hkey : key.target = some side) (hside : mc.side ≠ side) :
      Moves w mc key { mc with side := side }
  | enter {answers : Answers} {path : Path} {nameList : Listing} :
      Moves w mc (.ENTER answers) (mc.opened w path nameList)

theorem Moves.still {key : Key} (h : key.target = none) : Moves w mc key mc :=
  .stay fun side hside => absurd (h.symm.trans hside) (by simp)

/-- The two keys that choose a pane. -/
theorem moves_to {side : Win} (hkey : key.target = some side)
    (h : (if mc.side ≠ side then some { mc with side := side } else some mc) = some mc') :
    Moves w mc key mc' := by
  split at h
  · rename_i hside
    cases h
    exact .switch hkey hside
  · rename_i hside
    cases h
    refine .stay fun target htarget => (not_not.mp hside).trans ?_
    exact Option.some.inj (hkey.symm.trans htarget)

theorem moves_of_enter {answers : Answers} (h : mc.enter w answers = some mc') :
    Moves w mc (.ENTER answers) mc' := by
  unfold Mc.enter at h
  split at h
  · cases h
  · obtain ⟨path, -, h⟩ := Option.bind_eq_some_iff.mp h
    obtain ⟨nameList, -, h⟩ := Option.bind_eq_some_iff.mp h
    cases h
    exact .enter

theorem moves_of_press (h : mc.press w key = some mc') : Moves w mc key mc' := by
  cases key with
  | EOF => cases h
  | UP =>
    simp only [Mc.press] at h
    split at h
    · rename_i hrow
      cases h
      exact .up hrow
    · rename_i hrow
      split at h
      · rename_i hoffset
        cases h
        exact .scrollUp (by omega) hoffset
      · cases h
        exact .still rfl
  | DOWN =>
    simp only [Mc.press] at h
    split at h
    · rename_i hdown
      cases h
      exact .down hdown.1 hdown.2
    · split at h
      · rename_i hdown
        cases h
        exact .scrollDown hdown.1 hdown.2
      · cases h
        exact .still rfl
  | RIGHT => exact moves_to rfl h
  | LEFT => exact moves_to rfl h
  | ENTER answers =>
    obtain ⟨name, -, h⟩ := Option.bind_eq_some_iff.mp h
    split at h
    · cases h
      exact .still rfl
    · split at h
      · exact moves_of_enter h
      · cases h
        exact .still rfl
  | other =>
    cases h
    exact .still rfl

@[simp] theorem scroll_n (w : World) (mc : Mc) (offset : Int) (side : Win) :
    (mc.scroll w offset).n side = mc.n side :=
  setPane_n (p := displayWnd w mc.active offset) rfl side

@[simp] theorem scroll_idx (w : World) (mc : Mc) (offset : Int) :
    (mc.scroll w offset).idx = mc.cY - 2 + offset := rfl

@[simp] theorem opened_idx (w : World) (mc : Mc) (path : Path) (nameList : Listing) :
    (mc.opened w path nameList).idx = 0 := rfl

/-- The cursor stays at or below the first row, and the list is never scrolled over its start. -/
theorem Moves.sound (h : Moves w mc key mc') (hs : Sound mc) : Sound mc' := by
  obtain ⟨hrow, hoffset⟩ := hs
  cases h with
  | stay => exact ⟨hrow, hoffset⟩
  | up hup => exact ⟨show 2 ≤ mc.cY - 1 by omega, hoffset⟩
  | scrollUp _ hne => exact ⟨hrow, show 0 ≤ mc.offset - 1 by omega⟩
  | down => exact ⟨show 2 ≤ mc.cY + 1 by omega, hoffset⟩
  | scrollDown => exact ⟨hrow, show 0 ≤ mc.offset + 1 by omega⟩
  | switch => exact ⟨hrow, hoffset⟩
  | enter => exact ⟨Int.le_refl 2, Int.le_refl 0⟩

theorem fits_of_no_target (h : key.target = none) : Fits mc key :=
  fun side hside => absurd (h.symm.trans hside) (by simp)

/-- **What one key does to the cursor.** -/
theorem Moves.idx_lt_iff (h : Moves w mc key mc') (hs : Sound mc) (hin : mc.idx < mc.n mc.side) :
    mc'.idx < mc'.n mc'.side ↔ Fits mc key := by
  have hoffset := hs.offset
  have hidx : mc.idx = mc.cY - 2 + mc.offset := rfl
  cases h with
  | stay htarget => exact ⟨fun _ side hside hne => absurd (htarget side hside) hne, fun _ => hin⟩
  | up hup =>
    have hcursor : mc.cY - 1 - 2 + mc.offset < mc.n mc.side := by omega
    exact ⟨fun _ => fits_of_no_target rfl, fun _ => hcursor⟩
  | scrollUp hup hne =>
    refine ⟨fun _ => fits_of_no_target rfl, fun _ => ?_⟩
    rw [scroll_n, scroll_idx]
    show mc.cY - 2 + (mc.offset - 1) < mc.n mc.side
    omega
  | down hdown _ =>
    have hcursor : mc.cY + 1 - 2 + mc.offset < mc.n mc.side := by omega
    exact ⟨fun _ => fits_of_no_target rfl, fun _ => hcursor⟩
  | scrollDown hdown _ =>
    refine ⟨fun _ => fits_of_no_target rfl, fun _ => ?_⟩
    rw [scroll_n, scroll_idx]
    show mc.cY - 2 + (mc.offset + 1) < mc.n mc.side
    omega
  | switch hkey hside =>
    refine ⟨fun hlt side htarget _ => ?_, fun hfit => hfit _ hkey hside⟩
    cases hkey.symm.trans htarget
    exact hlt
  | enter =>
    refine ⟨fun _ => fits_of_no_target rfl, fun _ => ?_⟩
    rw [opened_idx]
    exact_mod_cast Mc.n_pos _ _

/-! ## 2. Turns and runs -/

/-- The cursor after `display_line`. -/
theorem Sound.setPane (h : Sound mc) (p : Pane) : Sound (mc.setPane p) := ⟨h.row, h.offset⟩

theorem fits_setPane {p : Pane} (h : p.nameList = mc.active.nameList) :
    Fits (mc.setPane p) key ↔ Fits mc key := by
  simp only [Fits, setPane_side, setPane_idx, setPane_n h]

theorem sound_step (hs : Sound mc) (h : step w mc key = some mc') : Sound mc' := by
  obtain ⟨name, -, hpress⟩ := step_eq_some h
  exact (moves_of_press hpress).sound (hs.setPane _)

theorem inRange_step (hs : Sound mc) (hin : InRange mc) (h : step w mc key = some mc') :
    InRange mc' ↔ Fits mc key := by
  have hs' := sound_step hs h
  obtain ⟨name, -, hpress⟩ := step_eq_some h
  have hlist : ({ mc.active with line := mc.active.printed w name } : Pane).nameList =
    mc.active.nameList := rfl
  refine hs'.inRange_iff.trans (((moves_of_press hpress).idx_lt_iff (hs.setPane _) ?_).trans
    (fits_setPane hlist))
  rw [setPane_n hlist]
  exact hin.high

theorem sound_start (w : World) (cwd : Path) (left right : Listing) :
    Sound (start w cwd left right) := ⟨Int.le_refl 2, Int.le_refl 0⟩

theorem inRange_start (w : World) (cwd : Path) (left right : Listing) :
    InRange (start w cwd left right) := by
  refine (sound_start w cwd left right).inRange_iff.mpr ?_
  have hpos := Mc.n_pos (start w cwd left right) .LEFT
  show (2 : Int) - 2 + 0 < (start w cwd left right).n .LEFT
  omega

/-- **The cursor stays on an entry of the active pane, in all turns of all runs, exactly if the
    active pane is only changed to one with more than `idx` entries.** -/
theorem cursor_in_range_iff (w : World) (cwd : Path) (left right : Listing) (keys : List Key) :
    Visits (step w) InRange keys (start w cwd left right) ↔
      Takes (step w) Fits keys (start w cwd left right) :=
  visits_iff_takes (fun _ _ _ hs h => sound_step hs h) (fun _ _ _ hs hin h => inRange_step hs hin h)
    (sound_start w cwd left right) (inRange_start w cwd left right)

/-! A directory of four, of which `a` is a directory of two. It is opened in the left pane; the
cursor goes to the right pane, there to the last entry, and back. -/

def DOT : UInt8 := 46

def fourNames : Listing := ⟨[[DOT], [DOT, DOT], [97], [98]], by decide, by decide⟩

def twoNames : Listing := ⟨[[DOT], [DOT, DOT]], by decide, by decide⟩

/-- A terminal of twenty-four lines; every entry is a directory. -/
def directories : World := ⟨24, fun _ => some ⟨true⟩⟩

def opensA : Key := .ENTER ⟨true, some [SLASH, 97], some twoNames⟩

def backTooFar : List Key := [.DOWN, .DOWN, opensA, .RIGHT, .DOWN, .DOWN, .DOWN, .LEFT]

theorem cursor_behind_list :
    ¬ Visits (step directories) InRange backTooFar (start directories [SLASH] fourNames fourNames) := by
  intro h
  have hend : (run (step directories) backTooFar (start directories [SLASH] fourNames fourNames)).map
      (fun mc => (mc.idx, mc.n mc.side)) = some (3, 2) := by decide +kernel
  obtain ⟨mc, hrun, hmc⟩ := Option.map_eq_some_iff.mp hend
  have hin : InRange mc := h.of_run hrun
  have hidx : mc.idx < mc.n mc.side := hin.high
  rw [(Prod.mk.inj hmc).1, (Prod.mk.inj hmc).2] at hidx
  exact absurd hidx (by decide)

end FileManager
end Labs
