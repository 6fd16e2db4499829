import Mathlib.Data.List.NodupEquivFin
import Labs.FileManager.Cursor

/-!
# One selection

Three places of the program say which entry is selected. `display_wnd` has printed the entries
from `offset` on, each that `stat` knows in a row of its own, so what stands in the row `c_y`
depends on how many of those before it are unreadable. `display_line` takes the entry at
`c_y - 2`, which forgets the offset. `ENTER` takes the one at `idx`, which is `c_y - 2 + offset`.

On one pane the three agree exactly while the window has not been scrolled and all entries up to
the selected one are readable (`one_selection_iff`). With the window scrolled `display_line` is
right only where it prints nothing, and the status line shows the selected entry from before.

## Three indices

The three places of the program count differently. As long as nothing is scrolled and every entry
can be read they come to the same entry. Scrolling brings in the offset, an entry that `stat` does
not know moves those below it up by one row. So each place is given its own lemma, about what it
shows for a name (`row_iff`, `line_iff`), with the window as a filter of the list of names, and the
condition is what they have in common.

A row is compared with an entry of the list, not with a name: a directory has each name once, and
that is used where an element of a filtered list is to be found back in the list
(`getElem?_filter_eq_some_iff`).

`display_line` prints nothing for an entry that is unreadable, and then the line shows what it has
shown before. So it can be right with a scrolled window, by accident; the condition has this case
because the result is an equivalence.

The runs stay on one pane. What a key does to the offset and to the window when the pane changes is
the subject of `Cursor`.
-/

namespace Labs
namespace FileManager

open Lib

variable {w : World} {mc mc' : Mc} {key : Key}

/-! ## 1. The elements that a filter keeps in their places -/

section Filter

variable {α : Type} {p : α → Bool} {xs : List α} {x : α}

/-- A filter takes no element further back. -/
theorem le_of_getElem?_filter {i j : Nat} (hnodup : xs.Nodup) (hx : xs[i]? = some x)
    (hfilter : (xs.filter p)[j]? = some x) : j ≤ i := by
  obtain ⟨f, hf⟩ := List.sublist_iff_exists_orderEmbedding_getElem?_eq.mp
    (List.filter_sublist (p := p) (l := xs))
  have hsame : xs[f j]? = xs[i]? := (hf j).symm.trans (hfilter.trans hx.symm)
  have hlt : f j < xs.length := by
    apply (List.getElem?_eq_some_iff.mp (hsame.trans hx)).1
  calc j ≤ f j := f.strictMono.le_apply
    _ = i := (List.getElem?_inj hlt hnodup).mp hsame

/-- An element keeps its place if all of those up to it are kept. -/
theorem getElem?_filter_eq_some_iff {k : Nat} (hnodup : xs.Nodup) (hx : xs[k]? = some x) :
    (xs.filter p)[k]? = some x ↔ ∀ i ≤ k, ∀ y, xs[i]? = some y → p y = true := by
  induction xs generalizing k with
  | nil => cases hx
  | cons a xs ih =>
    obtain ⟨hnot, hnodup⟩ := List.nodup_cons.mp hnodup
    by_cases ha : p a = true
    · rw [List.filter_cons_of_pos ha]
      cases k with
      | zero =>
        refine ⟨fun _ i hi y hy => ?_, fun _ => hx⟩
        obtain rfl : i = 0 := Nat.le_zero.mp hi
        cases hy
        exact ha
      | succ k =>
        refine (ih hnodup hx).trans ⟨fun h i hi y hy => ?_, fun h i hi y hy => ?_⟩
        · cases i with
          | zero =>
            cases hy
            exact ha
          | succ i => exact h i (Nat.le_of_succ_le_succ hi) y hy
        · exact h (i + 1) (Nat.succ_le_succ hi) y hy
    · rw [List.filter_cons_of_neg ha]
      -- one element is missing, so `x` stands further to the front
      refine ⟨fun h => ?_, fun h => absurd (h 0 (Nat.zero_le k) a rfl) ha⟩
      cases k with
      | zero =>
        cases hx
        exact absurd (List.mem_of_mem_filter (List.mem_of_getElem? h)) hnot
      | succ k => exact absurd (le_of_getElem?_filter hnodup hx h) (Nat.not_succ_le_self k)

end Filter

/-! ## 2. The window and the status line -/

/-- What stands in a row of the window. -/
theorem lookup_displayRows (w : World) (path : Path) (names : List Name) (y : Int) (k : Nat) :
    (displayRows w path names y).lookup (y + k) =
      if y + k < w.LINES - 5 then
        ((names.filter fun name => w.readable ⟨path, name⟩)[k]?).map (Entry.mk path)
      else none := by
  induction names generalizing y k with
  | nil => simp [displayRows]
  | cons name names ih =>
    unfold displayRows
    by_cases hy : y ≥ w.LINES - 5
    · rw [if_pos hy, if_neg (by omega)]
      rfl
    · rw [if_neg hy]
      by_cases hread : w.readable ⟨path, name⟩ = true
      · rw [if_pos hread, List.filter_cons_of_pos (p := fun name => w.readable ⟨path, name⟩) hread]
        cases k with
        | zero =>
          rw [if_pos (by omega)]
          simp
        | succ k =>
          have hne : (y + (k + 1 : Nat) == y) = false := by simp; omega
          have hnext : y + (k + 1 : Nat) = y + 1 + k := by omega
          rw [List.lookup_cons, hne, hnext]
          exact ih (y + 1) k
      · rw [if_neg hread, List.filter_cons_of_neg (p := fun name => w.readable ⟨path, name⟩) hread]
        exact ih y k

/-- The window has been filled from `offset` on. -/
def Shown (w : World) (mc : Mc) : Prop :=
  mc.active.rows =
    displayRows w mc.active.pathWay (mc.active.nameList.names.drop mc.offset.toNat) 2

/-- The highlighted row, the status line after `display_line`, and the entry `ENTER` would open. -/
def OneSelection (w : World) (mc : Mc) : Prop :=
  ∃ pane e, displayLine w mc.active mc.cY = some pane ∧ pane.rows.lookup mc.cY = some e ∧
    pane.line = some e ∧ (nameAt pane.nameList.names mc.idx).map (Entry.mk pane.pathWay) = some e

/-- The row is one that `display_wnd` fills, and fills with the selected entry; and so is the
    status line. -/
structure Plain (w : World) (mc : Mc) : Prop where
  row : mc.cY < w.LINES - 5
  readable : ∀ i name, mc.offset ≤ i → i ≤ mc.idx → nameAt mc.active.nameList.names i = some name →
    w.readable ⟨mc.active.pathWay, name⟩ = true
  line : mc.offset = 0 ∨
    (∀ name, nameAt mc.active.nameList.names (mc.cY - 2) = some name →
      w.readable ⟨mc.active.pathWay, name⟩ = false) ∧
    mc.active.line = (nameAt mc.active.nameList.names mc.idx).map (Entry.mk mc.active.pathWay)

section Turn

variable {name : Name}

theorem mk_eq_mk {path : Path} {name' : Name} : Entry.mk path name = ⟨path, name'⟩ ↔ name = name' :=
  ⟨fun h => (Entry.mk.inj h).2, fun h => h ▸ rfl⟩

theorem nameAt_inj {names : List Name} {i j : Int} (hnodup : names.Nodup)
    (hi : nameAt names i = some name) (hj : nameAt names j = some name) : i = j := by
  have hi₀ := (nameAt_isSome.mp (Option.isSome_iff_exists.mpr ⟨name, hi⟩)).1
  have hj₀ := (nameAt_isSome.mp (Option.isSome_iff_exists.mpr ⟨name, hj⟩)).1
  rw [← Int.toNat_of_nonneg hi₀, nameAt_natCast] at hi
  rw [← Int.toNat_of_nonneg hj₀, nameAt_natCast] at hj
  have hlt := (List.getElem?_eq_some_iff.mp hi).1
  have hsame := (List.getElem?_inj hlt hnodup).mp (hi.trans hj.symm)
  omega

/-- The highlighted row shows the selected entry if all of those above it are readable. -/
theorem row_iff (hs : Sound mc) (hshown : Shown w mc)
    (hname : nameAt mc.active.nameList.names mc.idx = some name) :
    mc.active.rows.lookup mc.cY = some ⟨mc.active.pathWay, name⟩ ↔
      mc.cY < w.LINES - 5 ∧ ∀ i name, mc.offset ≤ i → i ≤ mc.idx →
        nameAt mc.active.nameList.names i = some name →
        w.readable ⟨mc.active.pathWay, name⟩ = true := by
  obtain ⟨k, hk⟩ := Int.eq_ofNat_of_zero_le (show 0 ≤ mc.cY - 2 by have := hs.row; omega)
  obtain ⟨o, ho⟩ := Int.eq_ofNat_of_zero_le hs.offset
  have hcY : mc.cY = 2 + (k : Int) := by omega
  have hidx : mc.idx = ((o + k : Nat) : Int) := by unfold Mc.idx; omega
  have hdrop : (mc.active.nameList.names.drop o)[k]? = some name := by
    rw [List.getElem?_drop, ← nameAt_natCast, ← hidx]
    exact hname
  rw [show mc.active.rows = _ from hshown, ho, Int.toNat_natCast, hcY, lookup_displayRows]
  split
  · rename_i hrow
    rw [Option.map_eq_some_iff]
    simp only [mk_eq_mk, exists_eq_right]
    rw [getElem?_filter_eq_some_iff (mc.active.nameList.nodup.sublist (List.drop_sublist ..)) hdrop]
    refine ⟨fun h => ⟨hrow, fun i name' hlow hhigh hi => ?_⟩, fun h i hi name' hi' => ?_⟩
    · obtain ⟨j, rfl⟩ := Int.eq_ofNat_of_zero_le (show 0 ≤ i by omega)
      apply h (j - o) (by omega) name'
      rw [List.getElem?_drop, show o + (j - o) = j by omega, ← nameAt_natCast]
      exact hi
    · apply h.2 ((o + i : Nat) : Int) name' (by omega) (by omega)
      rw [nameAt_natCast, ← List.getElem?_drop]
      exact hi'
  · rename_i hrow
    simp only [reduceCtorEq, false_iff]
    exact fun h => hrow h.1

/-- The status line shows the selected entry. -/
theorem line_iff {top : Name} (hname : nameAt mc.active.nameList.names mc.idx = some name)
    (htop : nameAt mc.active.nameList.names (mc.cY - 2) = some top) :
    mc.active.printed w top = some ⟨mc.active.pathWay, name⟩ ↔
      (w.readable ⟨mc.active.pathWay, top⟩ = true ∧ mc.offset = 0) ∨
      (w.readable ⟨mc.active.pathWay, top⟩ = false ∧
        mc.active.line = some ⟨mc.active.pathWay, name⟩) := by
  unfold Pane.printed
  split
  · rename_i hread
    have hsame : top = name ↔ mc.offset = 0 := by
      constructor
      · rintro rfl
        have hidx := nameAt_inj mc.active.nameList.nodup htop hname
        unfold Mc.idx at hidx
        omega
      · intro hoffset
        rw [Mc.idx, hoffset, Int.add_zero, htop] at hname
        exact Option.some.inj hname
    simp [hread, hsame]
  · rename_i hread
    simp [hread]

/-- **One turn**: the three agree. -/
theorem oneSelection_iff_plain (hs : Sound mc) (hin : InRange mc) (hshown : Shown w mc) :
    OneSelection w mc ↔ Plain w mc := by
  obtain ⟨name, hname⟩ := Option.isSome_iff_exists.mp hin.entry
  obtain ⟨top, htop⟩ := Option.isSome_iff_exists.mp hin.line
  have hrow := row_iff hs hshown hname
  have hline := line_iff (w := w) hname htop
  have hidx : mc.idx = mc.cY - 2 + mc.offset := rfl
  constructor
  · rintro ⟨pane, e, hpane, hlookup, hprinted, hselected⟩
    obtain ⟨top', htop', rfl⟩ := displayLine_eq_some hpane
    cases htop.symm.trans htop'
    obtain rfl : (⟨mc.active.pathWay, name⟩ : Entry) = e := by simpa [hname] using hselected
    obtain ⟨hlow, hread⟩ := hrow.mp hlookup
    refine ⟨hlow, hread, (hline.mp hprinted).imp (fun h => h.2) fun h => ⟨fun top' htop' => ?_, ?_⟩⟩
    · cases htop.symm.trans htop'
      exact h.1
    · rw [hname]
      exact h.2
  · intro hplain
    refine ⟨{ mc.active with line := mc.active.printed w top }, ⟨mc.active.pathWay, name⟩, ?_,
      hrow.mpr ⟨hplain.row, hplain.readable⟩, hline.mpr ?_, ?_⟩
    · unfold displayLine
      rw [htop]
      rfl
    · refine hplain.line.imp (fun hoffset => ⟨?_, hoffset⟩) fun h => ⟨h.1 top htop, ?_⟩
      · have hoffset₀ := hs.row
        exact hplain.readable (mc.cY - 2) top (by omega) (by omega) htop
      · rw [h.2, hname]
        rfl
    · show (nameAt mc.active.nameList.names mc.idx).map (Entry.mk mc.active.pathWay) = _
      rw [hname]
      rfl

end Turn

/-! ## 3. Runs on one pane -/

/-- The key does not lead to another pane than `side`. -/
def Key.StaysOn (side : Win) (key : Key) : Prop := ∀ target, key.target = some target → target = side

/-- The first turn, with the cursor in one of the panes. -/
def startOn (w : World) (cwd : Path) (left right : Listing) (side : Win) : Mc :=
  { start w cwd left right with side := side }

/-- What no key changes that leaves the pane active. -/
structure OnPane (w : World) (side : Win) (mc : Mc) : Prop where
  sound : Sound mc
  inRange : InRange mc
  shown : Shown w mc
  side : mc.side = side

theorem active_scroll (offset : Int) :
    (mc.scroll w offset).active = displayWnd w mc.active offset := Function.update_self ..

theorem active_opened (path : Path) (nameList : Listing) : (mc.opened w path nameList).active =
    displayWnd w { mc.active with pathWay := path, nameList := nameList } 0 :=
  Function.update_self ..

/-- A window that has been cleared is filled from the offset on. -/
theorem shown_of_displayWnd {p : Pane} (h : mc.active = displayWnd w p mc.offset) : Shown w mc := by
  unfold Shown
  rw [h]
  rfl

/-- `display_line` leaves the window as it is. -/
theorem shown_setPane {p : Pane} (hrows : p.rows = mc.active.rows)
    (hpath : p.pathWay = mc.active.pathWay) (hlist : p.nameList = mc.active.nameList)
    (h : Shown w mc) : Shown w (mc.setPane p) := by
  unfold Shown
  rw [active_setPane, hrows, hpath, hlist]
  exact h

theorem Moves.shown {side : Win} (h : Moves w mc key mc') (hshown : Shown w mc)
    (hside : mc.side = side) (hkey : key.StaysOn side) : Shown w mc' ∧ mc'.side = side := by
  cases h with
  | stay => exact ⟨hshown, hside⟩
  | up => exact ⟨hshown, hside⟩
  | scrollUp => exact ⟨shown_of_displayWnd (active_scroll _), hside⟩
  | down => exact ⟨hshown, hside⟩
  | scrollDown => exact ⟨shown_of_displayWnd (active_scroll _), hside⟩
  | switch htarget hne => exact absurd (hside.trans (hkey _ htarget).symm) hne
  | enter => exact ⟨shown_of_displayWnd (active_opened _ _), hside⟩

theorem onPane_step {side : Win} (hpane : OnPane w side mc) (hkey : key.StaysOn side)
    (h : step w mc key = some mc') : OnPane w side mc' := by
  have hfits : Fits mc key := fun target htarget hne =>
    absurd (hpane.side.trans (hkey target htarget).symm) hne
  have hin' := (inRange_step hpane.sound hpane.inRange h).mpr hfits
  obtain ⟨name, -, hpress⟩ := step_eq_some h
  obtain ⟨hshown', hside'⟩ := (moves_of_press hpress).shown (shown_setPane rfl rfl rfl hpane.shown)
    hpane.side hkey
  exact ⟨sound_step hpane.sound h, hin', hshown', hside'⟩

/-- The first entry of the list is printed into the status line. -/
theorem exists_firstPane (w : World) (cwd : Path) (list : Listing) :
    ∃ name, nameAt list.names (2 - 2) = some name ∧ firstPane w cwd list =
      { displayWnd w ⟨cwd, list, [], none⟩ 0 with
        line := Pane.printed w ⟨cwd, list, [], none⟩ name } := by
  have hpos : 0 < list.names.length := List.length_pos_iff.mpr list.nonempty
  obtain ⟨name, hname⟩ := Option.isSome_iff_exists.mp
    (nameAt_isSome.mpr ⟨Int.le_refl 0, Int.natCast_pos.mpr hpos⟩ : (nameAt list.names 0).isSome)
  have hline : displayLine w (displayWnd w ⟨cwd, list, [], none⟩ 0) 2 = some
      { displayWnd w ⟨cwd, list, [], none⟩ 0 with
        line := Pane.printed w ⟨cwd, list, [], none⟩ name } := by
    unfold displayLine
    rw [displayWnd_nameList, show (2 : Int) - 2 = 0 from rfl, hname]
    rfl
  refine ⟨name, hname, ?_⟩
  simp only [firstPane, hline, Option.getD_some]

theorem onPane_start (w : World) (cwd : Path) (left right : Listing) (side : Win) :
    OnPane w side (startOn w cwd left right side) := by
  have hsound : Sound (startOn w cwd left right side) := ⟨Int.le_refl 2, Int.le_refl 0⟩
  have hpos := Mc.n_pos (startOn w cwd left right side) side
  refine ⟨hsound, hsound.inRange_iff.mpr ?_, ?_, rfl⟩
  · show (2 : Int) - 2 + 0 < (startOn w cwd left right side).n side
    omega
  · have hfirst : ∃ list, (startOn w cwd left right side).active = firstPane w cwd list := by
      cases side with
      | LEFT => exact ⟨left, rfl⟩
      | RIGHT => exact ⟨right, rfl⟩
    obtain ⟨list, hactive⟩ := hfirst
    obtain ⟨name, -, hpane⟩ := exists_firstPane w cwd list
    unfold Shown
    rw [hactive, hpane]
    rfl

/-- `display_line` of the first entry once more. -/
theorem displayLine_firstPane (w : World) (cwd : Path) (list : Listing) :
    displayLine w (firstPane w cwd list) 2 = some (firstPane w cwd list) := by
  obtain ⟨name, hname, hpane⟩ := exists_firstPane w cwd list
  simp only [hpane, displayLine, displayWnd_nameList, hname, Option.map_some, Pane.printed,
    displayWnd_pathWay]
  split <;> rfl

/-- The right pane becomes active in the first turn. -/
theorem step_start_right (w : World) (cwd : Path) (left right : Listing) :
    step w (start w cwd left right) .RIGHT = some (startOn w cwd left right .RIGHT) := by
  have hline : displayLine w (start w cwd left right).active (start w cwd left right).cY =
      some (start w cwd left right).active := displayLine_firstPane w cwd left
  have hsame : (start w cwd left right).setPane (start w cwd left right).active =
      start w cwd left right := by
    unfold Mc.setPane Mc.active
    rw [Function.update_eq_self]
  unfold step
  rw [hline, Option.bind_eq_bind, Option.bind_some, hsame]
  rfl

/-- **The three agree in all turns of all runs on one pane, exactly if in all of them the selected
    entry is in a row of the window and no entry above it is unreadable, and the window is not
    scrolled, or `display_line` prints nothing over the name of the selected entry.** -/
theorem one_selection_iff (w : World) (cwd : Path) (left right : Listing) (side : Win)
    (keys : List Key) (hkeys : ∀ key ∈ keys, key.StaysOn side) :
    Visits (step w) (OneSelection w) keys (startOn w cwd left right side) ↔
      Visits (step w) (Plain w) keys (startOn w cwd left right side) :=
  visits_congr (fun _ _ _ hpane hkey h => onPane_step hpane hkey h) hkeys
    (fun _ hpane => oneSelection_iff_plain hpane.sound hpane.inRange hpane.shown)
    (onPane_start w cwd left right side)

theorem one_selection_down_up :
    (∀ key ∈ [Key.DOWN, .UP], key.StaysOn .LEFT) ∧
      (Visits (step directories) (OneSelection directories) [.DOWN, .UP]
          (startOn directories [SLASH] fourNames fourNames .LEFT) ↔
        Visits (step directories) (Plain directories) [.DOWN, .UP]
          (startOn directories [SLASH] fourNames fourNames .LEFT)) := by
  have hkeys : ∀ key ∈ [Key.DOWN, .UP], key.StaysOn .LEFT := by
    simp [Key.StaysOn, Key.target]
  exact ⟨hkeys, one_selection_iff directories [SLASH] fourNames fourNames .LEFT _ hkeys⟩

/-- A terminal with two rows for entries. -/
def low : World := ⟨9, fun _ => some ⟨true⟩⟩

/-- The second `KEY_DOWN` scrolls: `a` is selected and highlighted, and `..` in the status line. -/
theorem scrolled_shows_two :
    ¬ Visits (step low) (OneSelection low) [.DOWN, .DOWN]
      (startOn low [SLASH] fourNames fourNames .LEFT) := by
  intro h
  have hend : (run (step low) [.DOWN, .DOWN] (startOn low [SLASH] fourNames fourNames .LEFT)).map
      (fun mc => (displayLine low mc.active mc.cY, mc.cY)) =
    some (some ⟨[SLASH], fourNames, [(2, ⟨[SLASH], [DOT, DOT]⟩), (3, ⟨[SLASH], [97]⟩)],
      some ⟨[SLASH], [DOT, DOT]⟩⟩, 3) := by decide +kernel
  obtain ⟨mc, hrun, hmc⟩ := Option.map_eq_some_iff.mp hend
  obtain ⟨pane, e, hpane, hlookup, hline, -⟩ : OneSelection low mc := h.of_run hrun
  obtain ⟨hpane', hcY⟩ := Prod.mk.inj hmc
  cases hpane.symm.trans hpane'
  cases hline
  rw [hcY] at hlookup
  exact absurd hlookup (by decide)

end FileManager
end Labs
