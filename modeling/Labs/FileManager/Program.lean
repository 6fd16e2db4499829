import Labs.Lib.Processes

/-!
# The file manager

`LAB_11/task_mc`: two panes, each with the entries of a directory, and one cursor. `c_y` is the
row of the cursor in its pane and `offset` the entry in the first row; both belong to the pane
that is active, and stay as they are when the other one becomes active.

* A `Listing` is what `scandir` returns: it has an entry, and no name twice.
* `rows` is what `display_wnd` has printed into the window since it was cleared, and `line` what
  `display_line` has printed into the status line: it prints nothing when `stat` fails.
* `step` is one turn of the loop of `start_mc`, from the assignment of `idx` on. It has no next
  state where the loop ends, and where `name_list` is read outside of its entries.

`stat` is the same whenever it is asked, and so is the size of the terminal. Colours, sizes and
times of the entries, and the box around a window, are left out.
-/

namespace Labs
namespace FileManager

open Lib

abbrev Name := List UInt8
abbrev Path := List UInt8

structure Listing where
  names : List Name
  nonempty : names ≠ []
  nodup : names.Nodup
deriving DecidableEq

/-- An entry of a directory. -/
structure Entry where
  path : Path
  name : Name
deriving DecidableEq

def SLASH : UInt8 := 47

/-- `snprintf(str, sizeof(str), "%s/%s", …)`. -/
def Entry.str (e : Entry) : Path := e.path ++ SLASH :: e.name

/-- The part of `struct stat` that the program looks at: `S_ISDIR(sb.st_mode)`. -/
structure Stat where
  isDir : Bool
deriving DecidableEq

structure World where
  LINES : Int
  stat : Path → Option Stat

/-- `stat` of the entry succeeds. -/
def World.readable (w : World) (e : Entry) : Bool := (w.stat e.str).isSome

inductive Win
  | LEFT
  | RIGHT
deriving DecidableEq

structure Pane where
  pathWay : Path
  nameList : Listing
  rows : List (Int × Entry)
  line : Option Entry
deriving DecidableEq

structure Mc where
  pane : Win → Pane
  cY : Int
  side : Win
  offset : Int

/-- `name_list[i]`. -/
def nameAt (names : List Name) (i : Int) : Option Name := if 0 ≤ i then names[i.toNat]? else none

/-! ## 1. The windows -/

/-- The loop of `display_wnd`: the rows from `y` on, and the entries that are printed there. -/
def displayRows (w : World) (path : Path) : List Name → Int → List (Int × Entry)
  | [], _ => []
  | name :: names, y =>
    if y ≥ w.LINES - 5 then []
    else if w.readable ⟨path, name⟩ then (y, ⟨path, name⟩) :: displayRows w path names (y + 1)
    else displayRows w path names y

/-- `display_wnd`, into a window that has been cleared. -/
def displayWnd (w : World) (p : Pane) (offset : Int) : Pane :=
  { p with rows := displayRows w p.pathWay (p.nameList.names.drop offset.toNat) 2 }

/-- The status line after `display_line` of the name. -/
def Pane.printed (w : World) (p : Pane) (name : Name) : Option Entry :=
  if w.readable ⟨p.pathWay, name⟩ then some ⟨p.pathWay, name⟩ else p.line

/-- `display_line`: the name is that of `name_list[c_y - 2]`. -/
def displayLine (w : World) (p : Pane) (cY : Int) : Option Pane :=
  (nameAt p.nameList.names (cY - 2)).map fun name => { p with line := p.printed w name }

def Mc.setPane (mc : Mc) (p : Pane) : Mc := { mc with pane := Function.update mc.pane mc.side p }

def Mc.active (mc : Mc) : Pane := mc.pane mc.side

def Mc.idx (mc : Mc) : Int := mc.cY - 2 + mc.offset

/-- `n[side]`. -/
def Mc.n (mc : Mc) (side : Win) : Nat := (mc.pane side).nameList.names.length

/-! ## 2. The loop -/

/-- What the system answers when a directory is opened. -/
structure Answers where
  chdir : Bool
  getcwd : Option Path
  scandir : Option Listing

inductive Key
  | EOF
  | UP
  | DOWN
  | RIGHT
  | LEFT
  | ENTER (answers : Answers)
  | other

/-- `display_wnd(&mc, side, offset)` after `wclear`. -/
def Mc.scroll (w : World) (mc : Mc) (offset : Int) : Mc :=
  { mc.setPane (displayWnd w mc.active offset) with offset := offset }

/-- The pane after its window has been cleared and filled with another directory, with the cursor
    set to its first entry. -/
def Mc.opened (w : World) (mc : Mc) (path : Path) (nameList : Listing) : Mc :=
  let pane := displayWnd w { mc.active with pathWay := path, nameList := nameList } 0
  { mc.setPane pane with offset := 0, cY := 2 }

/-- The entry at `idx` is a directory, and becomes the one of the pane. -/
def Mc.enter (w : World) (mc : Mc) (answers : Answers) : Option Mc := do
  if answers.chdir = false then none
  else
    let path ← answers.getcwd
    let nameList ← answers.scandir
    some (mc.opened w path nameList)

def Mc.press (w : World) (mc : Mc) : Key → Option Mc
  | .EOF => none
  | .UP =>
    if mc.cY > 2 then some { mc with cY := mc.cY - 1 }
    else if mc.offset ≠ 0 then some (mc.scroll w (mc.offset - 1))
    else some mc
  | .DOWN =>
    if mc.idx + 1 < mc.n mc.side ∧ mc.cY + 1 < w.LINES - 5 then some { mc with cY := mc.cY + 1 }
    else if mc.idx + 1 < mc.n mc.side ∧ mc.cY + 1 ≥ w.LINES - 5 then
      some (mc.scroll w (mc.offset + 1))
    else some mc
  | .RIGHT => if mc.side ≠ .RIGHT then some { mc with side := .RIGHT } else some mc
  | .LEFT => if mc.side ≠ .LEFT then some { mc with side := .LEFT } else some mc
  | .ENTER answers => do
    let name ← nameAt mc.active.nameList.names mc.idx
    match w.stat (Entry.str ⟨mc.active.pathWay, name⟩) with
    | none => some mc
    | some sb => if sb.isDir then mc.enter w answers else some mc
  | .other => some mc

def step (w : World) (mc : Mc) (key : Key) : Option Mc := do
  let pane ← displayLine w mc.active mc.cY
  (mc.setPane pane).press w key

/-- A pane with the directory the program was started in. -/
def firstPane (w : World) (cwd : Path) (list : Listing) : Pane :=
  let pane := displayWnd w ⟨cwd, list, [], none⟩ 0
  (displayLine w pane 2).getD pane

/-- Before the first turn; the two panes have been read one after the other. -/
def start (w : World) (cwd : Path) (left right : Listing) : Mc where
  pane
    | .LEFT => firstPane w cwd left
    | .RIGHT => firstPane w cwd right
  cY := 2
  side := .LEFT
  offset := 0

/-! ## 3. Where the names are read -/

theorem nameAt_isSome {names : List Name} {i : Int} :
    (nameAt names i).isSome = true ↔ 0 ≤ i ∧ i < names.length := by
  unfold nameAt
  split
  · rename_i h
    rw [isSome_getElem?]
    omega
  · rename_i h
    simp [h]

theorem nameAt_natCast (names : List Name) (k : Nat) : nameAt names k = names[k]? := by
  simp [nameAt]

@[simp] theorem displayWnd_pathWay (w : World) (p : Pane) (offset : Int) :
    (displayWnd w p offset).pathWay = p.pathWay := rfl

@[simp] theorem displayWnd_nameList (w : World) (p : Pane) (offset : Int) :
    (displayWnd w p offset).nameList = p.nameList := rfl

/-- What `display_line` leaves, if it does not read outside of the list. -/
theorem displayLine_eq_some {w : World} {p p' : Pane} {cY : Int}
    (h : displayLine w p cY = some p') :
    ∃ name, nameAt p.nameList.names (cY - 2) = some name ∧
      p' = { p with line := p.printed w name } := by
  obtain ⟨name, hname, rfl⟩ := Option.map_eq_some_iff.mp h
  exact ⟨name, hname, rfl⟩

@[simp] theorem active_setPane (mc : Mc) (p : Pane) : (mc.setPane p).active = p :=
  Function.update_self ..

@[simp] theorem setPane_side (mc : Mc) (p : Pane) : (mc.setPane p).side = mc.side := rfl

@[simp] theorem setPane_idx (mc : Mc) (p : Pane) : (mc.setPane p).idx = mc.idx := rfl

/-- A pane that keeps its list. -/
theorem setPane_n {mc : Mc} {p : Pane} (h : p.nameList = mc.active.nameList) (side : Win) :
    (mc.setPane p).n side = mc.n side := by
  unfold Mc.n Mc.setPane
  by_cases hside : side = mc.side
  · subst hside
    simp only [Function.update_self, h]
    rfl
  · simp only [Function.update_of_ne hside]

end FileManager
end Labs
