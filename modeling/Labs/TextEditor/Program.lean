import Mathlib.Tactic.Linarith
import Labs.Lib.CString
import Labs.Lib.Processes

/-!
# The text editor

`LAB_11/task_nano`. What is typed goes to two places: `echochar` puts it on the screen, at the
cursor that curses keeps, and the loop of `nano_editor` puts it into `lin_buf`, at the position it
keeps itself. `F2` writes `lin_buf` to a file.

* A `Size` is a terminal of at least six lines and two columns; `lin_buf` has `MENU_BORDER` rows of
  `RIGHT_BORDER` bytes.
* `cells` is the text on the screen. Borders, labels and the menu are no text: where they are
  drawn, the cell is blank.
* curses moves its cursor one cell for a character, from the last column to the start of the next
  line, and for a newline to the start of the next line; a newline clears the rest of its line.
* `step` is one turn of the loop. It has no next state where `lin_buf` is accessed outside of its
  rows, or a string function runs over the end of one. `F2` and `F4` end the loop.

That `F2` asks for the name of the file is left out; the file can be opened.
-/

namespace Labs
namespace TextEditor

open Lib

structure Size where
  mY : Int
  mX : Int
  lines : 6 ≤ mY
  columns : 2 ≤ mX

def Size.MENU_BORDER (z : Size) : Int := z.mY - 5
def Size.RIGHT_BORDER (z : Size) : Int := z.mX - 1
def LEFT_BORDER : Int := 1
def UPPER_BORDER : Int := 1
def BEG_X : Int := 1
def BEG_Y : Int := 1

def SPACE : UInt8 := 32

def DISPLAY_EDITOR_NAME : List UInt8 := ascii "text editor 0.0.1"
def DISPLAY_MODIFIED : List UInt8 := ascii "Modified      "

/-- A printable character, or a newline. -/
abbrev Typed : Type := { c : UInt8 // c = NEWLINE ∨ 32 ≤ c ∧ c < 127 }

inductive Key
  | MOUSE
  | F2
  | F4
  | UP
  | DOWN
  | LEFT
  | RIGHT
  | BACKSPACE
  | ch (c : Typed)

/-- `cur` is the cursor of curses, line and column; `file` what `F2` has written. -/
structure Nano where
  loop : Bool
  maxX : Int
  cY : Int
  cX : Int
  linBuf : Nat → Nat → UInt8
  lock : Bool
  cur : Int × Int
  cells : Int → Int → UInt8
  file : Option (List UInt8)

/-! ## 1. The screen -/

/-- `addch`, and `echochar`. -/
def Nano.addch (z : Size) (s : Nano) (c : UInt8) : Nano :=
  if c = NEWLINE then
    { s with
      cells := fun y x => if y = s.cur.1 ∧ s.cur.2 ≤ x then SPACE else s.cells y x
      cur := (s.cur.1 + 1, 0) }
  else
    { s with
      cells := fun y x => if y = s.cur.1 ∧ x = s.cur.2 then c else s.cells y x
      cur := if s.cur.2 + 1 < z.mX then (s.cur.1, s.cur.2 + 1) else (s.cur.1 + 1, 0) }

/-- `move(c_y, c_x)`. -/
def Nano.move (s : Nano) : Nano := { s with cur := (s.cY, s.cX) }

/-- `redraw` of `STDSCR`: the border. -/
def Nano.border (z : Size) (s : Nano) : Nano :=
  { s with
    cells := fun y x =>
      if y = 0 ∨ y = z.mY - 1 ∨ x = 0 ∨ x = z.mX - 1 then SPACE else s.cells y x }

/-- Where the text that is printed at column `x₀` of the first line goes. It goes on in the next
    line when a line is full. -/
def Covered (z : Size) (x₀ : Int) (text : List UInt8) (y x : Int) : Prop :=
  0 ≤ x ∧ x < z.mX ∧ x₀ ≤ y * z.mX + x ∧ y * z.mX + x < x₀ + text.length

instance (z : Size) (x₀ : Int) (text : List UInt8) (y x : Int) :
    Decidable (Covered z x₀ text y x) :=
  inferInstanceAs (Decidable (_ ∧ _))

/-- `mvprintw(0, x₀, text)`. -/
def Nano.mvprintw (z : Size) (s : Nano) (x₀ : Int) (text : List UInt8) : Nano :=
  { s with cells := fun y x => if Covered z x₀ text y x then SPACE else s.cells y x }

/-! ## 2. The rows -/

/-- `lin_buf[i][j]` is inside. -/
def Inside (z : Size) (i j : Int) : Prop :=
  0 ≤ i ∧ i < z.MENU_BORDER ∧ 0 ≤ j ∧ j < z.RIGHT_BORDER

instance (z : Size) (i j : Int) : Decidable (Inside z i j) := inferInstanceAs (Decidable (_ ∧ _))

def Nano.byte (z : Size) (s : Nano) (i j : Int) : Option UInt8 :=
  if Inside z i j then some (s.linBuf i.toNat j.toNat) else none

/-- The rows after one byte has been written. -/
def poke (linBuf : Nat → Nat → UInt8) (i j : Nat) (b : UInt8) : Nat → Nat → UInt8 :=
  fun i' j' => if i' = i ∧ j' = j then b else linBuf i' j'

def Nano.setByte (z : Size) (s : Nano) (i j : Int) (b : UInt8) : Option Nano :=
  if Inside z i j then some { s with linBuf := poke s.linBuf i.toNat j.toNat b } else none

/-- The bytes of a row. -/
def rowOf (z : Size) (linBuf : Nat → Nat → UInt8) (i : Nat) : List UInt8 :=
  (List.range z.RIGHT_BORDER.toNat).map (linBuf i)

/-- `lin_buf[i]`. -/
def Nano.row (z : Size) (s : Nano) (i : Int) : Option (List UInt8) :=
  if 0 ≤ i ∧ i < z.MENU_BORDER then some (rowOf z s.linBuf i.toNat) else none

/-- The loop that writes the rows, from row `i` on. There are `n` more. -/
def saveFrom (z : Size) (linBuf : Nat → Nat → UInt8) : Nat → Nat → Option (List UInt8)
  | 0, _ => none
  | n + 1, i =>
    if linBuf i 0 = NUL then some []
    else do
      let _ ← memchr (rowOf z linBuf i) NUL
      let rest ← saveFrom z linBuf n (i + 1)
      some (cstr (rowOf z linBuf i) ++ rest)

def save (z : Size) (linBuf : Nat → Nat → UInt8) : Option (List UInt8) :=
  saveFrom z linBuf z.MENU_BORDER.toNat 0

/-! ## 3. The keys -/

def Nano.up (z : Size) (s : Nano) : Option Nano :=
  if s.cY > UPPER_BORDER then do
    let nextStr ← s.row z (s.cY - 2)
    let nextStrLen ← memchr nextStr NUL
    let b ← s.byte z (s.cY - 2) (s.maxX - 1)
    some ({ s with cY := s.cY - 1, cX := if b = NUL then (nextStrLen : Int) else s.maxX }).move
  else some s

def Nano.down (z : Size) (s : Nano) : Option Nano :=
  if s.cY < z.MENU_BORDER then do
    let curStr ← s.row z (s.cY - 1)
    let nextStr ← s.row z s.cY
    let strlen ← memchr nextStr NUL
    let newline ← strchr nextStr NEWLINE
    let nextStrLen : Int := if newline = none then strlen + 1 else strlen
    let b ← s.byte z s.cY BEG_X
    if b = NUL then do
      let newline ← strchr curStr NEWLINE
      if newline = none then some s else some ({ s with cY := s.cY + 1, cX := BEG_X }).move
    else
      some ({ s with
        cY := s.cY + 1
        cX := if s.maxX > nextStrLen then nextStrLen else s.maxX }).move
  else some s

def Nano.left (s : Nano) : Nano :=
  if s.cX > LEFT_BORDER then ({ s with cX := s.cX - 1, maxX := s.cX - 1 }).move else s

def Nano.right (z : Size) (s : Nano) : Option Nano :=
  if s.cX < z.RIGHT_BORDER then do
    let b ← s.byte z (s.cY - 1) (s.cX - 1)
    if b = NUL ∨ b = NEWLINE then some s
    else some ({ s with cX := s.cX + 1, maxX := s.cX + 1 }).move
  else some s

/-- `KEY_BACKSPACE` behind the first column. -/
def Nano.erase (z : Size) (s : Nano) : Option Nano :=
  let t := ({ s with cur := (s.cY, s.cX - 1) }).addch z SPACE
  let t := ({ t with cX := t.cur.2 - 1, maxX := t.cur.2 - 1 }).move
  t.setByte z (t.cY - 1) (t.cX - 1) NUL

/-- `KEY_BACKSPACE` in the first column: the row above loses its newline. -/
def Nano.join (z : Size) (s : Nano) : Option Nano := do
  let nextStr ← s.row z (s.cY - 2)
  let b ← s.byte z (s.cY - 2) BEG_X
  if b = NUL then some ({ s with cY := s.cY - 1, maxX := s.cX }).move
  else do
    let nextStrLen ← memchr nextStr NUL
    let newline ← strchr nextStr NEWLINE
    let t ← match newline with
      | none => some s
      | some k => s.setByte z (s.cY - 2) k NUL
    some ({ t with cY := t.cY - 1, cX := nextStrLen, maxX := nextStrLen }).move

def Nano.backspace (z : Size) (s : Nano) : Option Nano :=
  if s.cX > LEFT_BORDER then s.erase z
  else if s.cY > UPPER_BORDER then s.join z
  else some s

/-- The line with the names, until `lock` is set. -/
def Nano.display (z : Size) (s : Nano) : Nano :=
  if s.lock then s
  else
    let t := (s.mvprintw z 3 DISPLAY_EDITOR_NAME).mvprintw z (z.mX / 2) DISPLAY_MODIFIED
    ({ t with lock := true }).move

/-- The default: the character is put on the screen and into its row. -/
def Nano.type (z : Size) (s : Nano) (c : UInt8) : Option Nano := do
  let t := s.addch z c
  let t ← t.setByte z (t.cY - 1) (t.cX - 1) c
  let t := { t with cX := t.cur.2, maxX := t.cur.2 }
  if c = NEWLINE then
    let t := { t with cY := t.cur.1, cX := BEG_X, maxX := BEG_X, lock := false }
    some ((t.border z).move.display z)
  else some (t.display z)

def Nano.press (z : Size) (s : Nano) : Key → Option Nano
  | .MOUSE => some s.move
  | .F2 => some { s with loop := false, file := save z s.linBuf }
  | .F4 => some { s with loop := false }
  | .UP => s.up z
  | .DOWN => s.down z
  | .LEFT => some s.left
  | .RIGHT => s.right z
  | .BACKSPACE => s.backspace z
  | .ch c => s.type z c

def step (z : Size) (s : Nano) (key : Key) : Option Nano := if s.loop then s.press z key else some s

def start : Nano where
  loop := true
  maxX := 0
  cY := BEG_Y
  cX := BEG_X
  linBuf := fun _ _ => NUL
  lock := false
  cur := (BEG_Y, BEG_X)
  cells := fun _ _ => SPACE
  file := none

/-! ## 4. Accesses to the rows -/

section Rows

variable {z : Size} {s : Nano} {linBuf : Nat → Nat → UInt8} {i k : Nat} {c : UInt8}

theorem byte_eq {i j : Int} (h : Inside z i j) :
    s.byte z i j = some (s.linBuf i.toNat j.toNat) := if_pos h

theorem setByte_eq {i j : Int} (h : Inside z i j) :
    s.setByte z i j c = some { s with linBuf := poke s.linBuf i.toNat j.toNat c } := if_pos h

@[simp] theorem poke_self {j : Nat} : poke linBuf i j c i j = c := if_pos ⟨rfl, rfl⟩

theorem poke_of_ne {i' j j' : Nat} (h : ¬ (i' = i ∧ j' = j)) :
    poke linBuf i j c i' j' = linBuf i' j' := if_neg h

/-- A row of one byte has no second one. -/
theorem byte_second_eq_none {i : Int} (h : ¬ 2 ≤ z.RIGHT_BORDER) : s.byte z i BEG_X = none := by
  refine if_neg fun hin => h ?_
  have hlt : (1 : Int) < z.RIGHT_BORDER := hin.2.2.2
  omega

theorem row_eq {i : Int} (hlow : 0 ≤ i) (hhigh : i < z.MENU_BORDER) :
    s.row z i = some (rowOf z s.linBuf i.toNat) := if_pos ⟨hlow, hhigh⟩

@[simp] theorem length_rowOf : (rowOf z linBuf i).length = z.RIGHT_BORDER.toNat := by
  simp [rowOf]

theorem getElem_rowOf (h : k < (rowOf z linBuf i).length) : (rowOf z linBuf i)[k] = linBuf i k := by
  simp [rowOf]

theorem mem_rowOf : c ∈ rowOf z linBuf i ↔ ∃ k < z.RIGHT_BORDER.toNat, linBuf i k = c := by
  simp [rowOf]

theorem memchr_rowOf_eq_some :
    memchr (rowOf z linBuf i) c = some k ↔
      k < z.RIGHT_BORDER.toNat ∧ linBuf i k = c ∧ ∀ j < k, linBuf i j ≠ c := by
  unfold memchr
  rw [List.findIdx?_eq_some_iff_getElem]
  simp only [getElem_rowOf, length_rowOf, beq_iff_eq, exists_prop]

/-- A string function that looks for the end of the row. -/
theorem memchr_rowOf_eq_none :
    memchr (rowOf z linBuf i) c = none ↔ ∀ k < z.RIGHT_BORDER.toNat, linBuf i k ≠ c := by
  rw [memchr_eq_none, mem_rowOf]
  exact ⟨fun h k hk he => h ⟨k, hk, he⟩, fun h ⟨k, hk, he⟩ => h k hk he⟩

/-- Where `strchr` stops. -/
theorem findIdx?_rowOf_eq_some :
    (rowOf z linBuf i).findIdx? (fun b => b == c || b == NUL) = some k ↔
      k < z.RIGHT_BORDER.toNat ∧ (linBuf i k = c ∨ linBuf i k = NUL) ∧
        ∀ j < k, linBuf i j ≠ c ∧ linBuf i j ≠ NUL := by
  rw [List.findIdx?_eq_some_iff_getElem]
  simp only [getElem_rowOf, length_rowOf, Bool.or_eq_true, beq_iff_eq, exists_prop, not_or]

theorem strchr_rowOf_eq_some :
    strchr (rowOf z linBuf i) c = some (some k) ↔
      k < z.RIGHT_BORDER.toNat ∧ linBuf i k = c ∧ ∀ j < k, linBuf i j ≠ c ∧ linBuf i j ≠ NUL := by
  unfold strchr
  rw [Option.map_eq_some_iff]
  constructor
  · rintro ⟨k', hk', hfound⟩
    obtain ⟨hlt, -, hbefore⟩ := findIdx?_rowOf_eq_some.mp hk'
    rw [List.getElem?_eq_getElem (by rwa [length_rowOf]), getElem_rowOf] at hfound
    split at hfound
    · rename_i hc
      cases hfound
      exact ⟨hlt, Option.some.inj hc, hbefore⟩
    · cases hfound
  · rintro ⟨hlt, hc, hbefore⟩
    refine ⟨k, findIdx?_rowOf_eq_some.mpr ⟨hlt, .inl hc, hbefore⟩, if_pos ?_⟩
    rw [List.getElem?_eq_getElem (by rwa [length_rowOf]), getElem_rowOf, hc]

/-- `strchr` does not run over the end of the row. -/
theorem exists_strchr_rowOf (hk : k < z.RIGHT_BORDER.toNat)
    (h : linBuf i k = c ∨ linBuf i k = NUL) :
    ∃ offset, strchr (rowOf z linBuf i) c = some offset := by
  have hmem : linBuf i k ∈ rowOf z linBuf i := mem_rowOf.mpr ⟨k, hk, rfl⟩
  rw [← Option.isSome_iff_exists]
  unfold strchr
  rw [Option.isSome_map, List.findIdx?_isSome, List.any_eq_true]
  exact ⟨linBuf i k, hmem, by simpa using h⟩

end Rows

section Display

variable {z : Size} {s : Nano}

@[simp] theorem display_cY : (s.display z).cY = s.cY := by
  unfold Nano.display
  split <;> rfl

@[simp] theorem display_cX : (s.display z).cX = s.cX := by
  unfold Nano.display
  split <;> rfl

@[simp] theorem display_maxX : (s.display z).maxX = s.maxX := by
  unfold Nano.display
  split <;> rfl

@[simp] theorem display_linBuf : (s.display z).linBuf = s.linBuf := by
  unfold Nano.display
  split <;> rfl

/-- The label leaves the cursor at the position, if it stood there. -/
theorem display_cur (h : s.cur = (s.cY, s.cX)) : (s.display z).cur = (s.cY, s.cX) := by
  unfold Nano.display
  split
  · exact h
  · rfl

end Display

end TextEditor
end Labs
