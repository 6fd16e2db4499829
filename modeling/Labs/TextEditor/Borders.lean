import Labs.TextEditor.Program

/-!
# The borders

`c_y` and `c_x` are to stay within the rows of `lin_buf` and their bytes. Five of the keys can take
them out. A character in the last column moves the cursor to column zero, and a newline in the last
row to a row that is not there, since neither is tested; `KEY_UP` and `KEY_BACKSPACE` take `c_x`
from the length of the row above, which is zero where its first byte has been erased; and `KEY_UP`,
`KEY_DOWN` and `KEY_BACKSPACE` look for the end of a row that need not have one, the latter two also
at its second byte, where a row may be one byte long. `Keeps` is the condition for each key, and
it is exact (`proceeds_iff_keeps`).

## The shape of the proof

For each key there are two lemmas. The first says when the key leads to a position inside
(`keeps_up`, `keeps_down`, …), an equivalence that has an access outside of `lin_buf` on its wrong
side as well: a key that reads a row that is not there has no next state. The second says that the
invariant is kept (`inv_up`, …). The run is then an instance of a general fact about conditions on
steps (`proceeds_iff_throughout`), and the equivalence survives it because the invariant holds in
every state that is reached.

The invariant is small on purpose. It says where the cursor of curses stands, that `max_x` is a
column, and that the last byte of a row holds no character. Nothing is said about what a row looks
like; a row may have newlines in its middle, or none, and the conditions of `Keeps` ask for what
each key reads of it. That is why the conditions are exact.

`max_x` is zero before the first key, which would make `max_x - 1` a byte in front of the row. It is
never used then: away from the first row something must have been typed (`Inv.one_le_maxX`).
-/

namespace Labs
namespace TextEditor

open Lib

variable {z : Size} {s s' : Nano} {key : Key}

/-- The position is one of `lin_buf`. -/
structure InBounds (z : Size) (s : Nano) : Prop where
  y_low : 1 ≤ s.cY
  y_high : s.cY ≤ z.MENU_BORDER
  x_low : 1 ≤ s.cX
  x_high : s.cX ≤ z.RIGHT_BORDER

theorem inBounds_iff : InBounds z s ↔
    (1 ≤ s.cY ∧ s.cY ≤ z.MENU_BORDER) ∧ 1 ≤ s.cX ∧ s.cX ≤ z.RIGHT_BORDER :=
  ⟨fun h => ⟨⟨h.y_low, h.y_high⟩, h.x_low, h.x_high⟩, fun h => ⟨h.1.1, h.1.2, h.2.1, h.2.2⟩⟩

instance (z : Size) (s : Nano) : Decidable (InBounds z s) := decidable_of_iff' _ inBounds_iff

/-- The row has an end. -/
def Terminated (z : Size) (linBuf : Nat → Nat → UInt8) (i : Nat) : Prop :=
  ∃ j < z.RIGHT_BORDER.toNat, linBuf i j = NUL

/-- When the key does not lead out. -/
def Keeps (z : Size) (s : Nano) : Key → Prop
  | .UP => UPPER_BORDER < s.cY →
      Terminated z s.linBuf (s.cY - 2).toNat ∧
        (s.linBuf (s.cY - 2).toNat (s.maxX - 1).toNat = NUL →
          s.linBuf (s.cY - 2).toNat 0 ≠ NUL)
  | .DOWN => s.cY < z.MENU_BORDER → 2 ≤ z.RIGHT_BORDER ∧ Terminated z s.linBuf s.cY.toNat
  | .BACKSPACE => s.cX = LEFT_BORDER → UPPER_BORDER < s.cY →
      2 ≤ z.RIGHT_BORDER ∧ (s.linBuf (s.cY - 2).toNat 1 ≠ NUL →
        Terminated z s.linBuf (s.cY - 2).toNat ∧ s.linBuf (s.cY - 2).toNat 0 ≠ NUL)
  | .ch c => if c.val = NEWLINE then s.cY < z.MENU_BORDER else s.cX < z.RIGHT_BORDER
  | _ => True

/-- What the keys keep, beside the position: the cursor of curses stands at it, `max_x` is a column,
    and the last byte of a row, where no other character fits, is a newline if it is anything. -/
structure Inv (z : Size) (s : Nano) : Prop where
  synced : s.cur = (s.cY, s.cX)
  maxX_high : s.maxX ≤ z.RIGHT_BORDER
  started : 1 ≤ s.maxX ∨ s.cY = BEG_Y ∧ ∀ i j, s.linBuf i j = NUL
  last : ∀ i, s.linBuf i (z.RIGHT_BORDER.toNat - 1) = NUL ∨
    s.linBuf i (z.RIGHT_BORDER.toNat - 1) = NEWLINE

theorem Size.one_le_MENU_BORDER (z : Size) : 1 ≤ z.MENU_BORDER := by
  have := z.lines
  unfold Size.MENU_BORDER
  omega

theorem Size.one_le_RIGHT_BORDER (z : Size) : 1 ≤ z.RIGHT_BORDER := by
  have := z.columns
  unfold Size.RIGHT_BORDER
  omega

/-- The bytes of `lin_buf` are the same. -/
theorem Inv.of_linBuf (h : Inv z s) (hbuf : s'.linBuf = s.linBuf) (hcur : s'.cur = (s'.cY, s'.cX))
    (hlow : 1 ≤ s'.maxX) (hhigh : s'.maxX ≤ z.RIGHT_BORDER) : Inv z s' :=
  ⟨hcur, hhigh, .inl hlow, hbuf ▸ h.last⟩

/-! ## 1. The arrows -/

/-- Away from the first row there is something in `lin_buf`, and `max_x` is set. -/
theorem Inv.one_le_maxX (h : Inv z s) (hy : UPPER_BORDER < s.cY) : 1 ≤ s.maxX := by
  refine h.started.resolve_right fun h => ?_
  have hbeg : s.cY = 1 := h.1
  unfold UPPER_BORDER at hy
  omega

theorem up_eq (hi : Inv z s) (hb : InBounds z s) (hy : UPPER_BORDER < s.cY) :
    s.up z = (memchr (rowOf z s.linBuf (s.cY - 2).toNat) NUL).map fun len =>
      ({ s with
        cY := s.cY - 1
        cX := if s.linBuf (s.cY - 2).toNat (s.maxX - 1).toNat = NUL then (len : Int)
          else s.maxX }).move := by
  have hmax := hi.one_le_maxX hy
  have hmax' := hi.maxX_high
  have hlow := hb.y_low
  have hhigh := hb.y_high
  have hup : 1 < s.cY := hy
  unfold Nano.up
  rw [if_pos hy, row_eq (by omega) (by omega),
    byte_eq (show Inside z (s.cY - 2) (s.maxX - 1) from ⟨by omega, by omega, by omega, by omega⟩)]
  simp only [Option.bind_eq_bind, Option.bind_some]
  cases memchr (rowOf z s.linBuf (s.cY - 2).toNat) NUL <;> rfl

/-- `strlen` of a row that does not start with its end. -/
theorem one_le_of_memchr {linBuf : Nat → Nat → UInt8} {i len : Nat}
    (h : memchr (rowOf z linBuf i) NUL = some len) : linBuf i 0 ≠ NUL ↔ 1 ≤ len := by
  obtain ⟨-, hnul, hbefore⟩ := memchr_rowOf_eq_some.mp h
  constructor
  · intro hfirst
    cases len with
    | zero => exact absurd hnul hfirst
    | succ n => exact Nat.succ_pos n
  · exact fun hpos => hbefore 0 hpos

theorem lt_of_memchr {linBuf : Nat → Nat → UInt8} {i len : Nat}
    (h : memchr (rowOf z linBuf i) NUL = some len) : (len : Int) < z.RIGHT_BORDER := by
  have hlt := (memchr_rowOf_eq_some.mp h).1
  omega

theorem terminated_iff {linBuf : Nat → Nat → UInt8} {i : Nat} :
    Terminated z linBuf i ↔ ∃ len, memchr (rowOf z linBuf i) NUL = some len := by
  rw [← Option.isSome_iff_exists, ← Option.ne_none_iff_isSome, ne_eq, memchr_rowOf_eq_none]
  unfold Terminated
  push Not
  rfl

theorem keeps_up (hi : Inv z s) (hb : InBounds z s) :
    Keeps z s .UP ↔ ∃ s', s.up z = some s' ∧ InBounds z s' := by
  by_cases hy : UPPER_BORDER < s.cY
  · have hmax := hi.one_le_maxX hy
    have hmax' := hi.maxX_high
    have hhigh := hb.y_high
    have hup : 1 < s.cY := hy
    rw [up_eq hi hb hy]
    constructor
    · intro h
      obtain ⟨hterm, hfirst⟩ := h hy
      obtain ⟨len, hlen⟩ := terminated_iff.mp hterm
      have hlt := lt_of_memchr hlen
      rw [hlen]
      refine ⟨_, rfl, show 1 ≤ s.cY - 1 by omega, show s.cY - 1 ≤ _ by omega, ?_, ?_⟩
      · show 1 ≤ if _ then (len : Int) else s.maxX
        split
        · rename_i hempty
          have hpos := (one_le_of_memchr hlen).mp (hfirst hempty)
          omega
        · exact hmax
      · show (if _ then (len : Int) else s.maxX) ≤ _
        split
        · exact hlt.le
        · exact hmax'
    · rintro ⟨s', hs', hb'⟩ -
      obtain ⟨len, hlen, rfl⟩ := Option.map_eq_some_iff.mp hs'
      refine ⟨terminated_iff.mpr ⟨len, hlen⟩, fun hempty => (one_le_of_memchr hlen).mpr ?_⟩
      have hx : 1 ≤ if _ then (len : Int) else s.maxX := hb'.x_low
      rw [if_pos hempty] at hx
      omega
  · refine ⟨fun _ => ⟨s, if_neg hy, hb⟩, fun _ h => absurd h hy⟩

theorem inv_up (hi : Inv z s) (hb : InBounds z s) (h : s.up z = some s') : Inv z s' := by
  by_cases hy : UPPER_BORDER < s.cY
  · rw [up_eq hi hb hy] at h
    obtain ⟨len, -, rfl⟩ := Option.map_eq_some_iff.mp h
    exact hi.of_linBuf rfl rfl (hi.one_le_maxX hy) hi.maxX_high
  · rw [Nano.up, if_neg hy] at h
    cases h
    exact hi

/-- The row below the cursor, when it has two bytes. -/
theorem down_eq (hb : InBounds z s) (hy : s.cY < z.MENU_BORDER) (hw : 2 ≤ z.RIGHT_BORDER) :
    s.down z = (memchr (rowOf z s.linBuf s.cY.toNat) NUL).bind fun strlen =>
      (strchr (rowOf z s.linBuf s.cY.toNat) NEWLINE).bind fun newline =>
        if s.linBuf s.cY.toNat 1 = NUL then
          (strchr (rowOf z s.linBuf (s.cY - 1).toNat) NEWLINE).bind fun newline =>
            if newline = none then some s else some ({ s with cY := s.cY + 1, cX := BEG_X }).move
        else
          let nextStrLen : Int := if newline = none then strlen + 1 else strlen
          some ({ s with
            cY := s.cY + 1
            cX := if s.maxX > nextStrLen then nextStrLen else s.maxX }).move := by
  have hlow := hb.y_low
  unfold Nano.down
  rw [if_pos hy, row_eq (by omega) (by omega), row_eq (by omega) hy,
    byte_eq (show Inside z s.cY BEG_X from ⟨by omega, hy, by decide, show (1 : Int) < _ by omega⟩)]
  rfl

/-- The length that `KEY_DOWN` takes for the row below. -/
theorem one_le_nextStrLen {linBuf : Nat → Nat → UInt8} {i len : Nat} {newline : Option Nat}
    (hlen : memchr (rowOf z linBuf i) NUL = some len)
    (hnewline : strchr (rowOf z linBuf i) NEWLINE = some newline) :
    (1 : Int) ≤ if newline = none then (len : Int) + 1 else len := by
  cases newline with
  | none =>
    rw [if_pos rfl]
    omega
  | some k =>
    rw [if_neg (Option.some_ne_none k)]
    obtain ⟨-, hk, hbefore⟩ := strchr_rowOf_eq_some.mp hnewline
    have hfirst : linBuf i 0 ≠ NUL := by
      cases k with
      | zero =>
        rw [hk]
        decide
      | succ n => exact (hbefore 0 (Nat.succ_pos n)).2
    have hpos := (one_le_of_memchr hlen).mp hfirst
    omega

/-- A newline in the row of the cursor has been typed. -/
theorem Inv.one_le_maxX_of_ne (hi : Inv z s) {i j : Nat} (h : s.linBuf i j ≠ NUL) : 1 ≤ s.maxX :=
  hi.started.resolve_right fun hnul => h (hnul.2 i j)

theorem down_cases (hi : Inv z s) (hb : InBounds z s) (hy : s.cY < z.MENU_BORDER) :
    ((2 ≤ z.RIGHT_BORDER ∧ Terminated z s.linBuf s.cY.toNat) ∧ ∃ s', s.down z = some s' ∧
      (s' = s ∨ ∃ cX, (1 ≤ cX ∧ cX ≤ z.RIGHT_BORDER) ∧ 1 ≤ s.maxX ∧
        s' = ({ s with cY := s.cY + 1, cX := cX }).move)) ∨
    (¬ (2 ≤ z.RIGHT_BORDER ∧ Terminated z s.linBuf s.cY.toNat) ∧ s.down z = none) := by
  have hlow := hb.y_low
  have hcols := z.one_le_RIGHT_BORDER
  by_cases hw : 2 ≤ z.RIGHT_BORDER
  · rw [down_eq hb hy hw]
    cases hlen : memchr (rowOf z s.linBuf s.cY.toNat) NUL with
    | none =>
      refine .inr ⟨fun h => ?_, rfl⟩
      obtain ⟨len, hlen'⟩ := terminated_iff.mp h.2
      cases hlen.symm.trans hlen'
    | some len =>
      have hterm : Terminated z s.linBuf s.cY.toNat := terminated_iff.mpr ⟨len, hlen⟩
      refine .inl ⟨⟨hw, hterm⟩, ?_⟩
      obtain ⟨j, hj, hnul⟩ := hterm
      obtain ⟨newline, hnewline⟩ := exists_strchr_rowOf (c := NEWLINE) hj (.inr hnul)
      simp only [hnewline, Option.bind_some]
      split
      · -- the last byte of the row of the cursor ends it, or is a newline
        have hlast : z.RIGHT_BORDER.toNat - 1 < z.RIGHT_BORDER.toNat := by omega
        obtain ⟨newline', hnewline'⟩ := exists_strchr_rowOf hlast (hi.last (s.cY - 1).toNat).symm
        simp only [hnewline', Option.bind_some]
        cases newline' with
        | none => exact ⟨s, rfl, .inl rfl⟩
        | some k =>
          have hne : s.linBuf (s.cY - 1).toNat k ≠ NUL := by
            rw [(strchr_rowOf_eq_some.mp hnewline').2.1]
            decide
          exact ⟨_, rfl, .inr ⟨BEG_X, ⟨by decide, hcols⟩, hi.one_le_maxX_of_ne hne, rfl⟩⟩
      · rename_i hsecond
        have hmax := hi.one_le_maxX_of_ne hsecond
        have hmax' := hi.maxX_high
        have hnext := one_le_nextStrLen hlen hnewline
        generalize (if newline = none then (len : Int) + 1 else len) = nextStrLen at hnext ⊢
        refine ⟨_, rfl, .inr ⟨_, ⟨?_, ?_⟩, hmax, rfl⟩⟩
        · split
          · exact hnext
          · exact hmax
        · split
          · rename_i hlong
            exact (lt_of_lt_of_le hlong hmax').le
          · exact hmax'
  · refine .inr ⟨fun h => hw h.1, ?_⟩
    unfold Nano.down
    rw [if_pos hy, row_eq (by omega) (by omega), row_eq (by omega) hy, byte_second_eq_none hw]
    simp only [Option.bind_eq_bind, Option.bind_none, Option.bind_fun_none]

theorem keeps_down (hi : Inv z s) (hb : InBounds z s) :
    Keeps z s .DOWN ↔ ∃ s', s.down z = some s' ∧ InBounds z s' := by
  have hlow := hb.y_low
  by_cases hy : s.cY < z.MENU_BORDER
  · rcases down_cases hi hb hy with ⟨hok, s', hs', hcases⟩ | ⟨hnot, hnone⟩
    · refine ⟨fun _ => ⟨s', hs', ?_⟩, fun _ _ => hok⟩
      rcases hcases with rfl | ⟨cX, hcX, -, rfl⟩
      · exact hb
      · exact ⟨show 1 ≤ s.cY + 1 by omega, show s.cY + 1 ≤ _ by omega, hcX.1, hcX.2⟩
    · refine ⟨fun h => absurd (h hy) hnot, fun ⟨s', hs', _⟩ => ?_⟩
      cases hnone.symm.trans hs'
  · exact ⟨fun _ => ⟨s, if_neg hy, hb⟩, fun _ h => absurd h hy⟩

theorem inv_down (hi : Inv z s) (hb : InBounds z s) (h : s.down z = some s') : Inv z s' := by
  by_cases hy : s.cY < z.MENU_BORDER
  · rcases down_cases hi hb hy with ⟨-, s₁, hs₁, hcases⟩ | ⟨-, hnone⟩
    · cases hs₁.symm.trans h
      rcases hcases with rfl | ⟨cX, hcX, hmax, rfl⟩
      · exact hi
      · exact hi.of_linBuf rfl rfl hmax hi.maxX_high
    · cases hnone.symm.trans h
  · rw [Nano.down, if_neg hy] at h
    cases h
    exact hi

theorem inBounds_left (hb : InBounds z s) : InBounds z s.left := by
  unfold Nano.left
  split
  · rename_i hx
    have hx' : 1 < s.cX := hx
    have hhigh := hb.x_high
    exact ⟨hb.y_low, hb.y_high, show 1 ≤ s.cX - 1 by omega, show s.cX - 1 ≤ _ by omega⟩
  · exact hb

theorem inv_left (hi : Inv z s) (hb : InBounds z s) : Inv z s.left := by
  unfold Nano.left
  split
  · rename_i hx
    have hx' : 1 < s.cX := hx
    have hhigh := hb.x_high
    exact hi.of_linBuf rfl rfl (show 1 ≤ s.cX - 1 by omega) (show s.cX - 1 ≤ _ by omega)
  · exact hi

/-- The byte at the position. -/
theorem InBounds.inside (hb : InBounds z s) : Inside z (s.cY - 1) (s.cX - 1) := by
  have h₁ := hb.y_low
  have h₂ := hb.y_high
  have h₃ := hb.x_low
  have h₄ := hb.x_high
  exact ⟨by omega, by omega, by omega, by omega⟩

theorem right_cases (hb : InBounds z s) :
    ∃ s', s.right z = some s' ∧ (s' = s ∨ s.cX < z.RIGHT_BORDER ∧
      s' = ({ s with cX := s.cX + 1, maxX := s.cX + 1 }).move) := by
  unfold Nano.right
  split
  · rename_i hx
    rw [byte_eq hb.inside]
    simp only [Option.bind_eq_bind, Option.bind_some]
    split
    · exact ⟨s, rfl, .inl rfl⟩
    · exact ⟨_, rfl, .inr ⟨hx, rfl⟩⟩
  · exact ⟨s, rfl, .inl rfl⟩

theorem keeps_right (hb : InBounds z s) : ∃ s', s.right z = some s' ∧ InBounds z s' := by
  obtain ⟨s', hs', rfl | ⟨hx, rfl⟩⟩ := right_cases hb
  · exact ⟨_, hs', hb⟩
  · have hlow := hb.x_low
    exact ⟨_, hs', hb.y_low, hb.y_high, show 1 ≤ s.cX + 1 by omega, show s.cX + 1 ≤ _ by omega⟩

theorem inv_right (hi : Inv z s) (hb : InBounds z s) (h : s.right z = some s') : Inv z s' := by
  obtain ⟨s₁, hs₁, hcases⟩ := right_cases hb
  cases hs₁.symm.trans h
  rcases hcases with rfl | ⟨hx, rfl⟩
  · exact hi
  · have hlow := hb.x_low
    exact hi.of_linBuf rfl rfl (show 1 ≤ s.cX + 1 by omega) (show s.cX + 1 ≤ _ by omega)

/-! ## 2. Erasing -/

/-- The two columns and the byte of `KEY_BACKSPACE`. -/
theorem erase_eq (hb : InBounds z s) (hx : LEFT_BORDER < s.cX) :
    s.erase z = some { s with
      cX := s.cX - 1
      maxX := s.cX - 1
      linBuf := poke s.linBuf (s.cY - 1).toNat (s.cX - 2).toNat NUL
      cur := (s.cY, s.cX - 1)
      cells := fun y x => if y = s.cY ∧ x = s.cX - 1 then SPACE else s.cells y x } := by
  have hx' : 1 < s.cX := hx
  have h₁ := hb.y_low
  have h₂ := hb.y_high
  have h₃ := hb.x_high
  have hright : s.cX - 1 + 1 < z.mX := by
    have hborder : z.RIGHT_BORDER = z.mX - 1 := rfl
    omega
  have hadd : ({ s with cur := (s.cY, s.cX - 1) } : Nano).addch z SPACE = { s with
      cur := (s.cY, s.cX)
      cells := fun y x => if y = s.cY ∧ x = s.cX - 1 then SPACE else s.cells y x } := by
    unfold Nano.addch
    rw [if_neg (by decide), if_pos hright, Int.sub_add_cancel]
  unfold Nano.erase
  rw [hadd]
  exact (setByte_eq (show Inside z (s.cY - 1) (s.cX - 1 - 1) from
    ⟨by omega, by omega, by omega, by omega⟩)).trans
      (by rw [show s.cX - 1 - 1 = s.cX - 2 by omega]; rfl)

theorem inBounds_erase (hb : InBounds z s) (hx : LEFT_BORDER < s.cX) :
    ∃ s', s.erase z = some s' ∧ InBounds z s' := by
  have hx' : 1 < s.cX := hx
  have hhigh := hb.x_high
  exact ⟨_, erase_eq hb hx, hb.y_low, hb.y_high, show 1 ≤ s.cX - 1 by omega,
    show s.cX - 1 ≤ _ by omega⟩

/-- Erasing a byte of a row keeps the last one. -/
theorem last_poke {linBuf : Nat → Nat → UInt8} {i j n : Nat} {c : UInt8}
    (h : ∀ i, linBuf i n = NUL ∨ linBuf i n = NEWLINE) (hc : j = n → c = NUL ∨ c = NEWLINE)
    (i' : Nat) : poke linBuf i j c i' n = NUL ∨ poke linBuf i j c i' n = NEWLINE := by
  unfold poke
  split
  · rename_i hij
    exact hc hij.2.symm
  · exact h i'

theorem inv_erase (hi : Inv z s) (hb : InBounds z s) (hx : LEFT_BORDER < s.cX)
    (h : s.erase z = some s') : Inv z s' := by
  have hx' : 1 < s.cX := hx
  have hhigh := hb.x_high
  cases (erase_eq hb hx).symm.trans h
  exact ⟨rfl, show s.cX - 1 ≤ _ by omega, .inl (show 1 ≤ s.cX - 1 by omega),
    last_poke hi.last fun _ => .inl rfl⟩

/-- The row above, after its newline has been cut. -/
def cut (linBuf : Nat → Nat → UInt8) (i : Nat) : Option Nat → Nat → Nat → UInt8
  | none => linBuf
  | some k => poke linBuf i k NUL

theorem join_cases (hb : InBounds z s) (hy : UPPER_BORDER < s.cY) :
    ((2 ≤ z.RIGHT_BORDER ∧ (s.linBuf (s.cY - 2).toNat 1 ≠ NUL →
        Terminated z s.linBuf (s.cY - 2).toNat)) ∧ ∃ s', s.join z = some s' ∧
      (s.linBuf (s.cY - 2).toNat 1 = NUL ∧ s' = ({ s with cY := s.cY - 1, maxX := s.cX }).move ∨
        s.linBuf (s.cY - 2).toNat 1 ≠ NUL ∧ ∃ (len : Nat) (newline : Option Nat),
          memchr (rowOf z s.linBuf (s.cY - 2).toNat) NUL = some len ∧
          strchr (rowOf z s.linBuf (s.cY - 2).toNat) NEWLINE = some newline ∧
          s' = ({ s with
            cY := s.cY - 1
            cX := len
            maxX := len
            linBuf := cut s.linBuf (s.cY - 2).toNat newline }).move)) ∨
    (¬ (2 ≤ z.RIGHT_BORDER ∧ (s.linBuf (s.cY - 2).toNat 1 ≠ NUL →
        Terminated z s.linBuf (s.cY - 2).toNat)) ∧ s.join z = none) := by
  have hy' : 1 < s.cY := hy
  have hhigh := hb.y_high
  by_cases hw : 2 ≤ z.RIGHT_BORDER
  · have hbyte : s.byte z (s.cY - 2) BEG_X = some (s.linBuf (s.cY - 2).toNat 1) :=
      byte_eq ⟨by omega, by omega, by decide, show (1 : Int) < _ by omega⟩
    have hrow := row_eq (z := z) (s := s) (show 0 ≤ s.cY - 2 by omega) (by omega)
    unfold Nano.join
    rw [hrow, hbyte]
    simp only [Option.bind_eq_bind, Option.bind_some]
    by_cases hsecond : s.linBuf (s.cY - 2).toNat 1 = NUL
    · exact .inl ⟨⟨hw, fun h => absurd hsecond h⟩, _, if_pos hsecond, .inl ⟨hsecond, rfl⟩⟩
    · rw [if_neg hsecond]
      cases hlen : memchr (rowOf z s.linBuf (s.cY - 2).toNat) NUL with
      | none =>
        refine .inr ⟨fun h => ?_, rfl⟩
        obtain ⟨len, hlen'⟩ := terminated_iff.mp (h.2 hsecond)
        cases hlen.symm.trans hlen'
      | some len =>
        have hterm : Terminated z s.linBuf (s.cY - 2).toNat := terminated_iff.mpr ⟨len, hlen⟩
        refine .inl ⟨⟨hw, fun _ => hterm⟩, ?_⟩
        obtain ⟨j, hj, hnul⟩ := hterm
        obtain ⟨newline, hnewline⟩ := exists_strchr_rowOf (c := NEWLINE) hj (.inr hnul)
        simp only [hnewline, Option.bind_some]
        cases newline with
        | none => exact ⟨_, rfl, .inr ⟨hsecond, len, none, rfl, rfl, rfl⟩⟩
        | some k =>
          have hk := (strchr_rowOf_eq_some.mp hnewline).1
          have hset := setByte_eq (s := s) (c := NUL) (show Inside z (s.cY - 2) (k : Int) from
            ⟨by omega, by omega, by omega, by omega⟩)
          simp only [hset, Option.bind_some]
          exact ⟨_, rfl, .inr ⟨hsecond, len, some k, rfl, rfl, rfl⟩⟩
  · refine .inr ⟨fun h => hw h.1, ?_⟩
    unfold Nano.join
    rw [byte_second_eq_none hw]
    simp only [Option.bind_eq_bind, Option.bind_none, Option.bind_fun_none]

theorem inBounds_join (hb : InBounds z s) (hx : s.cX = LEFT_BORDER) (hy : UPPER_BORDER < s.cY) :
    Keeps z s .BACKSPACE ↔ ∃ s', s.join z = some s' ∧ InBounds z s' := by
  have hy' : 1 < s.cY := hy
  have hhigh := hb.y_high
  have hup : 1 ≤ s.cY - 1 ∧ s.cY - 1 ≤ z.MENU_BORDER := ⟨by omega, by omega⟩
  rcases join_cases hb hy with ⟨⟨hw, hterm⟩, s', hs', hcases⟩ | ⟨hnot, hnone⟩
  · constructor
    · intro h
      refine ⟨s', hs', ?_⟩
      obtain ⟨-, hprev⟩ := h hx hy
      rcases hcases with ⟨-, rfl⟩ | ⟨hsecond, len, newline, hlen, -, rfl⟩
      · exact ⟨hup.1, hup.2, hb.x_low, hb.x_high⟩
      · have hpos := (one_le_of_memchr hlen).mp (hprev hsecond).2
        exact ⟨hup.1, hup.2, show (1 : Int) ≤ len by omega, (lt_of_memchr hlen).le⟩
    · rintro ⟨s₁, hs₁, hb₁⟩ - -
      cases hs'.symm.trans hs₁
      refine ⟨hw, fun hsecond => ⟨hterm hsecond, ?_⟩⟩
      rcases hcases with ⟨hempty, -⟩ | ⟨-, len, newline, hlen, -, rfl⟩
      · exact absurd hempty hsecond
      · have hlow : (1 : Int) ≤ len := hb₁.x_low
        exact (one_le_of_memchr hlen).mpr (by omega)
  · constructor
    · intro h
      obtain ⟨hw, hprev⟩ := h hx hy
      exact absurd ⟨hw, fun hsecond => (hprev hsecond).1⟩ hnot
    · rintro ⟨s₁, hs₁, -⟩
      cases hnone.symm.trans hs₁

theorem inv_join (hi : Inv z s) (hb : InBounds z s) (hy : UPPER_BORDER < s.cY) (h : s.join z = some s') (hb' : InBounds z s') : Inv z s' := by
  rcases join_cases hb hy with ⟨-, s₁, hs₁, hcases⟩ | ⟨-, hnone⟩
  · cases hs₁.symm.trans h
    rcases hcases with ⟨-, rfl⟩ | ⟨hsecond, len, newline, hlen, -, rfl⟩
    · exact hi.of_linBuf rfl rfl hb.x_low hb.x_high
    · refine ⟨rfl, hb'.x_high, .inl hb'.x_low, ?_⟩
      cases newline with
      | none => exact hi.last
      | some k => exact last_poke hi.last fun _ => .inl rfl
  · cases hnone.symm.trans h

theorem keeps_backspace (hb : InBounds z s) :
    Keeps z s .BACKSPACE ↔ ∃ s', s.backspace z = some s' ∧ InBounds z s' := by
  unfold Nano.backspace
  by_cases hx : s.cX > LEFT_BORDER
  · rw [if_pos hx]
    exact ⟨fun _ => inBounds_erase hb hx, fun _ heq => absurd heq hx.ne'⟩
  · rw [if_neg hx]
    have hx' : s.cX = LEFT_BORDER := le_antisymm (not_lt.mp hx) hb.x_low
    by_cases hy : s.cY > UPPER_BORDER
    · rw [if_pos hy]
      exact inBounds_join hb hx' hy
    · rw [if_neg hy]
      exact ⟨fun _ => ⟨s, rfl, hb⟩, fun _ _ h => absurd h hy⟩

theorem inv_backspace (hi : Inv z s) (hb : InBounds z s) (h : s.backspace z = some s')
    (hb' : InBounds z s') : Inv z s' := by
  unfold Nano.backspace at h
  split at h
  · rename_i hx
    exact inv_erase hi hb hx h
  · split at h
    · rename_i hy
      exact inv_join hi hb hy h hb'
    · cases h
      exact hi

/-! ## 3. Typing -/

/-- The character is in both places, before the label. -/
def Nano.typed (z : Size) (s : Nano) (c : UInt8) : Nano :=
  if c = NEWLINE then
    (({ s with
      cells := fun y x => if y = s.cY ∧ s.cX ≤ x then SPACE else s.cells y x
      cY := s.cY + 1, cX := BEG_X, maxX := BEG_X, lock := false
      linBuf := poke s.linBuf (s.cY - 1).toNat (s.cX - 1).toNat c } : Nano).border z).move
  else
    { s with
      cells := fun y x => if y = s.cY ∧ x = s.cX then c else s.cells y x
      cur := if s.cX + 1 < z.mX then (s.cY, s.cX + 1) else (s.cY + 1, 0)
      cX := if s.cX + 1 < z.mX then s.cX + 1 else 0
      maxX := if s.cX + 1 < z.mX then s.cX + 1 else 0
      linBuf := poke s.linBuf (s.cY - 1).toNat (s.cX - 1).toNat c }

theorem type_eq {c : UInt8} (hi : Inv z s) (hb : InBounds z s) :
    s.type z c = some ((s.typed z c).display z) := by
  unfold Nano.type Nano.addch Nano.typed
  rw [hi.synced]
  by_cases hc : c = NEWLINE
  · simp only [if_pos hc, setByte_eq hb.inside]
    rfl
  · simp only [if_neg hc, setByte_eq hb.inside]
    split <;> rfl

theorem inBounds_display : InBounds z (s.display z) ↔ InBounds z s := by
  constructor
  · rintro ⟨h₁, h₂, h₃, h₄⟩
    rw [display_cY] at h₁ h₂
    rw [display_cX] at h₃ h₄
    exact ⟨h₁, h₂, h₃, h₄⟩
  · rintro ⟨h₁, h₂, h₃, h₄⟩
    refine ⟨?_, ?_, ?_, ?_⟩ <;> simpa

theorem keeps_type {c : Typed} (hi : Inv z s) (hb : InBounds z s) :
    Keeps z s (.ch c) ↔ ∃ s', s.type z c.val = some s' ∧ InBounds z s' := by
  have hborder : z.RIGHT_BORDER = z.mX - 1 := rfl
  have hlow := hb.y_low
  have hleft := hb.x_low
  rw [type_eq hi hb]
  simp only [Option.some.injEq, exists_eq_left', inBounds_display, Keeps]
  unfold Nano.typed
  by_cases hc : c.val = NEWLINE
  · rw [if_pos hc, if_pos hc]
    constructor
    · exact fun h => ⟨show 1 ≤ s.cY + 1 by omega, show s.cY + 1 ≤ _ by omega, Int.le_refl 1,
        z.one_le_RIGHT_BORDER⟩
    · intro h
      have hhigh : s.cY + 1 ≤ z.MENU_BORDER := h.y_high
      omega
  · rw [if_neg hc, if_neg hc]
    constructor
    · intro h
      rw [if_pos (by omega), if_pos (by omega)]
      exact ⟨hb.y_low, hb.y_high, show 1 ≤ s.cX + 1 by omega, show s.cX + 1 ≤ _ by omega⟩
    · intro h
      have hx : 1 ≤ if s.cX + 1 < z.mX then s.cX + 1 else 0 := h.x_low
      split at hx
      · omega
      · exact absurd hx (by decide)

theorem Inv.display (hi : Inv z s) : Inv z (s.display z) := by
  refine ⟨?_, ?_, ?_, ?_⟩
  · rw [display_cY, display_cX]
    exact display_cur hi.synced
  · rw [display_maxX]
    exact hi.maxX_high
  · rw [display_maxX, display_cY, display_linBuf]
    exact hi.started
  · rw [display_linBuf]
    exact hi.last

theorem inv_type {c : Typed} (hi : Inv z s) (hb : InBounds z s) (h : s.type z c.val = some s')
    (hb' : InBounds z s') : Inv z s' := by
  have hborder : z.RIGHT_BORDER = z.mX - 1 := rfl
  have hcols := z.one_le_RIGHT_BORDER
  have hleft := hb.x_low
  cases (type_eq hi hb).symm.trans h
  apply Inv.display
  rw [inBounds_display] at hb'
  unfold Nano.typed at hb' ⊢
  by_cases hc : c.val = NEWLINE
  · rw [if_pos hc]
    exact ⟨rfl, hcols, .inl (Int.le_refl 1), last_poke hi.last fun _ => .inr hc⟩
  · rw [if_neg hc] at hb' ⊢
    by_cases hx : s.cX + 1 < z.mX
    · rw [if_pos hx, if_pos hx]
      -- the character is not in the last byte of the row
      refine ⟨rfl, show s.cX + 1 ≤ _ by omega, .inl (show 1 ≤ s.cX + 1 by omega),
        last_poke hi.last fun hlast => absurd hlast ?_⟩
      omega
    · rw [if_neg hx, if_neg hx] at hb'
      have hlow : (1 : Int) ≤ 0 := hb'.x_low
      exact absurd hlow (by decide)

/-! ## 4. Runs -/

/-- While the loop runs. -/
def KeepsIn (z : Size) (s : Nano) (key : Key) : Prop := s.loop = true → Keeps z s key

theorem keeps_press (hi : Inv z s) (hb : InBounds z s) :
    Keeps z s key ↔ ∃ s', s.press z key = some s' ∧ InBounds z s' := by
  cases key with
  | MOUSE => exact ⟨fun _ => ⟨_, rfl, hb.y_low, hb.y_high, hb.x_low, hb.x_high⟩, fun _ => trivial⟩
  | F2 => exact ⟨fun _ => ⟨_, rfl, hb.y_low, hb.y_high, hb.x_low, hb.x_high⟩, fun _ => trivial⟩
  | F4 => exact ⟨fun _ => ⟨_, rfl, hb.y_low, hb.y_high, hb.x_low, hb.x_high⟩, fun _ => trivial⟩
  | UP => exact keeps_up hi hb
  | DOWN => exact keeps_down hi hb
  | LEFT => exact ⟨fun _ => ⟨_, rfl, inBounds_left hb⟩, fun _ => trivial⟩
  | RIGHT => exact ⟨fun _ => keeps_right hb, fun _ => trivial⟩
  | BACKSPACE => exact keeps_backspace hb
  | ch c => exact keeps_type hi hb

theorem inv_press (hi : Inv z s) (hb : InBounds z s) (h : s.press z key = some s')
    (hb' : InBounds z s') : Inv z s' := by
  cases key with
  | MOUSE =>
    cases h
    exact ⟨rfl, hi.maxX_high, hi.started, hi.last⟩
  | F2 =>
    cases h
    exact ⟨hi.synced, hi.maxX_high, hi.started, hi.last⟩
  | F4 =>
    cases h
    exact ⟨hi.synced, hi.maxX_high, hi.started, hi.last⟩
  | UP => exact inv_up hi hb h
  | DOWN => exact inv_down hi hb h
  | LEFT =>
    cases h
    exact inv_left hi hb
  | RIGHT => exact inv_right hi hb h
  | BACKSPACE => exact inv_backspace hi hb h hb'
  | ch c => exact inv_type hi hb h hb'

theorem keepsIn_iff (hi : Inv z s) (hb : InBounds z s) :
    KeepsIn z s key ↔ ∃ s', step z s key = some s' ∧ InBounds z s' := by
  unfold step KeepsIn
  cases hloop : s.loop with
  | false => exact ⟨fun _ => ⟨s, rfl, hb⟩, fun _ h => absurd h (by decide)⟩
  | true => exact ⟨fun h => (keeps_press hi hb).mp (h rfl), fun h _ => (keeps_press hi hb).mpr h⟩

theorem inv_step (hi : Inv z s) (hb : InBounds z s) (h : step z s key = some s')
    (hb' : InBounds z s') : Inv z s' := by
  unfold step at h
  split at h
  · exact inv_press hi hb h hb'
  · cases h
    exact hi

theorem inBounds_start (z : Size) : InBounds z start :=
  ⟨Int.le_refl 1, z.one_le_MENU_BORDER, Int.le_refl 1, z.one_le_RIGHT_BORDER⟩

theorem inv_start (z : Size) : Inv z start :=
  ⟨rfl, show 0 ≤ z.RIGHT_BORDER by have := z.one_le_RIGHT_BORDER; omega,
    .inr ⟨rfl, fun _ _ => rfl⟩, fun _ => .inl rfl⟩

/-- **The position stays in `lin_buf`, and no key reads or writes outside of it, in all turns of a
    run, exactly if each key of it `Keeps` so.** -/
theorem proceeds_iff_keeps (z : Size) (keys : List Key) :
    Proceeds (step z) (InBounds z) keys start ↔ Throughout (step z) (KeepsIn z) keys start :=
  proceeds_iff_throughout (fun _ _ _ hi hb h hb' => inv_step hi hb h hb')
    (fun _ _ hi hb => keepsIn_iff hi hb) (inv_start z) (inBounds_start z)

/-! On a terminal of 24 lines and 80 columns, the row above loses its first byte but not its
newline, and `KEY_BACKSPACE` in the first column takes its length. -/

def terminal : Size := ⟨24, 80, by decide, by decide⟩

def newline : Key := .ch ⟨NEWLINE, .inl rfl⟩

def letterA : Key := .ch ⟨97, .inr (by decide)⟩
def letterB : Key := .ch ⟨98, .inr (by decide)⟩
def letterC : Key := .ch ⟨99, .inr (by decide)⟩

def emptiedAbove : List Key :=
  [letterA, newline, letterB, letterC, .UP, .BACKSPACE, .DOWN, .BACKSPACE]

theorem column_zero : ¬ Proceeds (step terminal) (InBounds terminal) emptiedAbove start := by
  intro h
  have hend : (run (step terminal) emptiedAbove start).map Nano.cX = some 0 := by decide +kernel
  obtain ⟨s, hrun, hx⟩ := Option.map_eq_some_iff.mp hend
  have hlow := (h.visits.of_run hrun).x_low
  rw [hx] at hlow
  exact absurd hlow (by decide)

end TextEditor
end Labs
