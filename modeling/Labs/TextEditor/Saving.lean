import Labs.Lib.Page
import Labs.TextEditor.Borders

/-!
# What is saved

`F2` writes the rows of `lin_buf` one after the other, each up to its terminator, until one is
empty. This is the text on the screen if every row above another text is a `Line`, its characters
and one newline, and a row is empty at all (`Legible`). The keys take no care of that: erasing ends
a row in its middle, a character can take the place of a newline, a newline leaves what stands
behind it in the row, and joining two rows cuts the newline of the first but moves nothing.

`Clean` is the condition for each key under which the text stays legible. In a run of such keys that
keeps the position in `lin_buf`, what `F2` writes is at any time the text on the screen
(`saves_of_clean`).

## Bytes, then keys

The editor has no notion of a line, so each key can break something else, and `Clean` is a list of
exceptions. What they have in common is said once, in section 2, for a byte that is written anywhere
in `lin_buf`: a character takes the place of another or stands at the `Front`, a newline is the
`Last` of its row, and a zero has no text behind it. A key is one or two such bytes (`legible_char`,
`legible_newline`, `legible_erase`, `legible_join`), and the other keys write none
(`same_of_press`).

`Legible` has two halves. `Tidy` is about `lin_buf` alone, and is all that `F2` needs
(`saveFrom_page`). `Shown` says that the screen has the same bytes; only a label that is printed
over the text can come between. In a window that is wide enough none is (`unlabelled_of_wide`), so
`Unlabelled` is a condition on narrow terminals.

That the position stays within `lin_buf` is a condition on the run here. When it does is the subject
of `Borders`, where it is exact; both are asked of a run side by side.
-/

namespace Labs
namespace TextEditor

open Lib

variable {z : Size} {s s' : Nano} {key : Key} {linBuf : Nat → Nat → UInt8}

/-- A character of the text. -/
def IsChar (b : UInt8) : Prop := b ≠ NUL ∧ b ≠ NEWLINE

/-- What is seen of a byte. -/
def glyph (b : UInt8) : UInt8 := if b = NUL ∨ b = NEWLINE then SPACE else b

/-- The text area. -/
def Nano.textAt (z : Size) (s : Nano) (y x : Nat) : UInt8 :=
  if y < z.MENU_BORDER.toNat ∧ x < z.RIGHT_BORDER.toNat then s.cells (y + 1) (x + 1) else SPACE

/-- `F2` reads no row that is not there, and what it writes is the text on the screen. -/
def Saves (z : Size) (s : Nano) : Prop :=
  s.loop = true → ∃ s' file, step z s .F2 = some s' ∧ s'.file = some file ∧
    ∀ y x, page SPACE file y x = s.textAt z y x

/-! ## 1. Rows that can be read as lines -/

/-- The row is characters and one newline. -/
def Line (linBuf : Nat → Nat → UInt8) (i : Nat) : Prop :=
  ∃ p, (∀ j < p, IsChar (linBuf i j)) ∧ linBuf i p = NEWLINE ∧ ∀ j, p < j → linBuf i j = NUL

/-- Rows that are saved as they are seen. -/
structure Tidy (z : Size) (linBuf : Nat → Nat → UInt8) : Prop where
  outside : ∀ i j, z.MENU_BORDER.toNat ≤ i ∨ z.RIGHT_BORDER.toNat - 1 ≤ j → linBuf i j = NUL
  chars : ∀ i j j', j < j' → IsChar (linBuf i j') → IsChar (linBuf i j)
  lines : ∀ i i' j', i < i' → IsChar (linBuf i' j') → Line linBuf i
  free : ∃ i < z.MENU_BORDER.toNat, linBuf i 0 = NUL

theorem glyph_of_isChar {b : UInt8} (h : IsChar b) : glyph b = b :=
  if_neg fun hb => hb.elim h.1 h.2

theorem glyph_of_not_isChar {b : UInt8} (h : ¬ IsChar b) : glyph b = SPACE := by
  refine if_pos ?_
  unfold IsChar at h
  tauto

theorem eq_newline_of_not_isChar {b : UInt8} (h : ¬ IsChar b) (hne : b ≠ NUL) : b = NEWLINE := by
  unfold IsChar at h
  tauto

theorem cstr_rowOf {i len : Nat} (h : memchr (rowOf z linBuf i) NUL = some len) :
    cstr (rowOf z linBuf i) = (List.range len).map (linBuf i) := by
  obtain ⟨hlt, hnul, hbefore⟩ := memchr_rowOf_eq_some.mp h
  obtain ⟨m, hm⟩ := Nat.exists_eq_add_of_lt hlt
  have hrow : rowOf z linBuf i = (List.range len).map (linBuf i) ++
      NUL :: (List.range m).map fun k => linBuf i (len + (k + 1)) := by
    unfold rowOf
    rw [hm, Nat.add_assoc, List.range_add, List.map_append, List.range_succ_eq_map]
    simp [hnul]
  rw [hrow]
  refine cstr_append_nul (fun hmem => ?_) _
  obtain ⟨k, hk, he⟩ := List.mem_map.mp hmem
  exact hbefore k (List.mem_range.mp hk) he

/-- The characters of a row end at its first newline or terminator. -/
theorem exists_chars (ht : Tidy z linBuf) (i : Nat) :
    ∃ q, (∀ j < q, IsChar (linBuf i j)) ∧ ∀ j, q ≤ j → ¬ IsChar (linBuf i j) := by
  classical
  have hex : ∃ j, ¬ IsChar (linBuf i j) := ⟨z.RIGHT_BORDER.toNat - 1, fun h =>
    h.1 (ht.outside i _ (.inr (Nat.le_refl _)))⟩
  refine ⟨Nat.find hex, fun j hj => not_not.mp (Nat.find_min hex hj), fun j hj hchar => ?_⟩
  rcases Nat.eq_or_lt_of_le hj with rfl | hlt
  · exact Nat.find_spec hex hchar
  · exact Nat.find_spec hex (ht.chars i _ j hlt hchar)

/-- The string of a row is its characters, and newlines behind them. -/
theorem cstr_rowOf_split (ht : Tidy z linBuf) {i len : Nat}
    (hlen : memchr (rowOf z linBuf i) NUL = some len) :
    ∃ piece newlines, cstr (rowOf z linBuf i) = piece ++ newlines ∧ NEWLINE ∉ piece ∧
      (∀ c ∈ newlines, c = NEWLINE) ∧ (∀ x, piece[x]?.getD SPACE = glyph (linBuf i x)) ∧
      (Line linBuf i → newlines = [NEWLINE]) := by
  obtain ⟨-, hnul, hbefore⟩ := memchr_rowOf_eq_some.mp hlen
  obtain ⟨q, hchars, hothers⟩ := exists_chars ht i
  have hq : q ≤ len := by
    by_contra hlt
    exact (hchars len (not_le.mp hlt)).1 hnul
  refine ⟨(List.range q).map (linBuf i), (List.range (len - q)).map fun k => linBuf i (q + k),
    ?_, fun hmem => ?_, fun c hc => ?_, fun x => ?_, ?_⟩
  · rw [cstr_rowOf hlen, ← Nat.add_sub_cancel' hq, List.range_add]
    simp
  · obtain ⟨j, hj, he⟩ := List.mem_map.mp hmem
    exact (hchars j (List.mem_range.mp hj)).2 he
  · obtain ⟨k, hk, rfl⟩ := List.mem_map.mp hc
    have hk' := List.mem_range.mp hk
    exact eq_newline_of_not_isChar (hothers _ (by omega)) (hbefore _ (by omega))
  · by_cases hx : x < q
    · simp [hx, glyph_of_isChar (hchars x hx)]
    · simp [hx, glyph_of_not_isChar (hothers x (not_lt.mp hx))]
  · rintro ⟨p, hp, hnewline, hend⟩
    have hnot : ¬ IsChar (linBuf i p) := fun h => h.2 hnewline
    have hpq : p = q := by
      refine le_antisymm (not_lt.mp fun hlt => hothers q (Nat.le_refl q) (hp q hlt)) ?_
      exact not_lt.mp fun hlt => hnot (hchars p hlt)
    subst hpq
    have hlen' : len = p + 1 := by
      refine le_antisymm (not_lt.mp fun hlt => hbefore (p + 1) hlt (hend _ (Nat.lt_succ_self p))) ?_
      rcases Nat.eq_or_lt_of_le hq with rfl | hlt
      · exact absurd (hnul.symm.trans hnewline) (by decide)
      · exact hlt
    subst hlen'
    simp [hnewline]

/-- Where a row is empty, there is no text from it on. -/
theorem Tidy.not_isChar_from (ht : Tidy z linBuf) {i : Nat} (h : linBuf i 0 = NUL) (y x : Nat) :
    ¬ IsChar (linBuf (i + y) x) := by
  intro hchar
  cases y with
  | zero =>
    cases x with
    | zero => exact hchar.1 h
    | succ x => exact (ht.chars i 0 (x + 1) (Nat.succ_pos x) hchar).1 h
  | succ y =>
    obtain ⟨p, hp, hnewline, -⟩ := ht.lines i (i + (y + 1)) x (by omega) hchar
    cases p with
    | zero => exact absurd (h.symm.trans hnewline) (by decide)
    | succ p => exact (hp 0 (Nat.succ_pos p)).1 h

/-- What `F2` writes from row `i` on is seen as the rows are. -/
theorem saveFrom_page (ht : Tidy z linBuf) {n i : Nat}
    (hfree : ∃ k, i ≤ k ∧ k < i + n ∧ linBuf k 0 = NUL) :
    ∃ file, saveFrom z linBuf n i = some file ∧
      ∀ y x, page SPACE file y x = glyph (linBuf (i + y) x) := by
  induction n generalizing i with
  | zero =>
    obtain ⟨k, hlow, hhigh, -⟩ := hfree
    omega
  | succ n ih =>
    unfold saveFrom
    by_cases hfirst : linBuf i 0 = NUL
    · rw [if_pos hfirst]
      refine ⟨[], rfl, fun y x => ?_⟩
      rw [page_nil, glyph_of_not_isChar (ht.not_isChar_from hfirst y x)]
    · rw [if_neg hfirst]
      obtain ⟨k, hlow, hhigh, hk⟩ := hfree
      have hne : k ≠ i := fun e => hfirst (e ▸ hk)
      obtain ⟨rest, hrest, hpage⟩ := ih (i := i + 1) ⟨k, by omega, by omega, hk⟩
      have hcols := z.one_le_RIGHT_BORDER
      obtain ⟨len, hlen⟩ := terminated_iff.mp (⟨z.RIGHT_BORDER.toNat - 1, by omega,
        ht.outside i _ (.inr (Nat.le_refl _))⟩ : Terminated z linBuf i)
      rw [hlen, hrest]
      refine ⟨_, rfl, fun y x => ?_⟩
      obtain ⟨piece, newlines, hsplit, hpiece, hnewlines, hglyph, hend⟩ := cstr_rowOf_split ht hlen
      rw [hsplit, List.append_assoc]
      by_cases hbelow : ∃ i' j', i < i' ∧ IsChar (linBuf i' j')
      · -- the row is a line, and the next one starts with the rest
        obtain ⟨i', j', hi', hchar⟩ := hbelow
        rw [hend (ht.lines i i' j' hi' hchar), List.singleton_append]
        cases y with
        | zero =>
          rw [page_append_of_blank hpiece fun _ => page_newline_zero]
          exact hglyph x
        | succ y =>
          rw [page_append_succ hpiece, page_newline_succ, hpage y x, Nat.add_right_comm i 1 y,
            Nat.add_assoc]
      · -- nothing is seen below
        have hblank : ∀ y x, page SPACE rest y x = SPACE := by
          intro y x
          rw [hpage y x]
          exact glyph_of_not_isChar fun hchar => hbelow ⟨i + 1 + y, x, by omega, hchar⟩
        have hrest' : ∀ y x, page SPACE (newlines ++ rest) y x = SPACE :=
          fun y x => page_newlines hblank hnewlines
        cases y with
        | zero =>
          rw [page_append_of_blank hpiece (hrest' 0)]
          exact hglyph x
        | succ y =>
          rw [page_append_succ hpiece, hrest']
          exact (glyph_of_not_isChar fun hchar => hbelow ⟨i + (y + 1), x, by omega, hchar⟩).symm

/-! ## 2. Writing one byte -/

section Poke

variable {i j : Nat} {c : UInt8}

/-- No character stands behind the byte in its row. -/
def Last (linBuf : Nat → Nat → UInt8) (i j : Nat) : Prop := ∀ j', j < j' → ¬ IsChar (linBuf i j')

/-- No character stands in a row below. -/
def Lowest (linBuf : Nat → Nat → UInt8) (i : Nat) : Prop :=
  ∀ i' j', i < i' → ¬ IsChar (linBuf i' j')

/-- The byte is where the text up to here ends. -/
def Front (linBuf : Nat → Nat → UInt8) (i j : Nat) : Prop :=
  (∀ i' < i, Line linBuf i') ∧ ∀ j' < j, IsChar (linBuf i j')

/-- Another byte than this one makes a row empty. -/
def Free (z : Size) (linBuf : Nat → Nat → UInt8) (i j : Nat) : Prop :=
  ∃ i' < z.MENU_BORDER.toNat, ¬ (i' = i ∧ 0 = j) ∧ linBuf i' 0 = NUL

theorem poke_row {i' : Nat} (h : i' ≠ i) (j' : Nat) : poke linBuf i j c i' j' = linBuf i' j' :=
  poke_of_ne fun hij => h hij.1

theorem poke_column {j' : Nat} (h : j' ≠ j) (i' : Nat) : poke linBuf i j c i' j' = linBuf i' j' :=
  poke_of_ne fun hij => h hij.2

/-- The characters there are after a byte has been written that is none. -/
theorem isChar_of_poke {i' j' : Nat} (hc : ¬ IsChar c) (h : IsChar (poke linBuf i j c i' j')) :
    IsChar (linBuf i' j') := by
  have hne : ¬ (i' = i ∧ j' = j) := by
    rintro ⟨rfl, rfl⟩
    rw [poke_self] at h
    exact hc h
  rwa [poke_of_ne hne] at h

theorem Line.poke {i' : Nat} (h : Line linBuf i') (hne : i' ≠ i) : Line (poke linBuf i j c) i' := by
  obtain ⟨p, hp, hnewline, hend⟩ := h
  refine ⟨p, fun j' hj' => ?_, ?_, fun j' hj' => ?_⟩
  · rw [poke_row hne]
    exact hp j' hj'
  · rw [poke_row hne]
    exact hnewline
  · rw [poke_row hne]
    exact hend j' hj'

theorem outside_poke (ht : Tidy z linBuf)
    (hin : c = NUL ∨ i < z.MENU_BORDER.toNat ∧ j < z.RIGHT_BORDER.toNat - 1) (i' j' : Nat)
    (h : z.MENU_BORDER.toNat ≤ i' ∨ z.RIGHT_BORDER.toNat - 1 ≤ j') :
    poke linBuf i j c i' j' = NUL := by
  by_cases hij : i' = i ∧ j' = j
  · obtain ⟨rfl, rfl⟩ := hij
    rw [poke_self]
    exact hin.resolve_right (by omega)
  · rw [poke_of_ne hij]
    exact ht.outside i' j' h

theorem free_poke (h : Free z linBuf i j) : ∃ i' < z.MENU_BORDER.toNat, poke linBuf i j c i' 0 = NUL := by
  obtain ⟨i', hi', hne, hnul⟩ := h
  exact ⟨i', hi', (poke_of_ne hne).trans hnul⟩

/-- A character takes the place of another one, or is put to the end of the text. -/
theorem Tidy.poke_char (ht : Tidy z linBuf) (hc : IsChar c)
    (hin : i < z.MENU_BORDER.toNat ∧ j < z.RIGHT_BORDER.toNat - 1) (hfree : Free z linBuf i j)
    (hplace : IsChar (linBuf i j) ∨ Last linBuf i j ∧ Lowest linBuf i ∧ Front linBuf i j) :
    Tidy z (poke linBuf i j c) := by
  have hself : IsChar (poke linBuf i j c i j) := by
    rw [poke_self]
    exact hc
  refine ⟨outside_poke ht (.inr hin), fun i' j₁ j₂ hlt hchar => ?_, fun i₁ i₂ j' hlt hchar => ?_,
    free_poke hfree⟩
  · by_cases h₁ : i' = i ∧ j₁ = j
    · obtain ⟨rfl, rfl⟩ := h₁
      exact hself
    · rw [poke_of_ne h₁]
      by_cases h₂ : i' = i ∧ j₂ = j
      · obtain ⟨rfl, rfl⟩ := h₂
        rcases hplace with hold | ⟨-, -, hfront⟩
        · exact ht.chars i' j₁ j₂ hlt hold
        · exact hfront.2 j₁ hlt
      · rw [poke_of_ne h₂] at hchar
        exact ht.chars i' j₁ j₂ hlt hchar
  · by_cases h₂ : i₂ = i ∧ j' = j
    · -- the rows above the character
      obtain ⟨rfl, rfl⟩ := h₂
      apply Line.poke _ (Nat.ne_of_lt hlt)
      rcases hplace with hold | ⟨-, -, hfront⟩
      · exact ht.lines i₁ i₂ j' hlt hold
      · exact hfront.1 i₁ hlt
    · rw [poke_of_ne h₂] at hchar
      have hline := ht.lines i₁ i₂ j' hlt hchar
      by_cases h₁ : i₁ = i
      · -- its own row, above a text
        subst h₁
        rcases hplace with hold | ⟨-, hlowest, -⟩
        · obtain ⟨p, hp, hnewline, hend⟩ := hline
          have hjp : j < p := by
            by_contra hle
            rcases Nat.eq_or_lt_of_le (not_lt.mp hle) with rfl | hlt'
            · exact hold.2 hnewline
            · exact hold.1 (hend j hlt')
          refine ⟨p, fun k hk => ?_, ?_, fun k hk => ?_⟩
          · by_cases hkj : k = j
            · subst hkj
              exact hself
            · rw [poke_column hkj]
              exact hp k hk
          · rw [poke_column (Nat.ne_of_gt hjp)]
            exact hnewline
          · rw [poke_column (by omega)]
            exact hend k hk
        · exact absurd hchar (hlowest i₂ j' hlt)
      · exact hline.poke h₁

/-- A newline behind the characters of a row. -/
theorem Tidy.poke_newline (ht : Tidy z linBuf)
    (hin : i < z.MENU_BORDER.toNat ∧ j < z.RIGHT_BORDER.toNat - 1) (hfree : Free z linBuf i j)
    (hlast : Last linBuf i j)
    (hend : Lowest linBuf i ∨
      (∀ j' < j, IsChar (linBuf i j')) ∧ ∀ j', j < j' → linBuf i j' = NUL) :
    Tidy z (poke linBuf i j NEWLINE) := by
  have hnot : ¬ IsChar NEWLINE := fun h => h.2 rfl
  refine ⟨outside_poke ht (.inr hin), fun i' j₁ j₂ hlt hchar => ?_, fun i₁ i₂ j' hlt hchar => ?_,
    free_poke hfree⟩
  · have hwas := isChar_of_poke hnot hchar
    have h₁ : ¬ (i' = i ∧ j₁ = j) := by
      rintro ⟨rfl, rfl⟩
      exact hlast j₂ hlt hwas
    rw [poke_of_ne h₁]
    exact ht.chars i' j₁ j₂ hlt hwas
  · have hwas := isChar_of_poke hnot hchar
    by_cases h₁ : i₁ = i
    · subst h₁
      rcases hend with hlowest | ⟨hchars, hnul⟩
      · exact absurd hwas (hlowest i₂ j' hlt)
      · refine ⟨j, fun k hk => ?_, poke_self, fun k hk => ?_⟩
        · rw [poke_column (Nat.ne_of_lt hk)]
          exact hchars k hk
        · rw [poke_column (Nat.ne_of_gt hk)]
          exact hnul k hk
    · exact (ht.lines i₁ i₂ j' hlt hwas).poke h₁

/-- The last character of the text is erased, or what is no character. -/
theorem Tidy.poke_nul (ht : Tidy z linBuf)
    (hend : linBuf i j = NUL ∨ Last linBuf i j ∧ Lowest linBuf i) : Tidy z (poke linBuf i j NUL) := by
  by_cases hnul : linBuf i j = NUL
  · have hsame : poke linBuf i j NUL = linBuf := by
      funext i' j'
      unfold poke
      split
      · rename_i hij
        rw [hij.1, hij.2, hnul]
      · rfl
    rw [hsame]
    exact ht
  · obtain ⟨hlast, hlowest⟩ := hend.resolve_left hnul
    have hnot : ¬ IsChar NUL := fun h => h.1 rfl
    obtain ⟨k, hk, hfree⟩ := ht.free
    refine ⟨outside_poke ht (.inl rfl), fun i' j₁ j₂ hlt hchar => ?_,
      fun i₁ i₂ j' hlt hchar => ?_, k, hk, ?_⟩
    · have hwas := isChar_of_poke hnot hchar
      have h₁ : ¬ (i' = i ∧ j₁ = j) := by
        rintro ⟨rfl, rfl⟩
        exact hlast j₂ hlt hwas
      rw [poke_of_ne h₁]
      exact ht.chars i' j₁ j₂ hlt hwas
    · have hwas := isChar_of_poke hnot hchar
      have h₁ : i₁ ≠ i := by
        rintro rfl
        exact hlowest i₂ j' hlt hwas
      exact (ht.lines i₁ i₂ j' hlt hwas).poke h₁
    · unfold poke
      split
      · rfl
      · exact hfree

end Poke

/-! ## 3. The keys -/

/-- What is in the rows is on the screen. -/
def Shown (z : Size) (s : Nano) : Prop :=
  ∀ i j : Nat, i < z.MENU_BORDER.toNat → j < z.RIGHT_BORDER.toNat →
    s.cells (i + 1) (j + 1) = glyph (s.linBuf i j)

structure Legible (z : Size) (s : Nano) : Prop where
  tidy : Tidy z s.linBuf
  shown : Shown z s

/-- Where the labels are printed. -/
def Labelled (z : Size) (y x : Int) : Prop :=
  Covered z 3 DISPLAY_EDITOR_NAME y x ∨ Covered z (z.mX / 2) DISPLAY_MODIFIED y x

instance (z : Size) (y x : Int) : Decidable (Labelled z y x) := inferInstanceAs (Decidable (_ ∨ _))

def Nano.rowIdx (s : Nano) : Nat := (s.cY - 1).toNat
def Nano.colIdx (s : Nano) : Nat := (s.cX - 1).toNat

/-- The labels are printed with this character, and not over the text. -/
def Unlabelled (z : Size) (s : Nano) (c : UInt8) : Prop :=
  c = NEWLINE ∨ s.lock = false →
    (c ≠ NEWLINE → ¬ Labelled z s.cY s.cX) ∧
      ∀ i j : Nat, IsChar (s.linBuf i j) → ¬ (i = s.rowIdx ∧ j = s.colIdx) →
        ¬ Labelled z (i + 1) (j + 1)

/-- When the key leaves the text legible. -/
def Clean (z : Size) (s : Nano) : Key → Prop
  | .ch c =>
    Free z s.linBuf s.rowIdx s.colIdx ∧ Unlabelled z s c.val ∧
      if c.val = NEWLINE then
        s.cX < z.RIGHT_BORDER ∧ Last s.linBuf s.rowIdx s.colIdx ∧
          (Lowest s.linBuf s.rowIdx ∨ (∀ j < s.colIdx, IsChar (s.linBuf s.rowIdx j)) ∧
            ∀ j, s.colIdx < j → s.linBuf s.rowIdx j = NUL)
      else
        IsChar (s.linBuf s.rowIdx s.colIdx) ∨
          Last s.linBuf s.rowIdx s.colIdx ∧ Lowest s.linBuf s.rowIdx ∧
            Front s.linBuf s.rowIdx s.colIdx
  | .BACKSPACE =>
    if LEFT_BORDER < s.cX then
      s.linBuf s.rowIdx (s.cX - 2).toNat = NUL ∨
        Last s.linBuf s.rowIdx (s.cX - 2).toNat ∧ Lowest s.linBuf s.rowIdx
    else
      UPPER_BORDER < s.cY → s.linBuf (s.cY - 2).toNat 1 ≠ NUL → Lowest s.linBuf (s.cY - 2).toNat
  | _ => True

theorem Legible.of_same (h : Legible z s) (hbuf : s'.linBuf = s.linBuf)
    (hcells : s'.cells = s.cells) : Legible z s' := by
  refine ⟨hbuf ▸ h.tidy, fun i j hi hj => ?_⟩
  rw [hbuf, hcells]
  exact h.shown i j hi hj

theorem InBounds.rowIdx (hb : InBounds z s) : (s.rowIdx : Int) + 1 = s.cY := by
  have hlow := hb.y_low
  unfold Nano.rowIdx
  omega

theorem InBounds.colIdx (hb : InBounds z s) : (s.colIdx : Int) + 1 = s.cX := by
  have hlow := hb.x_low
  unfold Nano.colIdx
  omega

/-- The cell of the position. -/
theorem InBounds.cell_iff (hb : InBounds z s) (i j : Nat) :
    (i : Int) + 1 = s.cY ∧ (j : Int) + 1 = s.cX ↔ i = s.rowIdx ∧ j = s.colIdx := by
  have hy := hb.rowIdx
  have hx := hb.colIdx
  omega

theorem isChar_typed (c : Typed) (hc : c.val ≠ NEWLINE) : IsChar c.val := by
  refine ⟨fun hnul => ?_, hc⟩
  have hprint := (c.property.resolve_left hc).1
  rw [hnul] at hprint
  exact absurd hprint (by decide)

theorem cells_display (y x : Int) : (s.display z).cells y x =
    if s.lock = false ∧ Labelled z y x then SPACE else s.cells y x := by
  unfold Nano.display
  cases s.lock with
  | true => rfl
  | false =>
    simp only [Bool.false_eq_true, if_false, true_and, Labelled]
    show (if Covered z (z.mX / 2) DISPLAY_MODIFIED y x then SPACE
      else if Covered z 3 DISPLAY_EDITOR_NAME y x then SPACE else s.cells y x) = _
    by_cases h₁ : Covered z 3 DISPLAY_EDITOR_NAME y x
    · simp [h₁]
    · simp [h₁]

/-- The labels cover no character. -/
theorem Shown.display (h : Shown z s) (hclear : s.lock = false → ∀ i j : Nat,
    IsChar (s.linBuf i j) → ¬ Labelled z (i + 1) (j + 1)) : Shown z (s.display z) := by
  intro i j hi hj
  rw [cells_display, display_linBuf]
  split
  · rename_i hcovered
    exact (glyph_of_not_isChar fun hchar => hclear hcovered.1 i j hchar hcovered.2).symm
  · exact h i j hi hj

theorem legible_char {c : Typed} (hi : Inv z s) (hb : InBounds z s) (hl : Legible z s)
    (hc : c.val ≠ NEWLINE) (hclean : Clean z s (.ch c)) (h : s.type z c.val = some s')
    (hb' : InBounds z s') : Legible z s' := by
  have hkeeps : Keeps z s (.ch c) := (keeps_type hi hb).mpr ⟨s', h, hb'⟩
  simp only [Keeps, if_neg hc] at hkeeps
  obtain ⟨hfree, hlabel, hplace⟩ := hclean
  rw [if_neg hc] at hplace
  have hchar := isChar_typed c hc
  have hrow := hb.rowIdx
  have hcol := hb.colIdx
  have hhigh := hb.y_high
  have htidy := hl.tidy.poke_char hchar ⟨by omega, by omega⟩ hfree hplace
  cases (type_eq hi hb).symm.trans h
  unfold Nano.typed
  rw [if_neg hc]
  refine ⟨by rwa [display_linBuf], Shown.display (fun i j hi' hj => ?_) fun hlock i j hwas => ?_⟩
  · show (if (i : Int) + 1 = s.cY ∧ (j : Int) + 1 = s.cX then c.val else s.cells (i + 1) (j + 1)) =
      glyph (poke s.linBuf s.rowIdx s.colIdx c.val i j)
    by_cases hij : i = s.rowIdx ∧ j = s.colIdx
    · rw [if_pos ((hb.cell_iff i j).mpr hij), hij.1, hij.2, poke_self, glyph_of_isChar hchar]
    · rw [if_neg fun h => hij ((hb.cell_iff i j).mp h), poke_of_ne hij]
      exact hl.shown i j hi' hj
  · obtain ⟨hself, hothers⟩ := hlabel (.inr hlock)
    by_cases hij : i = s.rowIdx ∧ j = s.colIdx
    · rw [hij.1, hij.2, hrow, hcol]
      exact hself hc
    · have hwas' : IsChar (poke s.linBuf s.rowIdx s.colIdx c.val i j) := hwas
      rw [poke_of_ne hij] at hwas'
      exact hothers i j hwas' hij

theorem legible_newline {c : Typed} (hi : Inv z s) (hb : InBounds z s) (hl : Legible z s)
    (hc : c.val = NEWLINE) (hclean : Clean z s (.ch c)) (h : s.type z c.val = some s') :
    Legible z s' := by
  obtain ⟨hfree, hlabel, hplace⟩ := hclean
  rw [if_pos hc] at hplace
  obtain ⟨hx, hlast, hend⟩ := hplace
  have hborder : z.RIGHT_BORDER = z.mX - 1 := rfl
  have hmenu : z.MENU_BORDER = z.mY - 5 := rfl
  have hrow := hb.rowIdx
  have hcol := hb.colIdx
  have hhigh := hb.y_high
  have hin : s.rowIdx < z.MENU_BORDER.toNat ∧ s.colIdx < z.RIGHT_BORDER.toNat - 1 :=
    ⟨by omega, by omega⟩
  have htidy := hl.tidy.poke_newline hin hfree hlast hend
  have hnot : ¬ IsChar NEWLINE := fun h => h.2 rfl
  cases (type_eq hi hb).symm.trans h
  unfold Nano.typed
  rw [if_pos hc, hc]
  refine ⟨by rwa [display_linBuf], Shown.display (fun i j hi' hj => ?_) fun _ i j hwas => ?_⟩
  · show (if (i : Int) + 1 = 0 ∨ (i : Int) + 1 = z.mY - 1 ∨ (j : Int) + 1 = 0 ∨
        (j : Int) + 1 = z.mX - 1 then SPACE
      else if (i : Int) + 1 = s.cY ∧ s.cX ≤ (j : Int) + 1 then SPACE
      else s.cells (i + 1) (j + 1)) = glyph (poke s.linBuf s.rowIdx s.colIdx NEWLINE i j)
    split
    · -- the border is beside the text
      have hright : poke s.linBuf s.rowIdx s.colIdx NEWLINE i j = NUL :=
        htidy.outside i j (.inr (by omega))
      rw [hright]
      rfl
    · split
      · -- the rest of the line is cleared
        rename_i hrest
        obtain rfl : i = s.rowIdx := by omega
        refine (glyph_of_not_isChar fun hchar => ?_).symm
        exact hlast j (by
          have hne : j ≠ s.colIdx := by
            rintro rfl
            rw [poke_self] at hchar
            exact hnot hchar
          omega) (isChar_of_poke hnot hchar)
      · rename_i hrest
        have hij : ¬ (i = s.rowIdx ∧ j = s.colIdx) := by omega
        rw [poke_of_ne hij]
        exact hl.shown i j hi' hj
  · have hchar := isChar_of_poke hnot hwas
    refine (hlabel (.inl hc)).2 i j hchar fun hij => ?_
    have hself : IsChar (poke s.linBuf s.rowIdx s.colIdx NEWLINE i j) := hwas
    rw [hij.1, hij.2, poke_self] at hself
    exact hnot hself

/-- Where a byte that is no character is cut, nothing changes on the screen. -/
theorem glyph_poke_nul {i j : Nat} (h : ¬ IsChar (linBuf i j)) (i' j' : Nat) :
    glyph (poke linBuf i j NUL i' j') = glyph (linBuf i' j') := by
  unfold poke
  split
  · rename_i hij
    rw [hij.1, hij.2, glyph_of_not_isChar h]
    rfl
  · rfl

theorem legible_erase (hb : InBounds z s) (hl : Legible z s) (hx : LEFT_BORDER < s.cX)
    (hclean : Clean z s .BACKSPACE) (h : s.erase z = some s') : Legible z s' := by
  simp only [Clean, if_pos hx] at hclean
  have hrow := hb.rowIdx
  have hx' : 1 < s.cX := hx
  cases (erase_eq hb hx).symm.trans h
  refine ⟨hl.tidy.poke_nul hclean, fun i j hi hj => ?_⟩
  show (if (i : Int) + 1 = s.cY ∧ (j : Int) + 1 = s.cX - 1 then SPACE
    else s.cells (i + 1) (j + 1)) = glyph (poke s.linBuf s.rowIdx (s.cX - 2).toNat NUL i j)
  split
  · rename_i hij
    rw [show i = s.rowIdx by omega, show j = (s.cX - 2).toNat by omega, poke_self]
    rfl
  · rename_i hij
    rw [poke_of_ne (by omega)]
    exact hl.shown i j hi hj

theorem legible_join (hb : InBounds z s) (hl : Legible z s) (hx : ¬ LEFT_BORDER < s.cX)
    (hy : UPPER_BORDER < s.cY) (hclean : Clean z s .BACKSPACE) (h : s.join z = some s') :
    Legible z s' := by
  simp only [Clean, if_neg hx] at hclean
  rcases join_cases hb hy with ⟨-, s₁, hs₁, hcases⟩ | ⟨-, hnone⟩
  · cases hs₁.symm.trans h
    rcases hcases with ⟨-, rfl⟩ | ⟨hsecond, len, newline, -, hnewline, rfl⟩
    · exact hl.of_same rfl rfl
    · cases newline with
      | none => exact hl.of_same rfl rfl
      | some k =>
        have hk := (strchr_rowOf_eq_some.mp hnewline).2.1
        have hnot : ¬ IsChar (s.linBuf (s.cY - 2).toNat k) := fun h => h.2 hk
        have hlast : Last s.linBuf (s.cY - 2).toNat k :=
          fun j hj hchar => hnot (hl.tidy.chars _ k j hj hchar)
        refine ⟨hl.tidy.poke_nul (.inr ⟨hlast, hclean hy hsecond⟩), fun i j hi hj => ?_⟩
        exact (hl.shown i j hi hj).trans (glyph_poke_nul hnot i j).symm
  · cases hnone.symm.trans h

/-- The keys that only move the position, or end the loop. -/
theorem same_of_press (hi : Inv z s) (hb : InBounds z s) (h : s.press z key = some s')
    (hkey : ∀ c, key ≠ .ch c) (hback : key ≠ .BACKSPACE) :
    s'.linBuf = s.linBuf ∧ s'.cells = s.cells := by
  cases key with
  | MOUSE =>
    cases h
    exact ⟨rfl, rfl⟩
  | F2 =>
    cases h
    exact ⟨rfl, rfl⟩
  | F4 =>
    cases h
    exact ⟨rfl, rfl⟩
  | UP =>
    by_cases hy : UPPER_BORDER < s.cY
    · obtain ⟨len, -, rfl⟩ := Option.map_eq_some_iff.mp ((up_eq hi hb hy).symm.trans h)
      exact ⟨rfl, rfl⟩
    · cases (if_neg hy : s.up z = some s).symm.trans h
      exact ⟨rfl, rfl⟩
  | DOWN =>
    by_cases hy : s.cY < z.MENU_BORDER
    · rcases down_cases hi hb hy with ⟨-, s₁, hs₁, hcases⟩ | ⟨-, hnone⟩
      · cases hs₁.symm.trans h
        rcases hcases with rfl | ⟨cX, -, -, rfl⟩ <;> exact ⟨rfl, rfl⟩
      · cases hnone.symm.trans h
    · cases (if_neg hy : s.down z = some s).symm.trans h
      exact ⟨rfl, rfl⟩
  | LEFT =>
    cases h
    unfold Nano.left
    split <;> exact ⟨rfl, rfl⟩
  | RIGHT =>
    obtain ⟨s₁, hs₁, hcases⟩ := right_cases hb
    cases hs₁.symm.trans h
    rcases hcases with rfl | ⟨-, rfl⟩ <;> exact ⟨rfl, rfl⟩
  | BACKSPACE => exact absurd rfl hback
  | ch c => exact absurd rfl (hkey c)

/-- **One key.** -/
theorem legible_press (hi : Inv z s) (hb : InBounds z s) (hl : Legible z s)
    (hclean : Clean z s key) (h : s.press z key = some s') (hb' : InBounds z s') :
    Legible z s' := by
  by_cases hback : key = .BACKSPACE
  · subst hback
    have hpress : s.backspace z = some s' := h
    unfold Nano.backspace at hpress
    split at hpress
    · rename_i hx
      exact legible_erase hb hl hx hclean hpress
    · rename_i hx
      split at hpress
      · rename_i hy
        exact legible_join hb hl hx hy hclean hpress
      · cases hpress
        exact hl
  · by_cases hkey : ∃ c, key = .ch c
    · obtain ⟨c, rfl⟩ := hkey
      by_cases hc : c.val = NEWLINE
      · exact legible_newline hi hb hl hc hclean h
      · exact legible_char hi hb hl hc hclean h hb'
    · obtain ⟨hbuf, hcells⟩ := same_of_press hi hb h (fun c hc => hkey ⟨c, hc⟩) hback
      exact hl.of_same hbuf hcells

/-! ## 4. Runs -/

/-- While the loop runs. -/
def CleanIn (z : Size) (s : Nano) (key : Key) : Prop := s.loop = true → Clean z s key

theorem Legible.saves (hl : Legible z s) : Saves z s := by
  intro hloop
  obtain ⟨k, hk, hfree⟩ := hl.tidy.free
  obtain ⟨file, hfile, hpage⟩ := saveFrom_page hl.tidy (n := z.MENU_BORDER.toNat) (i := 0)
    ⟨k, Nat.zero_le k, by omega, hfree⟩
  refine ⟨{ s with loop := false, file := save z s.linBuf }, file, ?_, hfile, fun y x => ?_⟩
  · unfold step
    rw [if_pos hloop]
    rfl
  · rw [hpage, Nat.zero_add]
    unfold Nano.textAt
    split
    · rename_i hin
      exact (hl.shown y x hin.1 hin.2).symm
    · rename_i hout
      rw [hl.tidy.outside y x (by omega)]
      rfl

theorem legible_step (hi : Inv z s) (hb : InBounds z s) (hl : Legible z s)
    (hclean : CleanIn z s key) (h : step z s key = some s') (hb' : InBounds z s') :
    Legible z s' := by
  unfold step at h
  split at h
  · rename_i hloop
    exact legible_press hi hb hl (hclean hloop) h hb'
  · cases h
    exact hl

theorem legible_start (z : Size) : Legible z start := by
  have hrows := z.one_le_MENU_BORDER
  have hnot : ¬ IsChar NUL := fun h => h.1 rfl
  exact ⟨⟨fun _ _ _ => rfl, fun _ _ _ _ h => absurd h hnot, fun _ _ _ _ h => absurd h hnot,
    0, by omega, rfl⟩, fun _ _ _ _ => rfl⟩

/-- On a terminal of 25 columns and more the labels stay in the first line, or in the border. -/
theorem not_labelled {y x : Int} (hcols : 25 ≤ z.mX) (hy : 1 ≤ y) (hx : 1 ≤ x) :
    ¬ Labelled z y x := by
  have hline : z.mX ≤ y * z.mX := le_mul_of_one_le_left (by omega) hy
  have hname : (DISPLAY_EDITOR_NAME.length : Int) = 17 := by decide
  have hmodified : (DISPLAY_MODIFIED.length : Int) = 14 := by decide
  rintro (⟨-, -, -, hlt⟩ | ⟨-, -, -, hlt⟩)
  · rw [hname] at hlt
    omega
  · rw [hmodified] at hlt
    omega

theorem unlabelled_of_wide {c : UInt8} (hcols : 25 ≤ z.mX) (hy : 1 ≤ s.cY) (hx : 1 ≤ s.cX) :
    Unlabelled z s c :=
  fun _ => ⟨fun _ => not_labelled hcols hy hx, fun _ _ _ _ =>
    not_labelled hcols (by omega) (by omega)⟩

theorem throughout_cons {R : Nano → Key → Prop} {keys : List Key} (hkey : R s key)
    (hstep : step z s key = some s') (hrest : Throughout (step z) R keys s') :
    Throughout (step z) R (key :: keys) s :=
  ⟨hkey, fun _ h => Option.some.inj (hstep.symm.trans h) ▸ hrest⟩

/-- Characters stand in the first column only, and in the first `n` rows. -/
def Narrow (n : Nat) (linBuf : Nat → Nat → UInt8) : Prop :=
  ∀ i j, IsChar (linBuf i j) → i < n ∧ j = 0

theorem Narrow.last {n : Nat} (h : Narrow n linBuf) (i j : Nat) : Last linBuf i j :=
  fun j' hj hchar => absurd (h i j' hchar).2 (by omega)

theorem Narrow.lowest {n i : Nat} (h : Narrow n linBuf) (hi : n ≤ i + 1) : Lowest linBuf i :=
  fun i' j' hlt hchar => absurd (h i' j' hchar).1 (by omega)

theorem Narrow.poke {n i : Nat} {c : UInt8} (h : Narrow n linBuf) (hi : i < n) :
    Narrow n (poke linBuf i 0 c) := by
  intro i' j' hchar
  unfold TextEditor.poke at hchar
  split at hchar
  · rename_i hij
    exact ⟨hij.1 ▸ hi, hij.2⟩
  · exact h i' j' hchar

theorem Narrow.poke_newline {n i j : Nat} (h : Narrow n linBuf) :
    Narrow n (TextEditor.poke linBuf i j NEWLINE) := by
  intro i' j' hchar
  unfold TextEditor.poke at hchar
  split at hchar
  · exact absurd rfl hchar.2
  · exact h i' j' hchar

/-- Two rows of one letter; the second is typed over, and erased. -/
def edited : List Key := [letterA, newline, letterB, .LEFT, letterC, .BACKSPACE]

theorem clean_edited : Throughout (step terminal) (CleanIn terminal) edited start := by
  have hwide : ∀ {s : Nano} {c : UInt8}, 1 ≤ s.cY → 1 ≤ s.cX → Unlabelled terminal s c :=
    unlabelled_of_wide (by decide)
  have hnone : Narrow 0 fun _ _ => NUL := fun _ _ h => absurd rfl h.1
  have hletter : Narrow 1 (poke (fun _ _ => NUL) 0 0 97) :=
    Narrow.poke (fun i j h => absurd rfl h.1) Nat.one_pos
  have hline : Narrow 1 (poke (poke (fun _ _ => NUL) 0 0 97) 0 1 NEWLINE) := hletter.poke_newline
  have htwo : Narrow 2 (poke (poke (poke (poke (fun _ _ => NUL) 0 0 97) 0 1 NEWLINE) 1 0 98) 1 0 99) :=
    Narrow.poke (Narrow.poke (fun i j h => ⟨Nat.lt_succ_of_lt (hline i j h).1, (hline i j h).2⟩)
      Nat.one_lt_two) Nat.one_lt_two
  refine throughout_cons (fun _ => ?_) rfl (throughout_cons (fun _ => ?_) rfl (throughout_cons
    (fun _ => ?_) rfl (throughout_cons (fun _ => ?_) rfl (throughout_cons (fun _ => ?_) rfl
      (throughout_cons (fun _ => ?_) rfl trivial)))))
  · -- `a`
    exact ⟨⟨1, by decide, by decide, rfl⟩, hwide (by decide) (by decide), .inr
      ⟨hnone.last _ _, hnone.lowest (Nat.zero_le _), fun _ h => absurd h (Nat.not_lt_zero _),
        fun _ h => absurd h (Nat.not_lt_zero _)⟩⟩
  · -- the newline
    exact ⟨⟨1, by decide, by decide, rfl⟩, hwide (by decide) (by decide), by decide,
      hletter.last _ _, .inl (hletter.lowest (Nat.le_refl _))⟩
  · -- `b`
    refine ⟨⟨2, by decide, by decide, rfl⟩, hwide (by decide) (by decide), .inr
      ⟨hline.last _ _, hline.lowest (Nat.le_succ _), fun i hi => ?_,
        fun _ h => absurd h (Nat.not_lt_zero _)⟩⟩
    obtain rfl : i = 0 := Nat.lt_one_iff.mp hi
    refine ⟨1, fun j hj => ?_, rfl, fun j hj => ?_⟩
    · obtain rfl : j = 0 := Nat.lt_one_iff.mp hj
      exact ⟨by decide, by decide⟩
    · show poke (poke (fun _ _ => NUL) 0 0 97) 0 1 NEWLINE 0 j = NUL
      rw [poke_of_ne (by omega), poke_of_ne (by omega)]
  · exact trivial
  · -- `c` over `b`
    exact ⟨⟨2, by decide, by decide, rfl⟩, hwide (by decide) (by decide),
      .inl ⟨by decide, by decide⟩⟩
  · -- which is erased
    exact .inr ⟨htwo.last _ _, htwo.lowest (Nat.le_refl _)⟩

/-- `a c` is on the screen, and `a` in the file. -/
def erasedInside : List Key := [letterA, letterB, letterC, .LEFT, .BACKSPACE]

end TextEditor
end Labs
