import Labs.Lib.CString

/-!
# Texts on a page

A text is lines, one below the other: `page blank text y x` is the character in line `y` and
column `x`, and `blank` where there is none. The rules are for a text that is put together from
pieces: a piece without a newline goes to the front of the line, a newline moves everything
behind it one line down, and behind a text that leaves the page blank nothing is seen.
-/

namespace Labs
namespace Lib

/-- The character of the text in line `y` and column `x`. -/
def page (blank : UInt8) : List UInt8 → Nat → Nat → UInt8
  | [], _, _ => blank
  | c :: _, 0, 0 => if c = NEWLINE then blank else c
  | c :: cs, 0, x + 1 => if c = NEWLINE then blank else page blank cs 0 x
  | c :: cs, y + 1, x => if c = NEWLINE then page blank cs y x else page blank cs (y + 1) x

variable {blank : UInt8} {piece text : List UInt8} {x y : Nat}

@[simp] theorem page_nil : page blank [] y x = blank := by
  unfold page
  rfl

@[simp] theorem page_newline_zero : page blank (NEWLINE :: text) 0 x = blank := by
  cases x <;> simp [page]

@[simp] theorem page_newline_succ : page blank (NEWLINE :: text) (y + 1) x = page blank text y x := by
  simp [page]

theorem page_append_zero (h : NEWLINE ∉ piece) :
    page blank (piece ++ text) 0 x =
      if x < piece.length then piece[x]?.getD blank else page blank text 0 (x - piece.length) := by
  induction piece generalizing x with
  | nil => simp
  | cons c piece ih =>
    have hc := List.ne_of_not_mem_cons h
    have hline := List.not_mem_of_not_mem_cons h
    cases x with
    | zero => simp [page, Ne.symm hc]
    | succ x =>
      have hlen : (c :: piece).length = piece.length + 1 := rfl
      rw [List.cons_append, page, if_neg (Ne.symm hc), ih hline, hlen, Nat.add_sub_add_right]
      simp

/-- A piece with nothing behind it. -/
theorem page_append_of_blank (h : NEWLINE ∉ piece) (hblank : ∀ x, page blank text 0 x = blank) :
    page blank (piece ++ text) 0 x = piece[x]?.getD blank := by
  rw [page_append_zero h, hblank]
  split
  · rfl
  · rename_i hlong
    rw [List.getElem?_eq_none (not_lt.mp hlong), Option.getD_none]

theorem page_append_succ (h : NEWLINE ∉ piece) :
    page blank (piece ++ text) (y + 1) x = page blank text (y + 1) x := by
  induction piece with
  | nil => rfl
  | cons c piece ih =>
    have hc := List.ne_of_not_mem_cons h
    have hline := List.not_mem_of_not_mem_cons h
    rw [List.cons_append, page, if_neg (Ne.symm hc), ih hline]

/-- Newlines in front of a blank page. -/
theorem page_newlines (hblank : ∀ y x, page blank text y x = blank) (h : ∀ c ∈ piece, c = NEWLINE) :
    page blank (piece ++ text) y x = blank := by
  induction piece generalizing y with
  | nil => exact hblank y x
  | cons c piece ih =>
    obtain rfl := h c List.mem_cons_self
    cases y with
    | zero => exact page_newline_zero
    | succ y =>
      rw [List.cons_append, page_newline_succ]
      exact ih fun b hb => h b (List.mem_cons_of_mem _ hb)

end Lib
end Labs
