import Mathlib.Data.List.Basic

/-!
# Streams cut at a separator

A stream over any alphabet is a sequence of *frames*, each ended by a separator, followed by
a *leftover* that holds no separator. `frames` and `leftover` compute the two; `join_frames`
says that nothing of the stream is lost between them.

The two facts a buffering reader needs are `frames_append` and `leftover_append`: to know the
frames of `s ++ t` it is enough to have emitted the frames of `s` and to have kept its
leftover. Everything else here is how the pair moves under one separator (`frames_cons_frame`,
`leftover_cons_frame`), and an induction principle along the frames of a list.
-/

namespace Labs
namespace Lib

variable {α : Type*} [DecidableEq α] (sep : α)

/-- The parts of `s` that a separator ends, without their separators. -/
def frames : List α → List (List α)
  | [] => []
  | b :: s =>
    if b = sep then [] :: frames s
    else match frames s with
      | [] => []
      | f :: fs => (b :: f) :: fs

/-- What follows the last separator of `s`. -/
def leftover : List α → List α
  | [] => []
  | b :: s => if b = sep then leftover s else if sep ∈ s then leftover s else b :: s

@[simp] theorem frames_nil : frames sep [] = [] := rfl
@[simp] theorem leftover_nil : leftover sep [] = [] := rfl

/-! ## 1. One frame at a time -/

variable {sep}

theorem frames_of_not_mem : ∀ {s : List α}, sep ∉ s → frames sep s = []
  | [], _ => rfl
  | b :: s, h => by
    have hb : ¬ b = sep := fun e => h (by simp [e])
    have hs : frames sep s = [] := frames_of_not_mem fun hm => h (List.mem_cons_of_mem _ hm)
    simp [frames, hb, hs]

theorem leftover_of_not_mem : ∀ {s : List α}, sep ∉ s → leftover sep s = s
  | [], _ => rfl
  | b :: s, h => by
    have hb : ¬ b = sep := fun e => h (by simp [e])
    have hs : sep ∉ s := fun hm => h (List.mem_cons_of_mem _ hm)
    simp [leftover, hb, hs]

/-- The first separator of a list ends its first frame. -/
theorem frames_cons_frame {f : List α} (hf : sep ∉ f) (r : List α) :
    frames sep (f ++ sep :: r) = f :: frames sep r := by
  induction f with
  | nil => simp [frames]
  | cons b f ih =>
    have hb : ¬ b = sep := fun e => hf (by simp [e])
    have hih := ih fun hm => hf (List.mem_cons_of_mem _ hm)
    simp [frames, hb, hih]

theorem leftover_cons_frame {f : List α} (hf : sep ∉ f) (r : List α) :
    leftover sep (f ++ sep :: r) = leftover sep r := by
  induction f with
  | nil => simp [leftover]
  | cons b f ih =>
    have hb : ¬ b = sep := fun e => hf (by simp [e])
    have hih := ih fun hm => hf (List.mem_cons_of_mem _ hm)
    simp [leftover, hb, hih]

/-- Induction along the frames of a list. -/
theorem frames_induction (sep : α) {motive : List α → Prop}
    (tail : ∀ s, sep ∉ s → motive s)
    (frame : ∀ f r, sep ∉ f → motive r → motive (f ++ sep :: r)) (s : List α) : motive s := by
  induction hn : s.length using Nat.strongRecOn generalizing s with
  | ind n ih =>
    by_cases hm : sep ∈ s
    · obtain ⟨f, r, rfl, hf⟩ := List.eq_append_cons_of_mem hm
      refine frame f r hf (ih r.length ?_ r rfl)
      simp only [List.length_append, List.length_cons] at hn
      omega
    · exact tail s hm

/-! ## 2. Frames and leftover together are the stream -/

theorem leftover_sep_free (s : List α) : sep ∉ leftover sep s := by
  induction s using frames_induction sep with
  | tail s hs => rwa [leftover_of_not_mem hs]
  | frame f r hf ih => rwa [leftover_cons_frame hf]

theorem join_frames (s : List α) :
    ((frames sep s).map (· ++ [sep])).flatten ++ leftover sep s = s := by
  induction s using frames_induction sep with
  | tail s hs => simp [frames_of_not_mem hs, leftover_of_not_mem hs]
  | frame f r hf ih =>
    rw [frames_cons_frame hf, leftover_cons_frame hf]
    simp only [List.map_cons, List.flatten_cons, List.append_assoc, List.cons_append,
      List.nil_append, ih]

theorem length_frames (s : List α) : (frames sep s).length = s.count sep := by
  induction s using frames_induction sep with
  | tail s hs => simp [frames_of_not_mem hs, List.count_eq_zero_of_not_mem hs]
  | frame f r hf ih =>
    simp [frames_cons_frame hf, ih, List.count_append, List.count_eq_zero_of_not_mem hf]

/-! ## 3. Cutting the stream -/

theorem frames_append (s t : List α) :
    frames sep (s ++ t) = frames sep s ++ frames sep (leftover sep s ++ t) := by
  induction s using frames_induction sep with
  | tail s hs => simp [frames_of_not_mem hs, leftover_of_not_mem hs]
  | frame f r hf ih =>
    rw [frames_cons_frame hf, leftover_cons_frame hf, List.append_assoc, List.cons_append,
      frames_cons_frame hf, ih, List.cons_append]

theorem leftover_append (s t : List α) :
    leftover sep (s ++ t) = leftover sep (leftover sep s ++ t) := by
  induction s using frames_induction sep with
  | tail s hs => rw [leftover_of_not_mem hs]
  | frame f r hf ih =>
    rw [leftover_cons_frame hf, List.append_assoc, List.cons_append, leftover_cons_frame hf, ih]

theorem length_leftover_le (sep : α) (s : List α) : (leftover sep s).length ≤ s.length := by
  have h : (((frames sep s).map (· ++ [sep])).flatten ++ leftover sep s).length = s.length :=
    congrArg List.length (join_frames s)
  rw [List.length_append] at h
  omega

theorem length_leftover_append_le (sep : α) (s t : List α) :
    (leftover sep (s ++ t)).length ≤ (leftover sep s).length + t.length := by
  have h := length_leftover_le sep (leftover sep s ++ t)
  rwa [← leftover_append, List.length_append] at h

/-- The leftover at any point of a stream is the start of a frame or of the leftover. -/
theorem leftover_prefix (sep : α) (p r : List α) :
    (∃ f ∈ frames sep (p ++ r), leftover sep p <+: f) ∨
      leftover sep (p ++ r) = leftover sep p ++ r := by
  by_cases hm : sep ∈ r
  · obtain ⟨t, r', rfl, ht⟩ := List.eq_append_cons_of_mem hm
    have hfree : sep ∉ leftover sep p ++ t := fun h => by
      rcases List.mem_append.mp h with h | h
      · exact leftover_sep_free p h
      · exact ht h
    refine Or.inl ⟨leftover sep p ++ t, ?_, List.prefix_append _ _⟩
    rw [frames_append, ← List.append_assoc, frames_cons_frame hfree]
    exact List.mem_append_right _ List.mem_cons_self
  · refine Or.inr ?_
    rw [leftover_append, leftover_of_not_mem]
    intro h
    rcases List.mem_append.mp h with h | h
    · exact leftover_sep_free p h
    · exact hm h

end Lib
end Labs
