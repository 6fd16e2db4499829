import Labs.Lib.CString

/-!
# `strtok`

`strtok` splits one string over several calls and keeps the place where the next call goes on in
a variable of the C library. Here that variable is explicit: a call is given the bytes from the
saved place on (or from the start of a new string) and answers the token and the bytes from the
new place on. When nothing but delimiters is left there is no token, and the saved place is the
end of the string, where every later call finds nothing either.

`strtokAll` is the loop that calls it until there is no token. What matters to a caller who is in
the middle of a loop of its own is what such a loop leaves in the variable: `strtokAll_saved`,
the end of *its* string.

How many tokens there are can be read off a string two bytes at a time: a token starts where a byte
that is no delimiter follows a delimiter (`tokens_length`).
-/

namespace Labs
namespace Lib

variable {delims s : List UInt8}

def strtok (delims s : List UInt8) : Option (List UInt8) × List UInt8 :=
  let s := s.dropWhile (· ∈ delims)
  if s = [] then (none, [])
  else
    let tok := s.takeWhile (· ∉ delims)
    (some tok, s.drop (tok.length + 1))

/-- The tokens of at most `fuel` calls, and the place saved by the last one. -/
def strtokAll (delims : List UInt8) : Nat → List UInt8 → List (List UInt8) × List UInt8
  | 0, s => ([], s)
  | fuel + 1, s =>
    match strtok delims s with
    | (none, saved) => ([], saved)
    | (some tok, saved) =>
      let r := strtokAll delims fuel saved
      (tok :: r.1, r.2)

/-- One more call than bytes is never needed. -/
def tokens (delims s : List UInt8) : List (List UInt8) × List UInt8 :=
  strtokAll delims (s.length + 1) s

theorem strtok_none {saved : List UInt8} (h : strtok delims s = (none, saved)) : saved = [] := by
  unfold strtok at h
  dsimp only at h
  split at h
  · exact (congrArg Prod.snd h).symm
  · exact absurd (congrArg Prod.fst h) (by simp)

/-- A token uses up at least one byte. -/
theorem strtok_shorter {tok saved : List UInt8} (h : strtok delims s = (some tok, saved)) :
    saved.length < s.length := by
  unfold strtok at h
  dsimp only at h
  split at h
  · exact absurd (congrArg Prod.fst h) (by simp)
  · rename_i hne
    have hpos : 0 < (s.dropWhile (· ∈ delims)).length := List.length_pos_iff.mpr hne
    have hle : (s.dropWhile (· ∈ delims)).length ≤ s.length :=
      (List.dropWhile_suffix _).length_le
    have hsaved := congrArg (fun r => r.2.length) h
    simp only [List.length_drop] at hsaved
    omega

/-- Where `strtok` goes on, counted from the start of the string. -/
theorem strtok_rest {tok saved : List UInt8} (h : strtok delims s = (some tok, saved)) :
    saved = s.drop ((s.takeWhile (· ∈ delims)).length + tok.length + 1) := by
  unfold strtok at h
  dsimp only at h
  split at h
  · cases h
  · cases h
    have hskip := @List.drop_length_add_append _ (s.takeWhile (· ∈ delims))
      (s.dropWhile (· ∈ delims))
    rw [List.takeWhile_append_dropWhile] at hskip
    rw [Nat.add_assoc, hskip]

theorem strtokAll_saved {fuel : Nat} (h : s.length < fuel) : (strtokAll delims fuel s).2 = [] := by
  induction fuel generalizing s with
  | zero => exact absurd h (Nat.not_lt_zero _)
  | succ fuel ih =>
    rw [strtokAll]
    cases hs : strtok delims s with
    | mk tok saved =>
      cases tok with
      | none => exact strtok_none hs
      | some tok =>
        exact ih (Nat.lt_of_lt_of_le (strtok_shorter hs) (Nat.le_of_lt_succ h))

theorem tokens_saved (delims s : List UInt8) : (tokens delims s).2 = [] :=
  strtokAll_saved (Nat.lt_succ_self _)

theorem dropWhile_delims {gap word rest : List UInt8} (hgap : ∀ b ∈ gap, b ∈ delims)
    (hne : word ≠ []) (hword : ∀ b ∈ word, b ∉ delims) :
    (gap ++ (word ++ rest)).dropWhile (· ∈ delims) = word ++ rest := by
  rw [List.dropWhile_append_of_pos fun b hb => by simpa using hgap b hb]
  cases word with
  | nil => exact absurd rfl hne
  | cons w word => simp [hword w List.mem_cons_self]

/-- A word with a delimiter behind it is the next token… -/
theorem strtok_word {gap word more : List UInt8} {d : UInt8} (hgap : ∀ b ∈ gap, b ∈ delims)
    (hne : word ≠ []) (hword : ∀ b ∈ word, b ∉ delims) (hd : d ∈ delims) :
    strtok delims (gap ++ (word ++ d :: more)) = (some word, more) := by
  have htok : (word ++ d :: more).takeWhile (· ∉ delims) = word := by
    rw [List.takeWhile_append_of_pos fun b hb => by simpa using hword b hb]
    simp [hd]
  have hrest : (word ++ d :: more).drop (word.length + 1) = more := by
    simp [← List.drop_drop]
  unfold strtok
  simp only [dropWhile_delims hgap hne hword, htok, hrest]
  exact if_neg (List.append_ne_nil_of_left_ne_nil hne _)

/-- …and so is one that ends the string. -/
theorem strtok_last {gap word : List UInt8} (hgap : ∀ b ∈ gap, b ∈ delims)
    (hne : word ≠ []) (hword : ∀ b ∈ word, b ∉ delims) :
    strtok delims (gap ++ word) = (some word, []) := by
  have hdrop : (gap ++ word).dropWhile (· ∈ delims) = word := by
    simpa only [List.append_nil] using @dropWhile_delims delims gap word [] hgap hne hword
  have htok : word.takeWhile (· ∉ delims) = word :=
    List.takeWhile_eq_self_iff.mpr fun b hb => by simpa using hword b hb
  unfold strtok
  simp only [hdrop, htok]
  rw [if_neg hne, List.drop_of_length_le (Nat.le_succ _)]

/-- Tokens and the rest are made of the bytes of the string. -/
theorem mem_of_strtok {tok saved : List UInt8} (h : strtok delims s = (some tok, saved)) :
    (∀ b ∈ tok, b ∈ s) ∧ ∀ b ∈ saved, b ∈ s := by
  unfold strtok at h
  dsimp only at h
  split at h
  · exact absurd (congrArg Prod.fst h) (by simp)
  · have htok := Option.some.inj (congrArg Prod.fst h)
    have hsaved := congrArg Prod.snd h
    dsimp only at htok hsaved
    have hsuf : ∀ b ∈ s.dropWhile (· ∈ delims), b ∈ s := (List.dropWhile_suffix _).subset
    refine ⟨fun b hb => ?_, fun b hb => ?_⟩
    · rw [← htok] at hb
      exact hsuf b ((List.takeWhile_prefix _).subset hb)
    · rw [← hsaved] at hb
      exact hsuf b (List.mem_of_mem_drop hb)

theorem mem_of_strtokAll {fuel : Nat} {tok : List UInt8} (h : tok ∈ (strtokAll delims fuel s).1) :
    ∀ b ∈ tok, b ∈ s := by
  induction fuel generalizing s with
  | zero => exact absurd h (by simp [strtokAll])
  | succ fuel ih =>
    rw [strtokAll] at h
    cases hs : strtok delims s with
    | mk tok' saved =>
      rw [hs] at h
      cases tok' with
      | none => exact absurd h (by simp)
      | some tok' =>
        obtain ⟨htok, hsaved⟩ := mem_of_strtok hs
        rcases List.mem_cons.mp h with rfl | h
        · exact htok
        · exact fun b hb => hsaved b (ih h b hb)

/-! ## How many tokens -/

/-- In how many places of a list two neighbours are in a relation. -/
def neighbours {α : Type} (r : α → α → Bool) : List α → Nat
  | a :: b :: l => (r a b).toNat + neighbours r (b :: l)
  | _ => 0

section Neighbours

variable {α : Type} {r : α → α → Bool}

theorem neighbours_cons_cons (a b : α) (l : List α) :
    neighbours r (a :: b :: l) = (r a b).toNat + neighbours r (b :: l) := rfl

/-- An element that is in the relation with none behind it adds nothing. -/
theorem neighbours_cons_of_not {a : α} (h : ∀ b, r a b = false) (l : List α) :
    neighbours r (a :: l) = neighbours r l := by
  cases l with
  | nil => rfl
  | cons b l => rw [neighbours_cons_cons, h b, Bool.toNat_false, Nat.zero_add]

theorem neighbours_append_of_not {w : List α} (h : ∀ a ∈ w, ∀ b, r a b = false) (l : List α) :
    neighbours r (w ++ l) = neighbours r l := by
  induction w with
  | nil => rfl
  | cons a w ih =>
    rw [List.cons_append, neighbours_cons_of_not (h a List.mem_cons_self),
      ih fun b hb => h b (List.mem_cons_of_mem _ hb)]

/-- Relations that count alike at two neighbours count alike in a list. -/
theorem neighbours_add_eq {r' q q' : α → α → Bool}
    (h : ∀ a b, (r a b).toNat + (q a b).toNat = (r' a b).toNat + (q' a b).toNat) (l : List α) :
    neighbours r l + neighbours q l = neighbours r' l + neighbours q' l := by
  induction l with
  | nil => rfl
  | cons a l ih =>
    cases l with
    | nil => rfl
    | cons b l =>
      simp only [neighbours_cons_cons]
      have hab := h a b
      omega

end Neighbours

/-- A word starts at the second of two bytes. -/
def startsWord (gap : UInt8 → Bool) (a b : UInt8) : Bool := gap a && !gap b

/-- A gap, and behind it the end or the first byte of a word. -/
theorem neighbours_gap {gap : UInt8 → Bool} {d : UInt8} (hd : gap d = true) (s : List UInt8) :
    neighbours (startsWord gap) (d :: s) =
      match s.dropWhile gap with
      | [] => 0
      | b :: rest => neighbours (startsWord gap) (b :: rest) + 1 := by
  induction s generalizing d with
  | nil => rfl
  | cons c s ih =>
    rw [neighbours_cons_cons]
    cases hc : gap c with
    | true =>
      rw [List.dropWhile_cons_of_pos hc, ih hc]
      simp [startsWord, hc]
    | false =>
      rw [List.dropWhile_cons_of_neg (by simp [hc])]
      simp [startsWord, hd, hc, Nat.add_comm]

/-- A word, and behind it the end or a gap. -/
theorem neighbours_word {gap : UInt8 → Bool} (s : List UInt8) :
    neighbours (startsWord gap) s = neighbours (startsWord gap) (s.dropWhile fun b => !gap b) := by
  have hword : ∀ a ∈ s.takeWhile fun b => !gap b, ∀ b, startsWord gap a b = false := by
    intro a ha b
    have hgap := List.mem_takeWhile_imp ha
    simp only [Bool.not_eq_true'] at hgap
    simp [startsWord, hgap]
  have happ := neighbours_append_of_not hword (s.dropWhile fun b => !gap b)
  rwa [List.takeWhile_append_dropWhile] at happ

/-- What `strtok` leaves, counted from the end of its token. -/
theorem strtok_saved (delims s : List UInt8) :
    (strtok delims s).2 = ((s.dropWhile (· ∈ delims)).dropWhile (· ∉ delims)).drop 1 := by
  have hskip := @List.drop_length_add_append _
    ((s.dropWhile (· ∈ delims)).takeWhile (· ∉ delims))
    ((s.dropWhile (· ∈ delims)).dropWhile (· ∉ delims)) 1
  rw [List.takeWhile_append_dropWhile] at hskip
  unfold strtok
  dsimp only
  split
  · rename_i hnil
    rw [hnil]
    rfl
  · exact hskip

theorem strtokAll_length {fuel : Nat} {d : UInt8} (hd : d ∈ delims) (h : s.length < fuel) :
    (strtokAll delims fuel s).1.length = neighbours (startsWord (· ∈ delims)) (d :: s) := by
  induction fuel generalizing s d with
  | zero => exact absurd h (Nat.not_lt_zero _)
  | succ fuel ih =>
    rw [neighbours_gap (decide_eq_true hd), strtokAll]
    have hsaved := strtok_saved delims s
    cases hs : strtok delims s with
    | mk tok saved =>
      rw [hs] at hsaved
      dsimp only at hsaved
      cases hdrop : s.dropWhile (· ∈ delims) with
      | nil =>
        unfold strtok at hs
        rw [hdrop] at hs
        cases hs
        rfl
      | cons b rest =>
        rw [hdrop] at hsaved
        cases tok with
        | none =>
          unfold strtok at hs
          rw [hdrop] at hs
          cases hs
        | some tok =>
          have hlt := Nat.lt_of_lt_of_le (strtok_shorter hs) (Nat.le_of_lt_succ h)
          show (strtokAll delims fuel saved).1.length + 1 =
            neighbours (startsWord (· ∈ delims)) (b :: rest) + 1
          rw [neighbours_word (b :: rest)]
          simp only [← decide_not]
          cases hend : (b :: rest).dropWhile (· ∉ delims) with
          | nil =>
            rw [hend] at hsaved
            rw [ih hd hlt, hsaved]
            rfl
          | cons d' behind =>
            rw [hend] at hsaved
            -- the delimiter that ends the token stands before the next one
            have hd' : d' ∈ delims := by
              have hhead := @List.head_dropWhile_not _ (· ∉ delims) (b :: rest)
                (by rw [hend]; exact List.cons_ne_nil _ _)
              simp only [hend, List.head_cons] at hhead
              simpa using hhead
            rw [ih hd' hlt, hsaved]
            rfl

/-- **The tokens of a string that starts with a word are counted by its neighbours.** -/
theorem tokens_length {d b : UInt8} (hd : d ∈ delims) (hb : b ∉ delims) (s : List UInt8) :
    (tokens delims (b :: s)).1.length = neighbours (startsWord (· ∈ delims)) (b :: s) + 1 := by
  rw [tokens, strtokAll_length hd (Nat.lt_succ_self _), neighbours_cons_cons, Nat.add_comm]
  simp [startsWord, hd, hb]

end Lib
end Labs
