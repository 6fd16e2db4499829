import Labs.MiniBash.Clobber

/-!
# The array of words

The words of an external command are stored into an array that was allocated before they were known.
Its size comes from `arg_count` (`smart_space_cnt` in `LAB_12`), which counts the words between runs of
white space; the words that are stored are those that `strtok` finds between spaces. `LAB_14` then
looks at every element of the array, which must not be `NULL`: `Filled`. `LAB_12` gives the array to
`execvp`, which needs a `NULL` behind the last word: `Terminated`.

The two ways of counting are compared two bytes at a time. A white space other than a space is part of
a word for `strtok`, so that it starts one where it stands behind a space (`strays`), and hides the
start of one where it stands in front of it (`hidden`). Everywhere else both count the same
(`words_add_hidden`).
-/

namespace Labs
namespace MiniBash

open Lib

/-! ## 1. Storing the words -/

abbrev Argv := List (Option (List UInt8))

/-- `calloc(n, sizeof(char *))`. -/
def callocArgv (n : Nat) : Argv := List.replicate n none

/-- The inner loop over `strtok`, from element `i` on; `none` is a store behind the array. -/
def storeWords (argv : Argv) (i : Nat) : List (List UInt8) → Option Argv
  | [] => some argv
  | word :: words =>
    if i < argv.length then storeWords (argv.set i (some word)) (i + 1) words else none

/-- The array of `LAB_12`. -/
def argv12 (cmd : List UInt8) : Option Argv :=
  let argNum := smartSpaceCnt cmd + 1
  storeWords (callocArgv (argNum + 1)) 0 (tokens SPACE cmd).1

/-- The array of `LAB_14`. -/
def argv14 (cmd : List UInt8) : Option Argv :=
  let argc := argCount cmd + 1
  storeWords (callocArgv argc) 0 (tokens SPACE cmd).1

/-- The words fit, and behind the last one there is a `NULL`. -/
def Terminated (cmd : List UInt8) : Prop :=
  ∃ argv, argv12 cmd = some argv ∧ argv[(tokens SPACE cmd).1.length]? = some none

/-- The words fit, and every element holds one. -/
def Filled (cmd : List UInt8) : Prop := ∃ argv, argv14 cmd = some argv ∧ ∀ word ∈ argv, word ≠ none

/-- What is stored behind the elements that hold a word already. -/
theorem storeWords_spec (pre : Argv) (n : Nat) (words : List (List UInt8)) :
    storeWords (pre ++ callocArgv n) pre.length words =
      if words.length ≤ n then some (pre ++ words.map some ++ callocArgv (n - words.length))
      else none := by
  induction words generalizing pre n with
  | nil => simp [storeWords]
  | cons word words ih =>
    rw [storeWords]
    cases n with
    | zero => simp [callocArgv]
    | succ n =>
      have hset : (pre ++ callocArgv (n + 1)).set pre.length (some word) =
          (pre ++ [some word]) ++ callocArgv n := by
        simp [callocArgv, List.replicate_succ, List.set_append_right]
      have hlen : pre.length + 1 = (pre ++ [some word]).length := by simp
      rw [if_pos (by simp [callocArgv]), hset, hlen, ih]
      simp

theorem storeWords_calloc (n : Nat) (words : List (List UInt8)) :
    storeWords (callocArgv n) 0 words =
      if words.length ≤ n then some (words.map some ++ callocArgv (n - words.length)) else none :=
  storeWords_spec [] n words

theorem terminated_iff (cmd : List UInt8) :
    Terminated cmd ↔ (tokens SPACE cmd).1.length ≤ argCount cmd + 1 := by
  unfold Terminated argv12 smartSpaceCnt
  rw [storeWords_calloc]
  constructor
  · rintro ⟨argv, hstored, hnull⟩
    split at hstored
    · cases hstored
      have hlt := (List.getElem?_eq_some_iff.mp hnull).1
      simp only [callocArgv, List.length_append, List.length_map, List.length_replicate] at hlt
      omega
    · cases hstored
  · intro h
    refine ⟨_, if_pos (Nat.le_succ_of_le h), ?_⟩
    rw [List.getElem?_append_right (by simp), List.length_map, Nat.sub_self]
    exact List.getElem?_replicate_of_lt (by omega)

theorem filled_iff (cmd : List UInt8) :
    Filled cmd ↔ (tokens SPACE cmd).1.length = argCount cmd + 1 := by
  unfold Filled argv14
  rw [storeWords_calloc]
  constructor
  · rintro ⟨argv, hstored, hfull⟩
    split at hstored
    · rename_i hle
      cases hstored
      refine Nat.le_antisymm hle (Nat.le_of_not_lt fun hlt => ?_)
      refine hfull none (List.mem_append_right _ ?_) rfl
      exact List.mem_replicate.mpr ⟨by omega, rfl⟩
    · cases hstored
  · intro h
    refine ⟨_, if_pos h.le, ?_⟩
    simp [callocArgv, h]

/-- The child of `LAB_12` starts a program exactly when its array has a `NULL` at the end. -/
theorem childEvent_exec_iff (cmd : List UInt8) :
    childEvent cmd = .exec (tokens SPACE cmd).1 ↔ Terminated cmd := by
  rw [terminated_iff, childEvent, smartSpaceCnt]
  split
  · rename_i hlt
    exact ⟨fun _ => Nat.le_of_lt_succ hlt, fun _ => rfl⟩
  · rename_i hle
    exact ⟨fun h => Event.noConfusion h, fun h => absurd (Nat.lt_succ_of_le h) hle⟩

/-- The run of `LAB_14` gets past its array exactly when every element of it holds a word. -/
theorem run14_external {home : Bool} {tok cmd : List UInt8} {toks : List (List UInt8)}
    (h : builtin home tok = .external cmd) :
    (run14 home (tok :: toks)).2 = .crashed ↔ ¬ Filled cmd := by
  rw [filled_iff, run14, h]
  dsimp only
  split
  · rename_i hargc
    exact ⟨fun h => Ending.noConfusion h, fun h => absurd hargc h⟩
  · rename_i hargc
    exact ⟨fun _ => hargc, fun _ => rfl⟩

/-! ## 2. Two ways of counting -/

/-- A white space that is no space stands behind a space. -/
def straysBehind (a b : UInt8) : Bool := a == 32 && (isspace b && b != 32)

/-- A byte of a word stands behind a white space that is no space. -/
def hiddenBehind (a b : UInt8) : Bool := (isspace a && a != 32) && !isspace b

def strays (cmd : List UInt8) : Nat := neighbours straysBehind cmd

def hidden (cmd : List UInt8) : Nat := neighbours hiddenBehind cmd

theorem countFrom_eq {fuel : Nat} {buf : List UInt8} (h : buf.length ≤ fuel) :
    countFrom fuel buf = neighbours (startsWord isspace) buf := by
  induction fuel generalizing buf with
  | zero =>
    rw [List.length_eq_zero_iff.mp (Nat.le_zero.mp h)]
    rfl
  | succ fuel ih =>
    cases buf with
    | nil => rfl
    | cons b buf =>
      have hbuf : buf.length ≤ fuel := Nat.le_of_succ_le_succ h
      rw [countFrom]
      cases hb : isspace b with
      | true =>
        rw [neighbours_gap hb, if_pos rfl]
        have hsuf := (List.dropWhile_suffix (l := buf) isspace).length_le
        cases hdrop : buf.dropWhile isspace with
        | nil => rfl
        | cons c rest =>
          have hc : isspace c = false := by
            have hhead := List.head?_dropWhile_not isspace buf
            rwa [hdrop] at hhead
          rw [hdrop, List.length_cons] at hsuf
          dsimp only
          rw [ih (by omega), neighbours_cons_of_not (a := c) (by simp [startsWord, hc])]
      | false =>
        rw [neighbours_cons_of_not (by simp [startsWord, hb])]
        exact ih hbuf

theorem argCount_eq {b : UInt8} (hb : isspace b = false) (cmd : List UInt8) :
    argCount (b :: cmd) = neighbours (startsWord isspace) (b :: cmd) := by
  rw [argCount, List.dropWhile_cons_of_neg (by simp [hb])]
  exact countFrom_eq (Nat.le_refl _)

theorem mem_SPACE {b : UInt8} : b ∈ SPACE ↔ b = 32 := List.mem_singleton

/-- At two neighbours the spaces that start a word and the white space that does differ by the strays
    and the hidden ones. -/
theorem startsWord_add (a b : UInt8) :
    (startsWord (· ∈ SPACE) a b).toNat + (hiddenBehind a b).toNat =
      (startsWord isspace a b).toNat + (straysBehind a b).toNat := by
  unfold startsWord hiddenBehind straysBehind
  simp only [mem_SPACE]
  have hspace : isspace 32 = true := rfl
  by_cases ha : a = 32
  · by_cases hb : b = 32
    · simp [ha, hb, hspace]
    · have hb' : (b != 32) = true := bne_iff_ne.mpr hb
      cases isspace b <;> simp [ha, hb, hb', hspace]
  · have ha' : (a == 32) = false := beq_eq_false_iff_ne.mpr ha
    have hne : (a != 32) = true := bne_iff_ne.mpr ha
    cases isspace a <;> simp [ha, ha', hne]

/-- **With every hidden word added, `strtok` finds the words that `arg_count` counts, and the
    strays.** -/
theorem words_add_hidden {b : UInt8} (hb : isspace b = false) (cmd : List UInt8) :
    (tokens SPACE (b :: cmd)).1.length + hidden (b :: cmd) =
      argCount (b :: cmd) + 1 + strays (b :: cmd) := by
  have hword : b ∉ SPACE := by
    intro hmem
    rw [mem_SPACE.mp hmem] at hb
    cases hb
  have hadd := neighbours_add_eq startsWord_add (b :: cmd)
  rw [tokens_length (mem_SPACE.mpr rfl) hword, argCount_eq hb, hidden, strays]
  omega

/-! ## 3. The commands that reach the array -/

/-- A command that is started is empty or starts with a byte of a word. -/
theorem external_cases {home : Bool} {tok cmd : List UInt8} (h : builtin home tok = .external cmd) :
    cmd = [] ∨ ∃ b rest, cmd = b :: rest ∧ isspace b = false := by
  rw [(builtin_external_iff.mp h).1]
  cases hdrop : tok.dropWhile isspace with
  | nil => exact .inl rfl
  | cons b rest =>
    refine .inr ⟨b, rest, rfl, ?_⟩
    have hhead := List.head?_dropWhile_not isspace tok
    rwa [hdrop] at hhead

theorem filled_iff_strays {home : Bool} {tok cmd : List UInt8}
    (h : builtin home tok = .external cmd) : Filled cmd ↔ cmd ≠ [] ∧ strays cmd = hidden cmd := by
  rw [filled_iff]
  rcases external_cases h with rfl | ⟨b, rest, rfl, hb⟩
  · exact ⟨fun h => Nat.noConfusion h, fun h => absurd rfl h.1⟩
  · have hwords := words_add_hidden hb rest
    constructor
    · intro h
      refine ⟨List.cons_ne_nil _ _, ?_⟩
      omega
    · intro h
      have heq := h.2
      omega

theorem terminated_iff_strays {home : Bool} {tok cmd : List UInt8}
    (h : builtin home tok = .external cmd) : Terminated cmd ↔ strays cmd ≤ hidden cmd := by
  rw [terminated_iff]
  rcases external_cases h with rfl | ⟨b, rest, rfl, hb⟩
  · exact ⟨fun _ => Nat.le_refl _, fun _ => Nat.zero_le _⟩
  · have hwords := words_add_hidden hb rest
    constructor
    · intro h
      omega
    · intro h
      omega

/-- **The array of a command is filled, or has its `NULL`, exactly when the hidden words make up for
    the strays.** -/
theorem arg_array_iff (home : Bool) (tok cmd : List UInt8) (h : builtin home tok = .external cmd) :
    (Filled cmd ↔ cmd ≠ [] ∧ strays cmd = hidden cmd) ∧ (Terminated cmd ↔ strays cmd ≤ hidden cmd) :=
  ⟨filled_iff_strays h, terminated_iff_strays h⟩

/-- `a b`: two words, one behind a space. -/
theorem arg_array_two_words :
    builtin true (ascii " a b") = .external (ascii "a b") ∧
      Filled (ascii "a b") ∧ Terminated (ascii "a b") := by
  have hext : builtin true (ascii " a b") = .external (ascii "a b") := by decide
  obtain ⟨hfilled, hterm⟩ := arg_array_iff true (ascii " a b") (ascii "a b") hext
  exact ⟨hext, hfilled.mpr (by decide), hterm.mpr (by decide)⟩

/-- A tab between two spaces is a third word, for which neither array has an element to spare. -/
theorem arg_array_overflows :
    builtin true (ascii "a " ++ TAB :: ascii " b") = .external (ascii "a " ++ TAB :: ascii " b") ∧
      ¬ Filled (ascii "a " ++ TAB :: ascii " b") ∧ ¬ Terminated (ascii "a " ++ TAB :: ascii " b") := by
  rw [filled_iff, terminated_iff]
  decide

end MiniBash
end Labs
