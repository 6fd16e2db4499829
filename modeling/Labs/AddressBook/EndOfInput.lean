import Labs.AddressBook.Program
import Labs.TaskLedger.Inside

/-!
# Where the book with slots waits for ever

`clear_stdin_buffer` is the same as in the other address book, and goes round for ever where the input
ends before the line does. It is called behind a command that is no white space, behind the number
that is read for an age, as often as that is tried again, and behind the answer to a question about a
customer. Between the commands the loop ends with the input (`next_shrinks`). The texts are read with
the sizes of their buffers, so no turn leaves its memory (`next_ends`), as turns of the other book do.

## Two books, one statement

The programs share the function that throws a line away, not more. The other book has a list, a file
to load and a way to leave its memory; this one has 64 slots and buffers of the right sizes. So the
condition here is on the input alone, and there it also asks for the memory (`TaskLedger.Inside`).
`loops_end_iff` puts the two beside each other.

What is read behind a command depends on the slots: the answers to questions are asked for each
customer of that name, in order, until one of them ends the search. `AnswersEnd` is therefore a
recursion over the slots, with the input that is left after each answer. A number is read again as
long as it is not positive; `Tries` has the inputs at which that happens.

Hanging is an outcome of the model and not a run without an end: `skipLine` finds no newline, and
the source would call `getchar` for ever. The loop over the commands is a real one, and ends because
each turn reads a byte at least (`next_shrinks`).
-/

namespace Labs
namespace AddressBook

open Lib

variable {inp inp' rest rest' : List UInt8} {c : UInt8} {b : Book} {slots : Slots} {x : Int}

/-! ## 1. Lines that end -/

/-- The inputs at which an age is read, from `inp` on. -/
inductive Tries : List UInt8 → List UInt8 → Prop
  | first (inp : List UInt8) : Tries inp inp
  | again {inp inp' rest rest' : List UInt8} {x : Int} (hscan : scanInt inp = (some x, rest))
      (hle : scannedInt x ≤ 0) (hskip : skipLine rest = some rest') (more : Tries rest' inp') :
      Tries inp inp'

/-- The line of each number ends. -/
def TriesEnd (inp : List UInt8) : Prop :=
  ∀ inp', Tries inp inp' → ∀ x rest, scanInt inp' = (some x, rest) → NEWLINE ∈ rest

/-- The sizes of the texts of a customer, as they are asked for. -/
def textSizes : List Nat := [NAMESIZ, NAMESIZ, NAMESIZ, NUMSIZ, OCCUPSIZ]

/-- The input behind the texts, if all are accepted. -/
def textsRead : List Nat → List UInt8 → Option (List UInt8)
  | [], inp => some inp
  | size :: sizes, inp =>
    match processString size inp with
    | (none, _) => none
    | (some _, rest) => textsRead sizes rest

/-- The lines of the answers end. It is asked at each customer with the name `buf`, until an answer
    is `last`. -/
def AnswersEnd (last : UInt8 → Bool) (buf : List UInt8) : List Priv → List UInt8 → Prop
  | [], _ => True
  | p :: ps, inp =>
    if p.name.text = buf then
      match inp with
      | [] => True
      | c :: inp =>
        NEWLINE ∈ inp ∧ ∀ rest, skipLine inp = some rest → last c = false →
          AnswersEnd last buf ps rest
    else AnswersEnd last buf ps inp

/-- What is asked for behind the command. -/
def TypingEnds (slots : Slots) (inp : List UInt8) : Nat → Prop
  | 1 => ∀ rest, textsRead textSizes inp = some rest → TriesEnd rest
  | 2 => ∀ buf rest, processString BUFSIZE inp = (some buf, rest) →
      AnswersEnd (fun c => tolower c == CHAR_y) buf.text slots.list rest
  | 3 => ∀ buf rest, processString BUFSIZE inp = (some buf, rest) →
      AnswersEnd (fun c => tolower c == CHAR_n) buf.text slots.list rest
  | _ => True

/-- The lines end that are thrown away in this turn. -/
structure Book.LinesEnd (b : Book) : Prop where
  command : ∀ c rest, b.input = c :: rest → LineEnds c rest
  typing : ∀ c rest rest', b.input = c :: rest → clearBehind c rest = .ok rest' →
    TypingEnds b.slots rest' (digitOf c)

/-! ## 2. Every turn reads something -/

/-- The call waits for ever, or leaves no more to read than there was. -/
def Consumes {α : Type} (rest : α → List UInt8) (inp : List UInt8) (x : Except Stop α) : Prop :=
  Ends x (· = .hang) fun a => (rest a).length ≤ inp.length

theorem processString_length (size : Nat) (inp : List UInt8) :
    (processString size inp).2.length ≤ inp.length := by
  unfold processString
  split
  · exact Nat.le_refl _
  · rename_i line rest hline
    have hrest := fgets_rest_length hline
    split
    · exact hrest
    · split
      · exact hrest
      · exact hrest

theorem tryAgain_consumes (tries : Nat) : Consumes Prod.snd inp (tryAgain tries inp) := by
  induction tries generalizing inp with
  | zero => exact rfl
  | succ tries ih =>
    have hscan := scanInt_length inp
    unfold tryAgain
    split
    · rename_i rest hx
      rw [hx] at hscan
      exact hscan
    · rename_i x rest hx
      rw [hx] at hscan
      split
      · exact rfl
      · rename_i rest' hskip
        have hrest := (skipLine_length hskip).trans hscan
        split
        · exact Ends.mono ih (fun _ h => h) fun _ hle => hle.trans hrest
        · exact hrest

/-- `add` reads the texts, and then the age if it has got all of them. -/
theorem readPriv_cases (inp : List UInt8) :
    (textsRead textSizes inp = none ∧ ∃ rest, rest.length ≤ inp.length ∧
        readPriv inp = .ok (none, rest)) ∨
      ∃ (rest : List UInt8) (customer : Int → Priv), textsRead textSizes inp = some rest ∧
        rest.length ≤ inp.length ∧
        readPriv inp = processInt rest >>= fun r => .ok (r.1.map customer, r.2) := by
  unfold readPriv textSizes
  have hlen := processString_length NAMESIZ inp
  rcases h₁ : processString NAMESIZ inp with ⟨_ | name, inp₁⟩
  · rw [h₁] at hlen
    exact .inl ⟨by rw [textsRead, h₁], inp₁, hlen, rfl⟩
  rw [h₁] at hlen
  have hlen₂ := (processString_length NAMESIZ inp₁).trans hlen
  rcases h₂ : processString NAMESIZ inp₁ with ⟨_ | middleName, inp₂⟩
  · rw [h₂] at hlen₂
    exact .inl ⟨by simp only [textsRead, h₁, h₂], inp₂, hlen₂, by simp only [h₂]⟩
  rw [h₂] at hlen₂
  have hlen₃ := (processString_length NAMESIZ inp₂).trans hlen₂
  rcases h₃ : processString NAMESIZ inp₂ with ⟨_ | lastName, inp₃⟩
  · rw [h₃] at hlen₃
    exact .inl ⟨by simp only [textsRead, h₁, h₂, h₃], inp₃, hlen₃, by simp only [h₂, h₃]⟩
  rw [h₃] at hlen₃
  have hlen₄ := (processString_length NUMSIZ inp₃).trans hlen₃
  rcases h₄ : processString NUMSIZ inp₃ with ⟨_ | phoneNumber, inp₄⟩
  · rw [h₄] at hlen₄
    exact .inl ⟨by simp only [textsRead, h₁, h₂, h₃, h₄], inp₄, hlen₄, by simp only [h₂, h₃, h₄]⟩
  rw [h₄] at hlen₄
  have hlen₅ := (processString_length OCCUPSIZ inp₄).trans hlen₄
  rcases h₅ : processString OCCUPSIZ inp₄ with ⟨_ | occupation, inp₅⟩
  · rw [h₅] at hlen₅
    exact .inl ⟨by simp only [textsRead, h₁, h₂, h₃, h₄, h₅], inp₅, hlen₅,
      by simp only [h₂, h₃, h₄, h₅]⟩
  rw [h₅] at hlen₅
  refine .inr ⟨inp₅, fun age => ⟨name, middleName, lastName, phoneNumber, occupation, age⟩,
    by simp only [textsRead, h₁, h₂, h₃, h₄, h₅], hlen₅, ?_⟩
  simp only [h₂, h₃, h₄, h₅]
  rfl

theorem add_consumes (slots : Slots) (inp : List UInt8) :
    Consumes Result.rest inp (add slots inp) := by
  have hread : Consumes Prod.snd inp (readPriv inp) := by
    rcases readPriv_cases inp with ⟨-, rest, hlen, hread⟩ | ⟨rest, customer, -, hlen, hread⟩
    · rw [hread]
      exact hlen
    · rw [hread]
      have hage : Consumes Prod.snd rest (processInt rest) := tryAgain_consumes _
      exact Ends.bind hage fun _ hle => Ends.ok (hle.trans hlen)
  refine Ends.bind hread ?_
  rintro ⟨newPriv, rest⟩ hle
  cases newPriv with
  | none => exact hle
  | some newPriv =>
    dsimp only
    split
    · exact hle
    · exact hle

theorem removeLoop_consumes (buf : List UInt8) (ps : List Priv) (i : Nat) (inp : List UInt8) :
    Consumes Prod.snd inp (removeLoop buf ps i inp) := by
  fun_induction removeLoop buf ps i inp with
  | case1 => exact Nat.le_refl _
  | case2 => exact Nat.le_refl _
  | case3 => exact rfl
  | case4 p ps i c inp hname rest hskip hgo ih =>
    have hle := skipLine_length hskip
    exact Ends.mono ih (fun _ h => h) fun _ h => h.trans (hle.trans (Nat.le_succ _))
  | case5 p ps i c inp hname rest hskip hgo =>
    exact (skipLine_length hskip).trans (Nat.le_succ _)
  | case6 p ps i inp hname ih => exact ih

theorem findLoop_consumes (buf : List UInt8) (ps : List Priv) (inp : List UInt8) :
    Consumes Prod.snd inp (findLoop buf ps inp) := by
  fun_induction findLoop buf ps inp with
  | case1 => exact Nat.le_refl _
  | case2 => exact Nat.le_refl _
  | case3 => exact rfl
  | case4 p ps c inp hname rest hskip hgo ih =>
    have hle := skipLine_length hskip
    exact Ends.bind ih fun _ h => Ends.ok (h.trans (hle.trans (Nat.le_succ _)))
  | case5 p ps c inp hname rest hskip hgo =>
    exact (skipLine_length hskip).trans (Nat.le_succ _)
  | case6 p ps inp hname ih => exact ih

theorem perform_consumes (slots : Slots) (inp : List UInt8) (d : Nat) :
    Consumes Result.rest inp (perform slots inp d) := by
  have hlen := processString_length BUFSIZE inp
  unfold perform
  split
  · exact add_consumes slots inp
  · unfold remove_
    split
    · rename_i rest h
      rw [h] at hlen
      exact hlen
    · rename_i buf rest h
      rw [h] at hlen
      refine Ends.bind (removeLoop_consumes buf.text slots.list 0 rest) ?_
      rintro ⟨freed, rest'⟩ hle
      cases freed with
      | none => exact hle.trans hlen
      | some i => exact hle.trans hlen
  · unfold find
    split
    · rename_i rest h
      rw [h] at hlen
      exact hlen
    · rename_i buf rest h
      rw [h] at hlen
      exact Ends.bind (findLoop_consumes buf.text slots.list rest) fun _ hle =>
        Ends.ok (hle.trans hlen)
  · exact Nat.le_refl _
  · exact Nat.le_refl _
  · exact Nat.le_refl _

theorem clearBehind_consumes (c : UInt8) (inp : List UInt8) :
    Consumes id inp (clearBehind c inp) := by
  unfold clearBehind
  split
  · exact Nat.le_refl _
  · split
    · exact rfl
    · rename_i rest hskip
      exact skipLine_length hskip

/-- A turn that goes on has read the byte of its command at least, and no turn leaves its memory. -/
theorem next_ends (b : Book) : Ends b.next (· = .hang) fun r =>
    ∀ b', r = .inr b' → b'.input.length < b.input.length := by
  obtain ⟨slots, inp, said⟩ := b
  cases inp with
  | nil => exact nofun
  | cons c inp =>
    refine Ends.bind (clearBehind_consumes c inp) fun rest hrest => ?_
    show Ends (if digitOf c = 6 then _ else _) _ _
    split
    · exact nofun
    · refine Ends.bind (perform_consumes slots rest (digitOf c)) fun r hr => ?_
      show Ends (if r.status = ERR then _ else _) _ _
      split
      · exact nofun
      · intro b' hb'
        cases hb'
        exact Nat.lt_succ_of_le (hr.trans hrest)

theorem next_shrinks : Shrinking Book.next fun b => b.input.length :=
  fun b b' hnext => (next_ends b).of_eq_ok hnext b' rfl

/-- `address_book`. -/
def addressBook (inp : List UInt8) : Except Stop Int :=
  loop Book.next (fun b => b.input.length) next_shrinks (start inp)

/-! ## 3. When a turn hangs -/

theorem clearBehind_hangs : Hangs (clearBehind c inp) ↔ ¬ LineEnds c inp :=
  TaskLedger.clearBehind_hangs

theorem tryAgain_hangs {tries : Nat} (h : inp.length < tries) :
    Hangs (tryAgain tries inp) ↔ ¬ TriesEnd inp := by
  induction tries generalizing inp with
  | zero => exact absurd h (Nat.not_lt_zero _)
  | succ tries ih =>
    have hscan := scanInt_length inp
    unfold tryAgain
    split
    · rename_i rest hx
      refine ⟨fun h => h.of_ok.elim, fun hno => absurd (fun inp' htries x' rest' hx' => ?_) hno⟩
      cases htries with
      | first => cases hx.symm.trans hx'
      | again hscan _ _ _ => cases hx.symm.trans hscan
    · rename_i x rest hx
      rw [hx] at hscan
      have hrest : rest.length ≤ inp.length := hscan
      cases hskip : skipLine rest with
      | none =>
        refine ⟨fun _ hends => ?_, fun _ => rfl⟩
        exact skipLine_eq_none.mp hskip (hends inp (.first inp) x rest hx)
      | some rest' =>
        have hmem : NEWLINE ∈ rest := by
          by_contra hno
          cases (skipLine_eq_none.mpr hno).symm.trans hskip
        have hlt := skipLine_length_lt hskip
        show Hangs (if scannedInt x ≤ 0 then _ else _) ↔ _
        split
        · rename_i hle
          rw [ih (show rest'.length < tries by omega), not_iff_not]
          constructor
          · intro hends inp' htries x' r hx'
            cases htries with
            | first =>
              cases hx.symm.trans hx'
              exact hmem
            | again hscan' hle' hskip' more =>
              cases hx.symm.trans hscan'
              cases hskip.symm.trans hskip'
              exact hends inp' more x' r hx'
          · intro hends inp' htries
            exact hends inp' (.again hx hle hskip htries)
        · rename_i hpos
          refine ⟨fun h => h.of_ok.elim, fun hno => absurd (fun inp' htries x' r hx' => ?_) hno⟩
          cases htries with
          | first =>
            cases hx.symm.trans hx'
            exact hmem
          | again hscan' hle' _ _ =>
            cases hx.symm.trans hscan'
            exact absurd hle' hpos

theorem add_hangs (slots : Slots) (inp : List UInt8) :
    Hangs (add slots inp) ↔ ¬ TypingEnds slots inp 1 := by
  have hread : Hangs (add slots inp) ↔ Hangs (readPriv inp) := by
    refine hangs_bind_left ?_
    rintro ⟨newPriv, rest⟩ h
    cases newPriv with
    | none => exact h.of_ok
    | some newPriv =>
      dsimp only at h
      split at h
      · exact h.of_ok
      · exact h.of_ok
  rw [hread]
  rcases readPriv_cases inp with ⟨hnone, rest, -, hcall⟩ | ⟨rest, customer, hsome, -, hcall⟩
  · rw [hcall]
    refine ⟨fun h => h.of_ok.elim, fun hno => absurd (fun rest' hrest' => ?_) hno⟩
    cases hnone.symm.trans hrest'
  · have hage : Hangs (processInt rest) ↔ ¬ TriesEnd rest := tryAgain_hangs (Nat.lt_succ_self _)
    rw [hcall, hangs_bind_left fun _ h => h.of_ok, hage, not_iff_not]
    refine ⟨fun hends rest' hrest' => ?_, fun hends => hends rest hsome⟩
    cases hsome.symm.trans hrest'
    exact hends

theorem mem_of_skipLine (h : skipLine inp = some rest) : NEWLINE ∈ inp := by
  by_contra hno
  cases (skipLine_eq_none.mpr hno).symm.trans h

theorem answersEnd_other {last : UInt8 → Bool} {buf : List UInt8} {p : Priv} {ps : List Priv}
    (h : p.name.text ≠ buf) : AnswersEnd last buf (p :: ps) inp ↔ AnswersEnd last buf ps inp := by
  cases inp with
  | nil => rw [AnswersEnd, if_neg h]
  | cons c inp => rw [AnswersEnd, if_neg h]

theorem removeLoop_hangs (buf : List UInt8) (ps : List Priv) (i : Nat) (inp : List UInt8) :
    Hangs (removeLoop buf ps i inp) ↔
      ¬ AnswersEnd (fun c => tolower c == CHAR_y) buf ps inp := by
  fun_induction removeLoop buf ps i inp with
  | case1 => exact ⟨fun h => h.of_ok.elim, fun h => absurd trivial h⟩
  | case2 p ps i hname =>
    rw [AnswersEnd, if_pos hname.symm]
    exact ⟨fun h => h.of_ok.elim, fun h => absurd trivial h⟩
  | case3 p ps i hname c inp hskip =>
    rw [AnswersEnd, if_pos hname.symm]
    exact ⟨fun _ h => skipLine_eq_none.mp hskip h.1, fun _ => rfl⟩
  | case4 p ps i hname c inp rest hskip hgo ih =>
    rw [ih, not_iff_not, AnswersEnd, if_pos hname.symm]
    refine ⟨fun h => ⟨mem_of_skipLine hskip, fun rest' hrest' _ => ?_⟩, fun h => ?_⟩
    · cases hskip.symm.trans hrest'
      exact h
    · exact h.2 rest hskip (beq_false_of_ne hgo)
  | case5 p ps i hname c inp rest hskip hgo =>
    rw [AnswersEnd, if_pos hname.symm]
    refine ⟨fun h => h.of_ok.elim, fun hno => absurd ⟨mem_of_skipLine hskip, ?_⟩ hno⟩
    intro rest' _ hlast
    exact absurd (beq_iff_eq.mpr (not_not.mp hgo)) (by simp [hlast])
  | case6 p ps i inp hname ih =>
    rw [ih, answersEnd_other (Ne.symm hname)]

theorem findLoop_hangs (buf : List UInt8) (ps : List Priv) (inp : List UInt8) :
    Hangs (findLoop buf ps inp) ↔ ¬ AnswersEnd (fun c => tolower c == CHAR_n) buf ps inp := by
  fun_induction findLoop buf ps inp with
  | case1 => exact ⟨fun h => h.of_ok.elim, fun h => absurd trivial h⟩
  | case2 p ps hname =>
    rw [AnswersEnd, if_pos hname]
    exact ⟨fun h => h.of_ok.elim, fun h => absurd trivial h⟩
  | case3 p ps hname c inp hskip =>
    rw [AnswersEnd, if_pos hname]
    exact ⟨fun _ h => skipLine_eq_none.mp hskip h.1, fun _ => rfl⟩
  | case4 p ps hname c inp rest hskip hgo ih =>
    refine (hangs_bind_left fun _ h => h.of_ok).trans ?_
    rw [ih, not_iff_not, AnswersEnd, if_pos hname]
    refine ⟨fun h => ⟨mem_of_skipLine hskip, fun rest' hrest' _ => ?_⟩, fun h => ?_⟩
    · cases hskip.symm.trans hrest'
      exact h
    · exact h.2 rest hskip (beq_false_of_ne hgo)
  | case5 p ps hname c inp rest hskip hgo =>
    rw [AnswersEnd, if_pos hname]
    refine ⟨fun h => h.of_ok.elim, fun hno => absurd ⟨mem_of_skipLine hskip, ?_⟩ hno⟩
    intro rest' _ hlast
    exact absurd (beq_iff_eq.mpr (not_not.mp hgo)) (by simp [hlast])
  | case6 p ps inp hname ih =>
    rw [ih, answersEnd_other hname]

/-- The name that `remove_` and `find` ask for. -/
theorem forall_name {ends : CStr BUFSIZE → List UInt8 → Prop} {buf : CStr BUFSIZE}
    (hname : processString BUFSIZE inp = (some buf, rest)) :
    (∀ buf rest, processString BUFSIZE inp = (some buf, rest) → ends buf rest) ↔ ends buf rest := by
  refine ⟨fun h => h buf rest hname, fun h buf' rest' hsame => ?_⟩
  cases hname.symm.trans hsame
  exact h

theorem remove_hangs (slots : Slots) (inp : List UInt8) :
    Hangs (remove_ slots inp) ↔ ¬ TypingEnds slots inp 2 := by
  unfold remove_
  rcases hname : processString BUFSIZE inp with ⟨_ | buf, rest⟩
  · refine ⟨fun h => h.of_ok.elim, fun hno => absurd (fun buf' rest' hname' => ?_) hno⟩
    cases hname.symm.trans hname'
  · have hends : TypingEnds slots inp 2 ↔
        AnswersEnd (fun c => tolower c == CHAR_y) buf.text slots.list rest := forall_name hname
    rw [hends, ← removeLoop_hangs buf.text slots.list 0 rest]
    refine hangs_bind_left ?_
    rintro ⟨freed, rest'⟩ h
    cases freed with
    | none => exact h.of_ok
    | some i => exact h.of_ok

theorem find_hangs (slots : Slots) (inp : List UInt8) :
    Hangs (find slots inp) ↔ ¬ TypingEnds slots inp 3 := by
  unfold find
  rcases hname : processString BUFSIZE inp with ⟨_ | buf, rest⟩
  · refine ⟨fun h => h.of_ok.elim, fun hno => absurd (fun buf' rest' hname' => ?_) hno⟩
    cases hname.symm.trans hname'
  · have hends : TypingEnds slots inp 3 ↔
        AnswersEnd (fun c => tolower c == CHAR_n) buf.text slots.list rest := forall_name hname
    rw [hends, ← findLoop_hangs buf.text slots.list rest]
    exact hangs_bind_left fun _ h => h.of_ok

theorem perform_hangs (slots : Slots) (inp : List UInt8) (d : Nat) :
    Hangs (perform slots inp d) ↔ ¬ TypingEnds slots inp d := by
  unfold perform
  split
  · exact add_hangs slots inp
  · exact remove_hangs slots inp
  · exact find_hangs slots inp
  · exact ⟨fun h => h.of_ok.elim, fun h => absurd trivial h⟩
  · exact ⟨fun h => h.of_ok.elim, fun h => absurd trivial h⟩
  · rename_i h1 h2 h3 _ _
    refine ⟨fun h => h.of_ok.elim, fun h => absurd ?_ h⟩
    unfold TypingEnds
    split
    · exact absurd rfl h1
    · exact absurd rfl h2
    · exact absurd rfl h3
    · exact trivial

/-- **A turn hangs exactly when a line that it throws away does not end.** -/
theorem next_hangs (b : Book) : Hangs b.next ↔ ¬ b.LinesEnd := by
  obtain ⟨slots, inp, said⟩ := b
  cases inp with
  | nil =>
    refine ⟨fun h => h.of_ok.elim, fun hno => absurd ⟨?_, ?_⟩ hno⟩
    · exact fun c rest h => nomatch h
    · exact fun c rest rest' h => nomatch h
  | cons c inp =>
    have hturn : Hangs (Book.next ⟨slots, c :: inp, said⟩) ↔
        ¬ LineEnds c inp ∨ ∃ rest, clearBehind c inp = .ok rest ∧
          ¬ TypingEnds slots rest (digitOf c) := by
      refine hangs_bind.trans (or_congr clearBehind_hangs (exists_congr fun rest =>
        and_congr_right fun _ => ?_))
      show Hangs (if digitOf c = 6 then _ else _) ↔ _
      split
      · rename_i hdigit
        rw [hdigit]
        exact ⟨fun h => h.of_ok.elim, fun h => absurd trivial h⟩
      · rw [← perform_hangs]
        refine hangs_bind_left fun r h => ?_
        have h : Hangs (if r.status = ERR then _ else _) := h
        split at h <;> exact h.of_ok
    rw [hturn]
    constructor
    · rintro (hline | ⟨rest, hclear, htyping⟩) hends
      · exact hline (hends.command c inp rfl)
      · exact htyping (hends.typing c inp rest rfl hclear)
    · intro hno
      by_contra hnone
      rw [not_or] at hnone
      refine hno ⟨fun c' rest hinp => ?_, fun c' rest rest' hinp hclear => ?_⟩
      · cases hinp
        exact not_not.mp hnone.1
      · cases hinp
        by_contra htyping
        exact hnone.2 ⟨rest', hclear, htyping⟩

/-! ## 4. The loops -/

/-- A turn of the address book finds it so. -/
def Reached (inp : List UInt8) (b : Book) : Prop :=
  Reaches (nextOf Book.next) (fun _ _ => True) (start inp) b

/-- **The book with slots comes to its end exactly when in each of its turns the lines end that are
    thrown away.** -/
theorem book_returns_iff (inp : List UInt8) :
    (∃ status, addressBook inp = .ok status) ↔ ∀ b, Reached inp b → b.LinesEnd := by
  have hhangs : ¬ Hangs (addressBook inp) ↔ ∀ b, Reached inp b → b.LinesEnd := by
    have hloop : Hangs (addressBook inp) ↔ ∃ b, Reached inp b ∧ Hangs b.next :=
      loop_hangs next_shrinks (start inp)
    rw [hloop, not_exists]
    refine forall_congr' fun b => ?_
    rw [not_and, next_hangs, not_not]
  have hfaults : ¬ Faults (addressBook inp) := by
    intro h
    obtain ⟨b, -, hturn⟩ := (loop_stops next_shrinks (start inp)).mp h
    exact (next_ends b).not_faults hturn
  rw [ok_iff_not_stops, hhangs]
  exact and_iff_left hfaults

/-- No file can be opened. -/
def noFiles : TaskLedger.World where
  object := some 0
  callocNode _ := true
  file _ _ := ⟨true, none, false, none, none, fun _ => true⟩
  jsmn _ := ⟨0, []⟩
  ahead _ := 4096
  readFails _ := false

end AddressBook
end Labs
