import Labs.TaskLedger.Linked
import Labs.TaskLedger.Typing

/-!
# Where the address book waits for ever

`clear_stdin_buffer` reads up to a newline. At the end of the input `getchar` answers `EOF` for ever,
so it goes round for ever where the input ends before the line does. It is called behind a command and
behind an option that are no white space, and behind the number that is read for an age; all other
reading stops at the end of the input.

For each function it is said when it hangs, as a condition on the input that it finds. The walks over
the list come to an end since it is one (`Reached.linked`), and `load_from` reads no standard input.
So the book hangs exactly when in one of its turns a line does not end that is thrown away
(`book_ends_iff`).

## Hanging as a result

Where the source spins at the end of the input the model has the outcome `.hang`, apart from the
accesses that are undefined, which are `Faults`. For every function there is one equivalence that
says when it hangs (`…_hangs`), and none of them unfolds a callee: a sequence of calls hangs at its
first call or behind it (`hangs_bind`). The conditions are about what the function finds in the
input, and `ageInput` is the only piece of reading that had to be described on its own: an age is
asked for behind the lines of the other fields, and only if all of these are accepted.

Faults are the subject of `Inside`, and both together of `book_returns_iff` there. They are kept
apart because they have nothing to do with each other: a turn may hang in a ledger that is sound,
and fault in an input whose lines all end.
-/

namespace Labs
namespace TaskLedger

open Lib

variable {w : World} {L : Ledger} {inp rest : List UInt8} {c : UInt8} {e : Priv} {f : Field}
  {fs : List Field} {off : Nat} {xs us zs : List (Addr × Priv)} {b : Book}

/-! ## 1. Lines that end -/

/-- There is an option, and its line ends. -/
def Chosen (inp : List UInt8) : Prop := ∃ c rest, inp = c :: rest ∧ LineEnds c rest

/-- The line of the number ends, if there is a number. -/
def AgeEnds (inp : List UInt8) : Prop := ∀ x rest, scanInt inp = (some x, rest) → NEWLINE ∈ rest

/-- The input behind the lines for the fields, if all are accepted. -/
def ageInput : List Field → List UInt8 → Option (List UInt8)
  | [], inp => some inp
  | f :: fs, inp =>
    if f.offset + (typedLine inp).length + 1 ≤ sizeofPriv ∧ NEWLINE ∈ cstr (typedLine inp) then
      ageInput fs (inp.drop (typedLine inp).length)
    else none

def EntryEnds (inp : List UInt8) : Prop :=
  ∀ rest, ageInput typedFields inp = some rest → AgeEnds rest

def Opt.KeyEnds (inp : List UInt8) : Opt → Prop
  | .BY_ENTRY => EntryEnds inp
  | .BY_AGE => AgeEnds inp
  | _ => True

/-- What is asked for behind the command. -/
def Command.TypingEnds (callocOk : Bool) (inp : List UInt8) : Command → Prop
  | .add _ => callocOk = true → EntryEnds inp
  | .removeBy opt | .findBy opt => opt.KeyEnds inp
  | _ => True

/-- The lines end that are thrown away in this turn. -/
structure Book.LinesEnd (w : World) (b : Book) : Prop where
  command : ∀ c rest, b.input = c :: rest → LineEnds c rest
  option : ∀ c rest rest', b.input = c :: rest → clearBehind c rest = .ok rest' →
    digitOf c ∈ [1, 2, 3] → Chosen rest'
  typing : ∀ command rest, b.command w = .ok (command, rest) →
    command.TypingEnds (w.callocNode b.turn) rest

/-! ## 2. Reading -/

theorem clearBehind_hangs : Hangs (clearBehind c inp) ↔ ¬ LineEnds c inp := by
  unfold clearBehind LineEnds
  split
  · rename_i hspace
    exact ⟨fun h => h.of_ok.elim, fun h => absurd (.inl hspace) h⟩
  · rename_i hspace
    rw [not_or, ← skipLine_eq_none]
    cases skipLine inp with
    | none => exact ⟨fun _ => ⟨hspace, rfl⟩, fun _ => rfl⟩
    | some rest => exact ⟨fun h => h.of_ok.elim, fun h => nomatch h.2⟩

theorem decideOption_hangs : Hangs (decideOption inp) ↔ ¬ Chosen inp := by
  cases inp with
  | nil =>
    refine ⟨fun _ => ?_, fun _ => rfl⟩
    rintro ⟨c, rest, hinp, -⟩
    cases hinp
  | cons c inp =>
    have hcall : Hangs (decideOption (c :: inp)) ↔ Hangs (clearBehind c inp) :=
      hangs_bind_left fun _ h => h.of_ok
    rw [hcall, clearBehind_hangs, not_iff_not]
    refine ⟨fun h => ⟨c, inp, rfl, h⟩, ?_⟩
    rintro ⟨c', rest, hinp, h⟩
    cases hinp
    exact h

theorem readOption_hangs (fails : Bool) (d : Nat) :
    Hangs (readOption fails inp d) ↔ d ∈ [1, 2, 3] ∧ ¬ Chosen inp := by
  have hdecide : ∀ command : Nat → Command,
      Hangs (decideOption inp >>= fun r => .ok (command r.1, r.2)) ↔ ¬ Chosen inp := by
    intro command
    rw [← decideOption_hangs]
    exact hangs_bind_left fun _ h => h.of_ok
  unfold readOption
  split
  · exact (hdecide posOf).trans ⟨fun h => ⟨by decide, h⟩, And.right⟩
  · exact (hdecide (optOf .removeBy)).trans ⟨fun h => ⟨by decide, h⟩, And.right⟩
  · exact (hdecide (optOf .findBy)).trans ⟨fun h => ⟨by decide, h⟩, And.right⟩
  · exact ⟨fun h => h.of_ok.elim, fun h => absurd h.1 (by decide)⟩
  · exact ⟨fun h => h.of_ok.elim, fun h => absurd h.1 (by decide)⟩
  · exact ⟨fun h => h.of_ok.elim, fun h => absurd h.1 (by decide)⟩
  · rename_i h1 h2 h3 _ _ _
    refine ⟨fun h => h.of_ok.elim, fun h => absurd h.1 ?_⟩
    simp only [List.mem_cons, List.not_mem_nil, or_false, not_or]
    exact ⟨h1, h2, h3⟩

theorem processParam_age_hangs (hoff : off + 4 ≤ sizeofPriv) (size : Nat) :
    Hangs (processParam e off size .INT inp) ↔ ¬ AgeEnds inp := by
  rw [processParam]
  unfold AgeEnds
  split
  · rename_i rest hscan
    refine ⟨fun h => h.of_ok.elim, fun h => absurd (fun x rest' hx => ?_) h⟩
    cases hscan.symm.trans hx
  · rename_i x rest hscan
    obtain ⟨e₁, hput⟩ := put_of_le e off (encode32 (scannedInt x)) hoff
    rw [bind_of_ok hput]
    cases hskip : skipLine rest with
    | none =>
      refine ⟨fun _ h => ?_, fun _ => rfl⟩
      exact skipLine_eq_none.mp hskip (h x rest hscan)
    | some rest' =>
      refine ⟨fun h => h.of_ok.elim, fun h => absurd (fun x' r hx => ?_) h⟩
      cases hscan.symm.trans hx
      by_contra hno
      cases (skipLine_eq_none.mpr hno).symm.trans hskip

theorem put_not_hangs (e : Priv) (off : Nat) (bs : List UInt8) : ¬ Hangs (put e off bs) := by
  unfold put
  split
  · exact fun h => nomatch h
  · exact fun h => h.of_ok

/-- `fgets` stops at the end of the input. -/
theorem processParam_line_not_hangs (e : Priv) (off size : Nat) :
    ¬ Hangs (processParam e off size .STRING inp) := by
  rw [processParam]
  split
  · exact fun h => h.of_ok
  · refine not_hangs_bind (put_not_hangs _ _ _) fun e₁ _ => ?_
    split
    · exact fun h => h.of_ok
    · exact not_hangs_bind (put_not_hangs _ _ _) fun e₂ _ h => h.of_ok

/-- The age is the only field whose reading can hang. -/
theorem processParams_hangs (fs : List Field) (e : Priv) :
    Hangs (processParams (callsOf fs) e inp) ↔
      ∃ rest, ageInput fs inp = some rest ∧ ¬ AgeEnds rest := by
  induction fs generalizing e inp with
  | nil =>
    have hage : Hangs (processParams (callsOf []) e inp) ↔
        Hangs (processParam e Field.age.offset BUFSIZE .INT inp) := by
      refine hangs_bind_left ?_
      rintro ⟨r, e', rest⟩ h
      have h : Hangs (if r = ERR then _ else _) := h
      split at h
      · exact h.of_ok
      · exact h.of_ok
    rw [hage, processParam_age_hangs (by decide)]
    refine ⟨fun h => ⟨inp, rfl, h⟩, ?_⟩
    rintro ⟨rest, hrest, h⟩
    cases hrest
    exact h
  | cons f fs ih =>
    have hcall : processParams (callsOf (f :: fs)) e inp =
        processParam e f.offset BUFSIZE .STRING inp >>= fun r =>
          if r.1 = ERR then .ok (ERR, r.2.1, r.2.2) else processParams (callsOf fs) r.2.1 r.2.2 :=
      rfl
    by_cases hinp : inp = []
    · subst hinp
      rw [hcall, processParam_nothing]
      refine ⟨fun h => h.of_ok.elim, ?_⟩
      rintro ⟨rest, hrest, -⟩
      rw [ageInput, if_neg (fun h => nomatch h.2)] at hrest
      cases hrest
    · by_cases hfits : f.offset + (typedLine inp).length + 1 ≤ sizeofPriv
      · obtain ⟨e₁, hput⟩ := put_of_le e f.offset (typedLine inp ++ [NUL])
          (by rw [List.length_append, List.length_singleton]; exact hfits)
        rcases processParam_line hinp hput with
          ⟨hnot, herr⟩ | ⟨l, rest, e₂, -, -, -, -, hrest, hmem, -, hok⟩
        · rw [hcall, herr, ageInput, if_neg fun h => hnot h.2]
          refine ⟨fun h => h.of_ok.elim, ?_⟩
          rintro ⟨_, hnone, -⟩
          cases hnone
        · rw [hcall, hok, ageInput, if_pos ⟨hfits, hmem⟩, hrest]
          exact ih e₂
      · have hput : put e f.offset (typedLine inp ++ [NUL]) = .error .outOfBounds := by
          have hwrite : e.write f.offset (typedLine inp ++ [NUL]) = none := by
            rw [Block.write, dif_neg]
            rw [List.length_append, List.length_singleton]
            exact hfits
          rw [put, hwrite]
        have herror : processParam e f.offset BUFSIZE .STRING inp = .error .outOfBounds := by
          rw [processParam, fgets_typedLine hinp]
          exact bind_of_error hput _
        rw [hcall, herror, ageInput, if_neg fun h => hfits h.1]
        refine iff_of_false ?_ ?_
        · intro h
          cases h
        · rintro ⟨_, hnone, -⟩
          cases hnone

theorem processEntry_hangs (e : Priv) :
    Hangs (processEntry e .PRIV inp) ↔ ¬ EntryEnds inp := by
  have hparams : Hangs (processEntry e .PRIV inp) ↔ _ := processParams_hangs typedFields e
  rw [hparams, EntryEnds, not_forall]
  exact exists_congr fun rest => Classical.not_imp.symm

theorem readKey_hangs {opt : Opt} (hf : opt.field = some f) :
    Hangs (readKey opt f inp) ↔ ¬ opt.KeyEnds inp := by
  cases opt with
  | BY_ENTRY => exact processEntry_hangs _
  | BY_AGE =>
    cases hf
    exact processParam_age_hangs (by decide) Field.age.size
  | other => cases hf
  | _ =>
    refine ⟨fun h => ?_, fun h => absurd trivial h⟩
    exact absurd h (processParam_line_not_hangs _ _ _)

/-! ## 3. Walks over the list -/

theorem insert_not_hangs (h : Linked L) (e : Priv) (pos : Pos) : ¬ Hangs (insert L e pos) := by
  rcases insert_cases h e pos with ⟨-, L', hok, -⟩ | ⟨-, herror⟩
  · rw [hok]
    exact Hangs.of_ok
  · rw [herror]
    exact fun h => nomatch h

/-- The loop of `remove_by` comes to an end, or to the node that it has freed. -/
theorem removeLoop_cases (hit : Priv → Bool) (unique : Bool)
    (hc : Chain L.heap L.head xs none) :
    (¬ (unique = false ∧ ¬ MatchesFirst hit xs) ∧
        ∃ L', removeLoop unique hit (L.heap.brk + 1) L L.head none = .ok L') ∨
      (unique = false ∧ ¬ MatchesFirst hit xs) ∧
        removeLoop unique hit (L.heap.brk + 1) L L.head none = .error .useAfterFree := by
  have hfuel : xs.length < L.heap.brk + 1 := Nat.lt_succ_of_le hc.length_le_brk
  cases unique with
  | true =>
    obtain ⟨L', -, hrun⟩ := removeLoop_unique hit hc hfuel
    exact .inl ⟨fun h => (nomatch h.1), L', hrun⟩
  | false =>
    by_cases hm : MatchesFirst hit xs
    · obtain ⟨L', -, hrun⟩ := removeLoop_matchesFirst none hc hm hfuel
      exact .inl ⟨fun h => h.2 hm, L', hrun⟩
    · exact .inr ⟨⟨rfl, hm⟩, removeLoop_not_matchesFirst none hc hm hfuel⟩

theorem findLoop_not_hangs (h : Linked L) (unique : Bool) (hit : Priv → Bool) :
    ¬ Hangs (findLoop unique hit L.heap (L.heap.brk + 1) L.head) := by
  obtain ⟨xs, hc⟩ := h
  rw [findLoop_spec unique hit hc (Nat.lt_succ_of_le hc.length_le_brk)]
  exact fun h => h.of_ok

/-! ## 4. The calls -/

theorem add_given_not_hangs (callocOk : Bool) (L : Ledger) (e : Priv) (inp : List UInt8) :
    ¬ Hangs (add callocOk L (some e) .BEGIN inp) := by
  intro h
  unfold add at h
  split at h
  · exact h.of_ok
  · have h : Hangs (if OK = ERR then .ok (ERR, L, inp) else
        if unnamed e then .ok (ERR, L, inp) else .ok (OK, insertBegin L e, inp)) := h
    split at h
    · exact h.of_ok
    · split at h <;> exact h.of_ok

theorem add_hangs (h : Linked L) (callocOk : Bool) (pos : Pos) :
    Hangs (add callocOk L none pos inp) ↔ callocOk = true ∧ ¬ EntryEnds inp := by
  cases callocOk with
  | false => exact ⟨fun h => h.of_ok.elim, fun h => nomatch h.1⟩
  | true =>
    have hentry : Hangs (add true L none pos inp) ↔
        Hangs (processEntry (.zero _) .PRIV inp) := by
      refine hangs_bind_left ?_
      rintro ⟨r, e, rest⟩ hrest
      have hrest : Hangs (if r = ERR then _ else if unnamed e then _ else _) := hrest
      split at hrest
      · exact hrest.of_ok
      · split at hrest
        · exact hrest.of_ok
        · exact not_hangs_bind (insert_not_hangs h e pos) (fun _ _ h => h.of_ok) hrest
    rw [hentry, processEntry_hangs]
    exact ⟨fun h => ⟨rfl, h⟩, And.right⟩

theorem removeBy_hangs (h : Linked L) (opt : Opt) :
    Hangs (removeBy L opt inp) ↔ ¬ opt.KeyEnds inp := by
  unfold removeBy
  split
  · rename_i hf
    cases opt with
    | other => exact ⟨fun h => h.of_ok.elim, fun h => absurd trivial h⟩
    | _ => cases hf
  · rename_i f hf
    rw [← readKey_hangs hf]
    refine hangs_bind_left ?_
    rintro ⟨r, key, rest⟩ hrest
    have hrest : Hangs (if r = ERR then _ else _) := hrest
    split at hrest
    · exact hrest.of_ok
    · obtain ⟨xs, hc⟩ := h
      refine not_hangs_bind ?_ (fun _ _ h => h.of_ok) hrest
      rcases removeLoop_cases (cmp key · f) opt.unique hc with ⟨-, L', hrun⟩ | ⟨-, hrun⟩
      · rw [hrun]
        exact Hangs.of_ok
      · rw [hrun]
        exact fun h => nomatch h

theorem findBy_hangs (h : Linked L) (opt : Opt) :
    Hangs (findBy L opt inp) ↔ ¬ opt.KeyEnds inp := by
  unfold findBy
  split
  · rename_i hf
    cases opt with
    | other => exact ⟨fun h => h.of_ok.elim, fun h => absurd trivial h⟩
    | _ => cases hf
  · rename_i f hf
    rw [← readKey_hangs hf]
    refine hangs_bind_left ?_
    rintro ⟨r, key, rest⟩ hrest
    have hrest : Hangs (if r = ERR then _ else _) := hrest
    split at hrest
    · exact hrest.of_ok
    · exact not_hangs_bind (findLoop_not_hangs h _ _) (fun _ _ h => h.of_ok) hrest

theorem tokenAt_not_hangs (ts : List Tok) (i : Nat) : ¬ Hangs (tokenAt ts i) := by
  unfold tokenAt
  split
  · exact fun h => h.of_ok
  · exact fun h => nomatch h

theorem textOf_not_hangs (buf : List UInt8) (t : Tok) : ¬ Hangs (textOf buf t) := by
  unfold textOf
  split
  · exact fun h => h.of_ok
  · exact fun h => nomatch h

theorem loadValue_not_hangs (buf : List UInt8) (e : Priv) (t : Tok) :
    ¬ Hangs (loadValue buf e t) := by
  unfold loadValue
  split
  · exact not_hangs_bind (textOf_not_hangs _ _) fun _ _ =>
      not_hangs_bind (put_not_hangs _ _ _) fun _ _ h => h.of_ok
  · have htext : ¬ Hangs (textFrom buf t.start) := by
      unfold textFrom
      split
      · exact fun h => h.of_ok
      · exact fun h => nomatch h
    refine not_hangs_bind htext fun text _ => not_hangs_bind ?_ fun e' _ h => ?_
    · unfold scanAge
      split
      · exact put_not_hangs _ _ _
      · exact fun h => h.of_ok
    · have h : Hangs (if ageOf e' < 0 then _ else _) := h
      split at h <;> exact h.of_ok
  · exact fun h => h.of_ok

theorem loadPairs_not_hangs (buf : List UInt8) (ts : List Tok) (n i : Nat) (e : Priv) :
    ¬ Hangs (loadPairs buf ts n i e) := by
  induction n generalizing i e with
  | zero => exact fun h => h.of_ok
  | succ n ih =>
    refine not_hangs_bind (tokenAt_not_hangs ts i) fun key _ h => ?_
    have h : Hangs (if key.type = .JSMN_STRING ∧ key.size ≠ 0 then _ else _) := h
    split at h
    · refine not_hangs_bind (tokenAt_not_hangs ts (i + 1)) (fun value _ =>
        not_hangs_bind (loadValue_not_hangs buf e value) fun r _ h => ?_) h
      cases r with
      | none => exact h.of_ok
      | some e' => exact ih (i + 2) e' h
    · exact h.of_ok

theorem loadRecords_not_hangs (callocNode : Nat → Bool) (buf : List UInt8) (ts : List Tok)
    (m i : Nat) (L : Ledger) : ¬ Hangs (loadRecords callocNode buf ts m i L) := by
  induction m generalizing i L with
  | zero => exact fun h => h.of_ok
  | succ m ih =>
    refine not_hangs_bind (tokenAt_not_hangs ts i) fun t _ h => ?_
    have h : Hangs (if t.type ≠ .JSMN_OBJECT then _ else _) := h
    split at h
    · exact h.of_ok
    · refine not_hangs_bind (loadPairs_not_hangs buf ts _ _ _) (fun r _ h => ?_) h
      cases r with
      | none => exact h.of_ok
      | some je =>
        refine not_hangs_bind (add_given_not_hangs (callocNode m) L je.2 []) (fun r _ h => ?_) h
        have h : Hangs (if r.1 = ERR then _ else _) := h
        split at h
        · exact h.of_ok
        · exact ih je.1 r.2.1 h

theorem loadFrom_not_hangs (jsmn : List UInt8 → Parsed) (file : FileAnswers) (L : Ledger) :
    ¬ Hangs (loadFrom jsmn file L) := by
  rcases loadFrom_cases jsmn file L with ⟨-, _, hret⟩ | ⟨-, -, _, hret⟩ | ⟨_, _, _, -, hret⟩ <;>
    rw [hret]
  · exact fun h => h.of_ok
  · exact fun h => h.of_ok
  · unfold parseAndLoad
    dsimp only
    split
    · exact fun h => h.of_ok
    · refine not_hangs_bind ?_ fun r _ h => ?_
      · refine not_hangs_bind (tokenAt_not_hangs _ 0) fun object _ h => ?_
        have h : Hangs (if object.type ≠ .JSMN_OBJECT then _ else _) := h
        split at h
        · exact h.of_ok
        · refine not_hangs_bind (tokenAt_not_hangs _ 1) (fun key _ =>
            not_hangs_bind (textOf_not_hangs _ key) fun text _ =>
              not_hangs_bind ?_ fun found _ h => ?_) h
          · unfold isEmployees
            split
            · exact fun h => h.of_ok
            · split
              · exact fun h => nomatch h
              · exact fun h => h.of_ok
          · have h : Hangs (if found = false then _ else _) := h
            split at h
            · exact h.of_ok
            · refine not_hangs_bind (tokenAt_not_hangs _ 2) (fun array _ h => ?_) h
              have h : Hangs (if array.type ≠ .JSMN_ARRAY then _ else _) := h
              split at h
              · exact h.of_ok
              · exact loadRecords_not_hangs _ _ _ _ _ _ h
      · have h : Hangs (if r.1 then _ else _) := h
        split at h <;> exact h.of_ok

theorem perform_hangs (h : Linked L) (turn : Nat) (command : Command) :
    Hangs (perform w turn L inp command) ↔ ¬ command.TypingEnds (w.callocNode turn) inp := by
  cases command with
  | add pos =>
    refine (add_hangs h (w.callocNode turn) pos).trans ?_
    rw [Command.TypingEnds, Classical.not_imp]
  | removeBy opt => exact removeBy_hangs h opt
  | findBy opt => exact (hangs_bind_left fun _ h => h.of_ok).trans (findBy_hangs h opt)
  | loadFrom filename =>
    refine ⟨fun hload => ?_, fun hno => absurd trivial hno⟩
    exact absurd hload (not_hangs_bind (loadFrom_not_hangs _ _ _) fun _ _ h => h.of_ok)
  | display =>
    refine ⟨fun hwalk => ?_, fun hno => absurd trivial hno⟩
    exact absurd hwalk (not_hangs_bind (findLoop_not_hangs h _ _) fun _ _ h => h.of_ok)
  | noFilename | nothing | leave => exact ⟨fun h => h.of_ok.elim, fun h => absurd trivial h⟩

/-! ## 5. Turns, and the book -/

theorem command_hangs (hinp : b.input = c :: inp) : Hangs (b.command w) ↔
    ¬ LineEnds c inp ∨ ∃ rest, clearBehind c inp = .ok rest ∧
      digitOf c ∈ [1, 2, 3] ∧ ¬ Chosen rest := by
  rw [Book.command, hinp]
  refine hangs_bind.trans (or_congr clearBehind_hangs (exists_congr fun rest => ?_))
  rw [readOption_hangs]

/-- **A turn hangs exactly when a line that it throws away does not end.** -/
theorem next_hangs (h : Linked b.ledger) : Hangs (b.next w) ↔ ¬ b.LinesEnd w := by
  have hturn : Hangs (b.next w) ↔ Hangs (b.command w) ∨
      ∃ command rest, b.command w = .ok (command, rest) ∧
        ¬ command.TypingEnds (w.callocNode b.turn) rest := by
    simp only [hangs_iff_stops, next_stops, ← perform_hangs h b.turn]
  rw [hturn]
  constructor
  · rintro (hread | ⟨command, rest, hread, htyping⟩) hends
    · cases hinp : b.input with
      | nil =>
        rw [Book.command, hinp] at hread
        exact hread.of_ok
      | cons c inp =>
        rw [command_hangs hinp] at hread
        rcases hread with hline | ⟨rest, hclear, hdigit, hchosen⟩
        · exact hline (hends.command c inp hinp)
        · exact hchosen (hends.option c inp rest hinp hclear hdigit)
    · exact htyping (hends.typing command rest hread)
  · intro hno
    by_contra hnone
    rw [not_or] at hnone
    refine hno ⟨fun c rest hinp => ?_, fun c rest rest' hinp hclear hdigit => ?_,
      fun command rest hread => ?_⟩
    · by_contra hline
      exact hnone.1 ((command_hangs hinp).mpr (.inl hline))
    · by_contra hchosen
      exact hnone.1 ((command_hangs hinp).mpr (.inr ⟨rest', hclear, hdigit, hchosen⟩))
    · by_contra htyping
      exact hnone.2 ⟨command, rest, hread, htyping⟩

/-- **The address book does not hang exactly when in each of its turns the lines end that are thrown
    away.** -/
theorem book_ends_iff (w : World) (inp : List UInt8) :
    ¬ Hangs (addressBook w inp) ↔ ∀ b, Reached w inp b → b.LinesEnd w := by
  have hends := book_stops (E := (· = .hang)) w inp
  simp only [← hangs_iff_stops] at hends
  rw [hends]
  exact forall₂_congr fun b hreached => not_iff_comm.mp (next_hangs hreached.linked).symm

end TaskLedger
end Labs
