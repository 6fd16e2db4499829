import Labs.TaskLedger.EndOfInput
import Labs.TaskLedger.Records

/-!
# Where the address book leaves its memory

A turn that does not wait for ever can still end at an access that is undefined, and then the program
is not known to come to its end. For each function it is said when that happens, as a condition on
what the function finds, beside the condition for waiting of `EndOfInput`.

* A line that is typed for an entry is longer than what is left of the entry (`EntryFits`).
* The walk of `add` takes more steps than there are nodes, since `entry_total` is no count of them
  (`WalkFits`). `constructor` has left it as `malloc` found it.
* `remove_by` has freed a node behind another one and goes on at it (`RemoveSound`).
* `load_from` reads or writes beside `tokens`, `buf` or `entry` (`LoadFits`).

Each condition is exact. So the book returns exactly when in each of its turns the lines end and the
memory is not left (`book_returns_iff`).

## One condition for each access

A stop is an access that has no meaning in C: `NULL` is followed, a freed node is read, bytes are
copied beside an array. Each function of the model says where it stops, so the conditions here are
computed from the outside in: a call stops where one of its accesses does, with what it has found by
then.

That it is exact both ways is a matter of order. A function that hangs before it comes to its bad
access does not fault, and one that returns before it does not either. So each lemma is about the
first thing that goes wrong: `KeyFits` is asked before the list is walked, and the walk of `add`
only where an entry has been obtained. `Lib.Calls` has the rules for a sequence of calls.

`Linked` is the only thing assumed of the ledger, and it holds in every turn that is reached,
whatever the counter says. So the conditions are about the input, the answers of the system and the
nodes, and no longer about how the ledger came to be as it is.
-/

namespace Labs
namespace TaskLedger

open Lib

variable {w : World} {L : Ledger} {inp : List UInt8} {e : Priv} {off size : Nat}
  {buf : List UInt8} {ts : List Tok} {b : Book}

/-! ## 1. Where a turn stays in its memory -/

/-- What is typed fits, and if an entry is obtained so does the walk. -/
structure AddFits (L : Ledger) (pos : Pos) (inp : List UInt8) : Prop where
  lines : EntryFits inp
  walk : ∀ e rest, Obtains true none inp e rest → WalkFits L pos

/-- The document fits, if there is one. -/
def LoadFits (jsmn : List UInt8 → Parsed) (file : FileAnswers) : Prop :=
  ∀ filesize fd data, file.Reads filesize fd data → 1 ≤ (parsedOf jsmn filesize data).ret →
    DocumentFits file.callocNode (bufOf filesize data) (parsedOf jsmn filesize data).tokens

def Command.Fits (w : World) (turn : Nat) (L : Ledger) (inp : List UInt8) : Command → Prop
  | .add pos => w.callocNode turn = true → AddFits L pos inp
  | .removeBy opt => RemoveSound L opt inp
  | .findBy opt => KeyFits opt inp
  | .loadFrom filename => LoadFits w.jsmn (w.answers turn filename)
  | .noFilename | .display | .nothing | .leave => True

/-- This turn stays in its memory. -/
def Book.Fits (w : World) (b : Book) : Prop :=
  ∀ command rest, b.command w = .ok (command, rest) →
    command.Fits w b.turn b.ledger rest

/-! ## 2. Typing -/

theorem put_faults {bs : List UInt8} (h : ¬ off + bs.length ≤ sizeofPriv) :
    Faults (put e off bs) := by
  refine ⟨.outOfBounds, by decide, ?_⟩
  have hwrite : e.write off bs = none := dif_neg h
  rw [put, hwrite]

/-- The age is stored inside the entry, whatever is typed for it. -/
theorem processParam_faults {dataType : TYPE} (hage : dataType = .INT → off + 4 ≤ sizeofPriv) :
    Faults (processParam e off size dataType inp) ↔ ¬ ParamFits off size dataType inp := by
  refine ⟨fun h hfits => (processParam_ends hfits).not_faults h, fun hno => ?_⟩
  cases dataType with
  | STRING =>
    rw [ParamFits] at hno
    push Not at hno
    obtain ⟨line, rest, hline, hlong⟩ := hno
    rw [processParam, hline]
    refine stops_bind.mpr (.inl (put_faults ?_))
    rw [List.length_append, List.length_singleton]
    omega
  | INT => exact absurd (hage rfl) hno
  | BYTE | POINTER | PRIV => exact absurd trivial hno

theorem processParams_faults {fs : List (Field × TYPE)}
    (hages : ∀ ft ∈ fs, ft.2 = .INT → ft.1.offset + 4 ≤ sizeofPriv) :
    Faults (processParams fs e inp) ↔ ¬ ParamsFit fs e inp := by
  refine ⟨fun h hfits => (processParams_ends hfits).not_faults h, fun hno => ?_⟩
  induction fs generalizing e inp with
  | nil => exact absurd trivial hno
  | cons ft fs ih =>
    obtain ⟨f, t⟩ := ft
    obtain ⟨hage, hages⟩ := List.forall_mem_cons.mp hages
    rw [ParamsFit, not_and_or] at hno
    rcases hno with hparam | hrest
    · exact stops_bind.mpr (.inl ((processParam_faults hage).mpr hparam))
    · push Not at hrest
      obtain ⟨e', rest, hparam, hno⟩ := hrest
      rw [processParams, bind_of_ok hparam]
      exact ih hages hno

theorem processEntry_faults : Faults (processEntry (.zero _) .PRIV inp) ↔ ¬ EntryFits inp :=
  processParams_faults (by decide)

theorem readKey_faults {opt : Opt} {f : Field} (hf : opt.field = some f) :
    Faults (readKey opt f inp) ↔ ¬ KeyFits opt inp := by
  refine ⟨fun h hfits => ((readKey_ends hf hfits).not_faults h), fun hno => ?_⟩
  rw [KeyFits, Classical.not_imp] at hno
  obtain ⟨rfl, hno⟩ := hno
  exact processEntry_faults.mpr hno

/-! ## 3. The calls -/

theorem insert_faults (h : Linked L) (e : Priv) (pos : Pos) :
    Faults (insert L e pos) ↔ ¬ WalkFits L pos := by
  rcases insert_cases h e pos with ⟨hfits, L', hok, -⟩ | ⟨hno, herror⟩
  · rw [hok]
    exact ⟨fun h => h.of_ok.elim, fun h => absurd hfits h⟩
  · rw [herror]
    exact ⟨fun _ => hno, fun _ => ⟨.nullDeref, by decide, rfl⟩⟩

theorem add_faults (h : Linked L) (callocOk : Bool) (pos : Pos) :
    Faults (add callocOk L none pos inp) ↔ ¬ (callocOk = true → AddFits L pos inp) := by
  cases callocOk with
  | false => exact ⟨fun h => h.of_ok.elim, fun h => absurd (fun hno => by cases hno) h⟩
  | true =>
    rw [forall_prop_of_true rfl]
    constructor
    · rintro hfaults ⟨hlines, hwalk⟩
      rcases stops_bind.mp hfaults with hentry | ⟨⟨r, e, rest⟩, hentry, hstops⟩
      · exact processEntry_faults.mp hentry hlines
      · have hrest : Faults (if r = ERR then .ok (ERR, L, rest)
            else if unnamed e then .ok (ERR, L, rest)
            else insert L e pos >>= fun L' => .ok (OK, L', rest)) := hstops
        have hret : r = OK ∨ r = ERR := (processEntry_ends hlines).of_eq_ok hentry
        by_cases hr : r = ERR
        · rw [if_pos hr] at hrest
          exact hrest.of_ok
        · rw [if_neg hr] at hrest
          have hok : r = OK := hret.resolve_right hr
          subst hok
          split at hrest
          · exact hrest.of_ok
          · rename_i hnamed
            have ho : Obtains true none inp e rest :=
              ⟨rfl, hentry, Bool.eq_false_of_not_eq_true hnamed⟩
            have hinsert := (stops_bind_left fun _ => Stops.of_ok).mp hrest
            exact (insert_faults h e pos).mp hinsert (hwalk e rest ho)
    · intro hno
      by_cases hlines : EntryFits inp
      · have hwalk : ¬ ∀ e rest, Obtains true none inp e rest → WalkFits L pos :=
          fun hwalk => hno ⟨hlines, hwalk⟩
        push Not at hwalk
        obtain ⟨e, rest, ho, hwalk⟩ := hwalk
        rw [add_of_obtains ho]
        exact stops_bind.mpr (.inl ((insert_faults h e pos).mpr hwalk))
      · exact stops_bind.mpr (.inl (processEntry_faults.mpr hlines))

theorem removeBy_faults (h : Linked L) (opt : Opt) :
    Faults (removeBy L opt inp) ↔ ¬ RemoveSound L opt inp := by
  obtain ⟨xs, hc⟩ := h
  cases hf : opt.field with
  | none =>
    rw [removeBy, hf]
    refine ⟨fun h => h.of_ok.elim, fun hno => absurd ⟨?_, ?_⟩ hno⟩
    · rintro rfl
      cases hf
    · exact fun hopt => absurd hf hopt.1
  | some f =>
    constructor
    · rintro hfaults ⟨hlines, hfirst⟩
      have hends := readKey_ends hf hlines
      cases hread : readKey opt f inp with
      | error s =>
        rw [removeBy_of_stop hf hread] at hfaults
        rw [hread] at hends
        obtain ⟨s', hne, hs⟩ := hfaults
        cases hs
        exact hne hends
      | ok r =>
        obtain ⟨r, key, rest⟩ := r
        rcases hends.of_eq_ok hread with hr | hr
        · have hr : r = OK := hr
          subst hr
          rw [removeBy_of_key hf hread] at hfaults
          have hloop := (stops_bind_left fun _ => Stops.of_ok).mp hfaults
          rcases removeLoop_cases (cmp key · f) opt.unique hc with
            ⟨-, L', hrun⟩ | ⟨⟨hunique, hno⟩, -⟩
          · rw [hrun] at hloop
            exact hloop.of_ok
          · exact hno (hfirst ⟨by simp [hf], hunique⟩ xs hc f key rest hf hread)
        · have hr : r = ERR := hr
          subst hr
          rw [removeBy_of_err hf hread] at hfaults
          exact hfaults.of_ok
    · intro hno
      by_cases hlines : KeyFits opt inp
      · have hfirst : ¬ ∀ _ : NonUnique opt, _ := fun hfirst => hno ⟨hlines, hfirst⟩
        push Not at hfirst
        obtain ⟨hopt, ys, hys, f', key, rest, hf', hread, hnot⟩ := hfirst
        cases hc.unique hys
        cases hf.symm.trans hf'
        rw [removeBy_of_key hf hread]
        rcases removeLoop_cases (cmp key · f) opt.unique hc with ⟨hfirst, -⟩ | ⟨-, hrun⟩
        · exact absurd ⟨hopt.2, hnot⟩ hfirst
        · exact stops_bind.mpr (.inl ⟨.useAfterFree, by decide, hrun⟩)
      · rw [removeBy, hf]
        exact stops_bind.mpr (.inl ((readKey_faults hf).mpr hlines))

theorem findBy_faults (h : Linked L) (opt : Opt) :
    Faults (findBy L opt inp) ↔ ¬ KeyFits opt inp := by
  unfold findBy
  split
  · rename_i hf
    refine ⟨fun h => h.of_ok.elim, fun hno => absurd ?_ hno⟩
    rintro rfl
    cases hf
  · rename_i f hf
    rw [← readKey_faults hf]
    refine stops_bind_left ?_
    rintro ⟨r, key, rest⟩ hrest
    have hrest : Faults (if r = ERR then _ else _) := hrest
    split at hrest
    · exact hrest.of_ok
    · obtain ⟨xs, hc⟩ := h
      rw [bind_of_ok (findLoop_spec _ _ hc (Nat.lt_succ_of_le hc.length_le_brk))] at hrest
      exact hrest.of_ok

/-! ## 4. `load_from` -/

theorem tokenAt_faults {i : Nat} (h : ¬ i < MAX_TOKENS) : Faults (tokenAt ts i) :=
  ⟨.outOfBounds, by decide, if_neg h⟩

theorem loadValue_faults (entry : Priv) (t : Tok) :
    Faults (loadValue buf entry t) ↔ ¬ ValueFits buf entry t := by
  refine ⟨fun h hfits => (loadValue_ends hfits).not_stops (fun _ => False.elim) h, fun hno => ?_⟩
  unfold ValueFits at hno
  unfold loadValue
  split at hno
  · rename_i f ht hf
    by_cases hstop : t.stop ≤ buf.length
    · have htext : textOf buf t = .ok ((buf.drop t.start).take (t.stop - t.start)) :=
        if_pos hstop
      have hlong : ¬ f.offset + (t.stop - t.start) ≤ sizeofPriv := fun h => hno ⟨hstop, h⟩
      have hordered := t.ordered
      have hne : t.start ≠ t.stop := by
        intro heq
        have hfield := nil_fits hf
        omega
      show Faults (textOf buf t >>= _)
      rw [bind_of_ok htext, if_neg hne]
      refine stops_bind.mpr (.inl (put_faults ?_))
      rw [List.length_take, List.length_drop]
      omega
    · exact stops_bind.mpr (.inl ⟨.outOfBounds, by decide, if_neg hstop⟩)
  · exact stops_bind.mpr (.inl ⟨.outOfBounds, by decide, if_neg hno⟩)
  · exact absurd trivial hno

theorem loadPairs_faults (n i : Nat) (entry : Priv) :
    Faults (loadPairs buf ts n i entry) ↔ ¬ PairsFit buf ts n i entry := by
  refine ⟨fun h hfits => (loadPairs_ends hfits).not_stops (fun _ => False.elim) h, fun hno => ?_⟩
  induction n generalizing i entry with
  | zero => exact absurd trivial hno
  | succ n ih =>
    by_cases hi : i < MAX_TOKENS
    · rw [loadPairs, bind_of_ok (tokenAt_of_lt hi)]
      have hpair : ¬ ((ts.getD i .zero).IsKey → _) := fun hpair => hno ⟨hi, hpair⟩
      rw [Classical.not_imp] at hpair
      obtain ⟨hkey, hvalue⟩ := hpair
      have hkey : (ts.getD i .zero).type = .JSMN_STRING ∧ (ts.getD i .zero).size ≠ 0 := hkey
      rw [if_pos hkey]
      by_cases hnext : i + 1 < MAX_TOKENS
      · rw [bind_of_ok (tokenAt_of_lt hnext)]
        by_cases hfits : ValueFits buf entry (ts.getD (i + 1) .zero)
        · obtain ⟨entry', hrest⟩ := not_forall.mp fun hrest => hvalue ⟨hnext, hfits, hrest⟩
          obtain ⟨hload, hrest⟩ := Classical.not_imp.mp hrest
          rw [bind_of_ok hload]
          exact ih (i + 2) entry' hrest
        · exact stops_bind.mpr (.inl ((loadValue_faults entry _).mpr hfits))
      · exact stops_bind.mpr (.inl (tokenAt_faults hnext))
    · exact stops_bind.mpr (.inl (tokenAt_faults hi))

theorem loadRecords_faults (callocNode : Nat → Bool) (m i : Nat) (L : Ledger) :
    Faults (loadRecords callocNode buf ts m i L) ↔ ¬ RecordsFit callocNode buf ts m i := by
  induction m generalizing i L with
  | zero => exact ⟨fun h => h.of_ok.elim, fun h => absurd trivial h⟩
  | succ m ih =>
    by_cases hi : i < MAX_TOKENS
    · rw [loadRecords, bind_of_ok (tokenAt_of_lt hi), RecordsFit, and_iff_right hi]
      by_cases ht : (ts.getD i .zero).type = .JSMN_OBJECT
      · rw [if_neg (not_not.mpr ht), forall_prop_of_true ht]
        constructor
        · rintro hfaults ⟨hpairs, hnext⟩
          rcases stops_bind.mp hfaults with hload | ⟨r, hload, hrest⟩
          · exact (loadPairs_faults _ _ _).mp hload hpairs
          · cases r with
            | none => exact hrest.of_ok
            | some je =>
              obtain ⟨j, entry⟩ := je
              have hrest : Faults (add (callocNode m) L (some entry) .BEGIN [] >>= fun r =>
                  if r.1 = ERR then .ok (false, r.2.1)
                  else loadRecords callocNode buf ts m j r.2.1) := hrest
              by_cases hadd : callocNode m = true ∧ unnamed entry = false
              · rw [bind_of_ok (add_given L hadd.1 hadd.2)] at hrest
                exact (ih j _).mp hrest (hnext j entry hload hadd.1 hadd.2)
              · have hrefused : callocNode m = false ∨ unnamed entry = true := by
                  simpa only [not_and_or, Bool.not_eq_true, Bool.not_eq_false] using hadd
                rw [bind_of_ok (add_given_refused L hrefused)] at hrest
                exact hrest.of_ok
        · intro hno
          by_cases hpairs : PairsFit buf ts (ts.getD i .zero).size (i + 1) (.zero _)
          · obtain ⟨j, hnext⟩ := not_forall.mp fun hnext => hno ⟨hpairs, hnext⟩
            push Not at hnext
            obtain ⟨entry, hload, hcalloc, hnamed, hnext⟩ := hnext
            rw [bind_of_ok hload]
            show Faults (add (callocNode m) L (some entry) .BEGIN [] >>= _)
            rw [bind_of_ok (add_given L hcalloc hnamed)]
            exact (ih j _).mpr hnext
          · exact stops_bind.mpr (.inl ((loadPairs_faults _ _ _).mpr hpairs))
      · rw [if_pos ht]
        exact ⟨fun h => h.of_ok.elim, fun h => absurd (fun hno => absurd hno ht) h⟩
    · exact ⟨fun _ h => hi h.1, fun _ => stops_bind.mpr (.inl (tokenAt_faults hi))⟩

theorem isEmployees_faults {t : Tok} (h : ¬ KeyInBuf buf t) :
    Faults (textOf buf t >>= isEmployees) := by
  by_cases hstop : t.stop ≤ buf.length
  · have htext : textOf buf t = .ok ((buf.drop t.start).take (t.stop - t.start)) := if_pos hstop
    have hlong := not_and.mp h hstop
    rw [Classical.not_imp, not_le] at hlong
    obtain ⟨heq, hlong⟩ := hlong
    have hordered := t.ordered
    have hlength : ((buf.drop t.start).take (t.stop - t.start)).length = t.stop - t.start := by
      rw [List.length_take, List.length_drop]
      omega
    rw [bind_of_ok htext, isEmployees, hlength, if_neg (not_le.mpr hlong),
      if_pos (beq_iff_eq.mpr heq)]
    exact ⟨.outOfBounds, by decide, rfl⟩
  · exact stops_bind.mpr (.inl ⟨.outOfBounds, by decide, if_neg hstop⟩)

theorem loadDocument_faults (callocNode : Nat → Bool) (L : Ledger) :
    Faults (loadDocument callocNode buf ts L) ↔ ¬ DocumentFits callocNode buf ts := by
  rw [loadDocument, bind_of_ok (tokenAt_of_lt (by decide))]
  by_cases hobject : (ts.getD 0 .zero).type = .JSMN_OBJECT
  · rw [if_neg (not_not.mpr hobject), bind_of_ok (tokenAt_of_lt (by decide)), DocumentFits,
      forall_prop_of_true hobject, ← bind_assoc]
    by_cases hkey : KeyInBuf buf (ts.getD 1 .zero)
    · rw [and_iff_right hkey]
      have hcmp := isEmployees_ends hkey
      cases hfound : textOf buf (ts.getD 1 .zero) >>= isEmployees with
      | error s =>
        rw [hfound] at hcmp
        exact hcmp.elim
      | ok found =>
        cases found with
        | false =>
          exact ⟨fun h => h.of_ok.elim, fun hno => absurd (fun h => by cases h) hno⟩
        | true =>
          have htrue : (.ok true : Except Stop Bool) = .ok true := rfl
          rw [bind_of_ok htrue, if_neg (by decide), bind_of_ok (tokenAt_of_lt (by decide)),
            forall_prop_of_true rfl]
          by_cases harray : (ts.getD 2 .zero).type = .JSMN_ARRAY
          · rw [if_neg (not_not.mpr harray), forall_prop_of_true harray]
            exact loadRecords_faults callocNode _ _ L
          · rw [if_pos harray]
            exact ⟨fun h => h.of_ok.elim, fun hno => absurd (fun h => absurd h harray) hno⟩
    · refine ⟨fun _ h => hkey h.1, fun _ => stops_bind.mpr (.inl ?_)⟩
      exact isEmployees_faults hkey
  · rw [if_pos hobject]
    exact ⟨fun h => h.of_ok.elim, fun hno => absurd (fun h => absurd h hobject) hno⟩

theorem loadFrom_faults (jsmn : List UInt8 → Parsed) (file : FileAnswers) (L : Ledger) :
    Faults (loadFrom jsmn file L) ↔ ¬ LoadFits jsmn file := by
  have hnever (hno : ∀ filesize fd data, ¬ file.Reads filesize fd data) : LoadFits jsmn file :=
    fun filesize fd data hreads _ => absurd hreads (hno filesize fd data)
  rcases loadFrom_cases jsmn file L with
    ⟨hno, fds, hload⟩ | ⟨-, hno, fds, hload⟩ | ⟨filesize, fd, data, hreads, hload⟩
  · rw [hload]
    exact ⟨fun h => h.of_ok.elim,
      fun h => absurd (hnever fun _ _ _ hreads => hreads.readable hno) h⟩
  · rw [hload]
    exact ⟨fun h => h.of_ok.elim, fun h => absurd (hnever hno) h⟩
  · have hfits : LoadFits jsmn file ↔ (1 ≤ (parsedOf jsmn filesize data).ret →
        DocumentFits file.callocNode (bufOf filesize data)
          (parsedOf jsmn filesize data).tokens) := by
      refine ⟨fun h => h filesize fd data hreads, fun h filesize' fd' data' hreads' => ?_⟩
      obtain ⟨rfl, rfl⟩ := hreads.unique hreads'
      exact h
    rw [hload, hfits]
    unfold parseAndLoad
    dsimp only
    by_cases hret : (parsedOf jsmn filesize data).ret < 1
    · have hret' : (jsmn ((bufOf filesize data).take filesize.toNat)).ret < 1 := hret
      rw [if_pos hret']
      exact ⟨fun h => h.of_ok.elim, fun h => absurd (fun h' => absurd hret (not_lt.mpr h')) h⟩
    · have hret' : ¬ (jsmn ((bufOf filesize data).take filesize.toNat)).ret < 1 := hret
      rw [if_neg hret', forall_prop_of_true (not_lt.mp hret)]
      refine (stops_bind_left ?_).trans (loadDocument_faults _ L)
      rintro ⟨ok, L'⟩ h
      cases ok with
      | true => exact h.of_ok
      | false => exact h.of_ok

/-! ## 5. Turns, and the book -/

theorem perform_faults (h : Linked L) (turn : Nat) (command : Command) :
    Faults (perform w turn L inp command) ↔ ¬ command.Fits w turn L inp := by
  cases command with
  | add pos => exact add_faults h (w.callocNode turn) pos
  | removeBy opt => exact removeBy_faults h opt
  | findBy opt => exact (stops_bind_left fun _ => Stops.of_ok).trans (findBy_faults h opt)
  | loadFrom filename =>
    exact (stops_bind_left fun _ => Stops.of_ok).trans (loadFrom_faults _ _ L)
  | display =>
    obtain ⟨xs, hc⟩ := h
    have hwalk := findLoop_spec false (fun _ => true) hc (Nat.lt_succ_of_le hc.length_le_brk)
    refine ⟨fun hfaults => ?_, fun hno => absurd trivial hno⟩
    rw [perform, display, bind_of_ok hwalk] at hfaults
    exact hfaults.of_ok.elim
  | noFilename | nothing | leave => exact ⟨fun h => h.of_ok.elim, fun h => absurd trivial h⟩

theorem clearBehind_not_faults (c : UInt8) : ¬ Faults (clearBehind c inp) := by
  unfold clearBehind
  split
  · exact Stops.of_ok
  · split
    · exact Hangs.not_faults rfl
    · exact Stops.of_ok

theorem readCommand_not_faults (fails : Bool) (inp : List UInt8) :
    ¬ Faults (readCommand fails inp) := by
  cases inp with
  | nil => exact Stops.of_ok
  | cons c inp =>
    refine not_stops_bind (clearBehind_not_faults c) fun rest _ => ?_
    have hdecide : ¬ Faults (decideOption rest) := by
      cases rest with
      | nil => exact Hangs.not_faults rfl
      | cons c rest =>
        exact not_stops_bind (clearBehind_not_faults c) fun _ _ => Stops.of_ok
    unfold readOption
    split
    case h_1 | h_2 | h_3 => exact not_stops_bind hdecide fun _ _ => Stops.of_ok
    all_goals exact Stops.of_ok

/-- **A turn faults exactly when it does not stay in its memory.** -/
theorem next_faults (h : Linked b.ledger) : Faults (b.next w) ↔ ¬ b.Fits w := by
  have hfits : ¬ b.Fits w ↔ ∃ command rest, b.command w = .ok (command, rest) ∧
      Faults (perform w b.turn b.ledger rest command) := by
    simp only [Book.Fits, not_forall, exists_prop, perform_faults h b.turn]
  rw [hfits]
  refine next_stops.trans ⟨fun hstops => ?_, .inr⟩
  exact hstops.resolve_left (readCommand_not_faults _ b.input)

/-- **The address book returns exactly when in each of its turns the lines end that are thrown away,
    and the memory is not left.** -/
theorem book_returns_iff (w : World) (inp : List UInt8) :
    (∃ status, addressBook w inp = .ok status) ↔
      ∀ b, Reached w inp b → b.LinesEnd w ∧ b.Fits w := by
  have hfaults : ¬ Faults (addressBook w inp) ↔ ∀ b, Reached w inp b → b.Fits w :=
    (book_stops w inp).trans (forall₂_congr fun b hreached =>
      not_iff_comm.mp (next_faults hreached.linked).symm)
  rw [ok_iff_not_stops, book_ends_iff, hfaults]
  constructor
  · rintro ⟨hends, hfits⟩ b hreached
    exact ⟨hends b hreached, hfits b hreached⟩
  · intro h
    exact ⟨fun b hreached => (h b hreached).1, fun b hreached => (h b hreached).2⟩

end TaskLedger
end Labs
