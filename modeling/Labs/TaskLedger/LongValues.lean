import Labs.TaskLedger.Grammar
import Labs.TaskLedger.Inside

/-!
# Values of any length

Every string of a document is to end up whole, and with a terminator, in a field of the entry that
is made of its record, or else the document is refused; and it is to change nothing else
(`ValuesContained`). Two things stand in the way.

* A value is copied as long as it is. A value that is shorter than the field that is next stays
  in it (`contained_iff`); all others run over. `PairsShort` goes through a record and asks this
  of every value that the loader comes to, and `ElementsShort` through the array. What field is
  next is in the `Fill`, so this is said of the document alone.
* The loader leaves the array at the first element that is no object, and looks at nothing beside
  the array, but returns `OK`. A string that stands there is neither stored nor refused. In a document
  that passes, then, every string has to stand in one of the records before that element (`InRecord`).

`Meets` is the loop over the pairs as far as its values are concerned: it comes to the value `t`
with the entry `e`. The result is that the two conditions, together `TextsFit`, are all that is
needed (`values_contained_iff`).

## How the two halves fit

`Contained` is about one value in the entry as it is when the loader comes to it; `Stored` is about
the entry that is added in the end. Between the two lie the other values of the record. They leave
the field alone if they are contained themselves, so the whole record is needed at once: an
invariant of the loop says of the entry that it has the texts so far, each in a field of its own
(`loadPairs_carries`), and that the entries that are added are those of the records in front of the
first element that is no object (`loaded_zip`).

Backwards, the condition is read off one value at a time. If some value is too long, take the first
one of its record: up to it the entry is as the `Fill` says, so it runs over, and it is met. If some
string stands where the loader does not look, a document that passes returns `OK` without it.

What stands behind the value at which a document is refused is of no importance. So `PairsShort`
goes on behind a value only if that is taken, `ElementsShort` behind a record only if that passes,
and `read` is asked of documents that pass.
-/

namespace Labs
namespace TaskLedger

open Lib

variable {buf : List UInt8} {ts : List Tok} {t key : Tok} {e e' e₁ : Priv} {s : Fill} {f g : Field}
  {n i j m : Nat}

/-! ## 1. The values that the loader comes to -/

/-- Of the next `n` pairs from token `i` on, with `e₀` in the entry, the loop comes to the value
    `t`, and finds `e` in the entry. -/
inductive Meets (buf : List UInt8) (ts : List Tok) : Nat → Nat → Priv → Priv → Tok → Prop
  | here {n i : Nat} {key t : Tok} {e : Priv} (hkey : tokenAt ts i = .ok key)
      (hpair : key.type = .JSMN_STRING ∧ key.size ≠ 0) (ht : tokenAt ts (i + 1) = .ok t) :
      Meets buf ts (n + 1) i e e t
  | later {n i : Nat} {key v t : Tok} {e₀ e₁ e : Priv} (hkey : tokenAt ts i = .ok key)
      (hpair : key.type = .JSMN_STRING ∧ key.size ≠ 0) (hv : tokenAt ts (i + 1) = .ok v)
      (hload : loadValue buf e₀ v = .ok (some e₁)) (hrest : Meets buf ts n (i + 2) e₁ e t) :
      Meets buf ts (n + 1) i e₀ e t

/-- … and of the next `m` elements of the array. -/
inductive MeetsIn (callocNode : Nat → Bool) (buf : List UInt8) (ts : List Tok) :
    Nat → Nat → Priv → Tok → Prop
  | here {m i : Nat} {r t : Tok} {e : Priv} (hr : tokenAt ts i = .ok r)
      (hobject : r.type = .JSMN_OBJECT) (h : Meets buf ts r.size (i + 1) (.zero _) e t) :
      MeetsIn callocNode buf ts (m + 1) i e t
  | later {m i j : Nat} {r t : Tok} {e₁ e : Priv} (hr : tokenAt ts i = .ok r)
      (hobject : r.type = .JSMN_OBJECT)
      (hpairs : loadPairs buf ts r.size (i + 1) (.zero _) = .ok (some (j, e₁)))
      (hcalloc : callocNode m = true) (hnamed : unnamed e₁ = false)
      (hrest : MeetsIn callocNode buf ts m j e t) : MeetsIn callocNode buf ts (m + 1) i e t

/-- `load_from` comes to the value `t` of the file. -/
def MeetsValue (jsmn : List UInt8 → Parsed) (file : FileAnswers) (buf : List UInt8) (e : Priv)
    (t : Tok) : Prop :=
  ∃ filesize fd data, file.Reads filesize fd data ∧ buf = bufOf filesize data ∧
    1 ≤ (parsedOf jsmn filesize data).ret ∧
    HeadAccepted buf (parsedOf jsmn filesize data).tokens ∧
    MeetsIn file.callocNode buf (parsedOf jsmn filesize data).tokens
      (arraySize (parsedOf jsmn filesize data).tokens) 3 e t

variable {callocNode : Nat → Bool} {e₀ : Priv} {jsmn : List UInt8 → Parsed} {file : FileAnswers}

theorem Meets.token (h : Meets buf ts n i e₀ e t) : ∃ k, tokenAt ts k = .ok t := by
  induction h with
  | here _ _ ht => exact ⟨_, ht⟩
  | later _ _ _ _ _ ih => exact ih

theorem MeetsIn.token (h : MeetsIn callocNode buf ts m i e t) : ∃ k, tokenAt ts k = .ok t := by
  induction h with
  | here _ _ h => exact h.token
  | later _ _ _ _ _ _ ih => exact ih

/-- **However the values run into each other, a field that is not taken has only zeros.** -/
theorem Meets.tidy (h : Meets buf ts n i e₀ e t) (hts : ∀ t ∈ ts, Readable buf t)
    (h₀ : Tidy e₀) : Tidy e := by
  induction h with
  | here => exact h₀
  | later _ _ hv hload _ ih =>
    exact ih ((loadValue_tidy h₀ (readable_tokenAt hts hv)).of_eq_ok hload _ rfl)

theorem MeetsIn.tidy (h : MeetsIn callocNode buf ts m i e t) (hts : ∀ t ∈ ts, Readable buf t) :
    Tidy e := by
  induction h with
  | here _ _ h => exact h.tidy hts tidy_zero
  | later _ _ _ _ _ _ ih => exact ih

/-- A value that the loop stops at refuses its record… -/
theorem Meets.refused (h : Meets buf ts n i e₀ e t) (hload : loadValue buf e t = .ok none) :
    loadPairs buf ts n i e₀ = .ok none := by
  induction h with
  | here hkey hpair ht =>
    rw [loadPairs, bind_of_ok hkey, if_pos hpair, bind_of_ok ht, bind_of_ok hload]
    rfl
  | later hkey hpair hv hload₁ _ ih =>
    rw [loadPairs, bind_of_ok hkey, if_pos hpair, bind_of_ok hv, bind_of_ok hload₁]
    exact ih hload

theorem MeetsIn.refused (h : MeetsIn callocNode buf ts m i e t)
    (hload : loadValue buf e t = .ok none) : ∃ es, Loaded callocNode buf ts m i es false := by
  induction h with
  | here hr hobject h => exact ⟨[], .badPair hr hobject (h.refused hload)⟩
  | later hr hobject hpairs hcalloc hnamed _ ih =>
    obtain ⟨es, hes⟩ := ih hload
    exact ⟨_, .record hr hobject hpairs hcalloc hnamed hes⟩

/-! ## 2. Values that are short enough -/

/-- Of the next `n` pairs, from token `i` on, the texts that the loader comes to are shorter than
    the field that is next. -/
def PairsShort (buf : List UInt8) (ts : List Tok) : Nat → Nat → Fill → Prop
  | 0, _, _ => True
  | n + 1, i, s => i < MAX_TOKENS ∧ ((ts.getD i .zero).IsKey → i + 1 < MAX_TOKENS ∧
      ((ts.getD (i + 1) .zero).type = .JSMN_STRING →
        ∀ f, s.next = some f → (valueOf buf (ts.getD (i + 1) .zero)).length < f.size) ∧
      ∀ s', s.value buf (ts.getD (i + 1) .zero) = some s' → PairsShort buf ts n (i + 2) s')

/-- … and of the next `m` elements. -/
def ElementsShort (callocNode : Nat → Bool) (buf : List UInt8) (ts : List Tok) : Nat → Nat → Prop
  | 0, _ => True
  | m + 1, i => i < MAX_TOKENS ∧ ((ts.getD i .zero).type = .JSMN_OBJECT →
      PairsShort buf ts (ts.getD i .zero).size (i + 1) .empty ∧
        (RecordPasses buf ts i → callocNode m = true →
          ElementsShort callocNode buf ts m (i + 1 + 2 * (ts.getD i .zero).size)))

/-- A string that is no key. -/
def Tok.IsText (t : Tok) : Prop := t.type = .JSMN_STRING ∧ t.size = 0

/-- The token is a value of a record in front of the first element that is no object. -/
def InRecord (ts : List Tok) (t : Tok) : Prop :=
  ∃ r ∈ (elements ts).takeWhile fun r => r.object.type = .JSMN_OBJECT, t ∈ r.pairs.map Prod.snd

/-- The texts that the loader comes to are short enough, and it comes to all of them, unless the
    document is refused. -/
structure TextsFit (callocNode : Nat → Bool) (buf : List UInt8) (ts : List Tok) : Prop where
  short : (ts.getD 0 .zero).type = .JSMN_OBJECT →
    valueOf buf (ts.getD 1 .zero) <+: ascii "Employees" → (ts.getD 2 .zero).type = .JSMN_ARRAY →
      ElementsShort callocNode buf ts (arraySize ts) 3
  read : DocumentPasses callocNode buf ts → ∀ t ∈ ts, t.IsText → InRecord ts t

/-- A value fits into the entry, if it is a string that is contained. -/
theorem valueFits_of_contained (hr : Readable buf t)
    (hin : t.type = .JSMN_PRIMITIVE → t.start < buf.length)
    (h : t.type = .JSMN_STRING → ∀ f, emptyField e = some f → t.stop - t.start < f.size) :
    ValueFits buf e t := by
  unfold ValueFits
  split
  · rename_i f ht hf
    have hshort := h ht f hf
    have hfield := f.inside
    exact ⟨hr.inBuf, by omega⟩
  · rename_i ht
    exact hin ht
  · exact trivial

theorem meets_succ (h : Meets buf ts (n + 1) i e e₁ t) :
    (ts.getD i .zero).IsKey ∧ i + 1 < MAX_TOKENS ∧ (e₁ = e ∧ t = ts.getD (i + 1) .zero ∨
      ∃ e', loadValue buf e (ts.getD (i + 1) .zero) = .ok (some e') ∧
        Meets buf ts n (i + 2) e' e₁ t) := by
  cases h with
  | here hkey hpair ht =>
    rw [getD_of_tokenAt hkey, getD_of_tokenAt ht]
    exact ⟨hpair, lt_of_tokenAt ht, .inl ⟨rfl, rfl⟩⟩
  | later hkey hpair hv hload hrest =>
    rw [getD_of_tokenAt hkey, getD_of_tokenAt hv]
    exact ⟨hpair, lt_of_tokenAt hv, .inr ⟨_, hload, hrest⟩⟩

theorem readable_getD (hts : ∀ t ∈ ts, Readable buf t) (hi : i < MAX_TOKENS) :
    Readable buf (ts.getD i .zero) :=
  readable_tokenAt hts (tokenAt_of_lt hi)

/-- The fill goes along with the entry, which stays tidy. -/
theorem loadValue_step (hr : Readable buf t)
    (hin : t.type = .JSMN_PRIMITIVE → t.start < buf.length) (h : Tracks e s) (hTidy : Tidy e)
    (hload : loadValue buf e t = .ok (some e')) :
    ∃ s', s.value buf t = some s' ∧ Tracks e' s' ∧ Tidy e' := by
  obtain ⟨s', hs', h'⟩ := (loadValue_fill h hr hin).of_eq_ok hload
  exact ⟨s', hs', h', (loadValue_tidy hTidy hr).of_eq_ok hload _ rfl⟩

/-- **The texts of a record are short enough exactly when the loop stays in its memory, and each of
    them is contained.** -/
theorem pairsShort_iff (hts : ∀ t ∈ ts, Readable buf t) (hin : ∀ t ∈ ts, t.start < buf.length)
    (h : Tracks e s) (hTidy : Tidy e) : PairsShort buf ts n i s ↔ PairsFit buf ts n i e ∧
      ∀ e₁ t, Meets buf ts n i e e₁ t → t.type = .JSMN_STRING → Contained buf e₁ t := by
  induction n generalizing i e s with
  | zero => exact iff_of_true trivial ⟨trivial, fun _ _ hmeets => nomatch hmeets⟩
  | succ n ih =>
    have hprimitive : (ts.getD (i + 1) .zero).type = .JSMN_PRIMITIVE → _ :=
      fun ht => hin _ (mem_of_primitive ht)
    constructor
    · rintro ⟨hi, hpair⟩
      refine ⟨⟨hi, fun hkey => ?_⟩, fun e₁ t hmeets ht => ?_⟩
      · obtain ⟨hnext, hshort, hrest⟩ := hpair hkey
        have hr := readable_getD hts hnext
        rw [length_valueOf hr.inBuf, ← h.next] at hshort
        refine ⟨hnext, valueFits_of_contained hr hprimitive hshort, fun e' hload => ?_⟩
        obtain ⟨s', hs', h', hTidy'⟩ := loadValue_step hr hprimitive h hTidy hload
        exact ((ih h' hTidy').mp (hrest s' hs')).1
      · obtain ⟨hkey, hnext, hvalue⟩ := meets_succ hmeets
        obtain ⟨-, hshort, hrest⟩ := hpair hkey
        have hr := readable_getD hts hnext
        rw [length_valueOf hr.inBuf, ← h.next] at hshort
        rcases hvalue with ⟨rfl, rfl⟩ | ⟨e', hload, hmeets⟩
        · exact (contained_iff hTidy hr ht).mpr (hshort ht)
        · obtain ⟨s', hs', h', hTidy'⟩ := loadValue_step hr hprimitive h hTidy hload
          exact ((ih h' hTidy').mp (hrest s' hs')).2 e₁ t hmeets ht
    · rintro ⟨⟨hi, hpair⟩, hcontained⟩
      refine ⟨hi, fun hkey => ?_⟩
      obtain ⟨hnext, hfits, hrest⟩ := hpair hkey
      have hr := readable_getD hts hnext
      have hkeyAt : tokenAt ts i = .ok (ts.getD i .zero) := tokenAt_of_lt hi
      have ht : tokenAt ts (i + 1) = .ok (ts.getD (i + 1) .zero) := tokenAt_of_lt hnext
      refine ⟨hnext, fun hstring => ?_, fun s' hs' => ?_⟩
      · rw [length_valueOf hr.inBuf, ← h.next]
        exact (contained_iff hTidy hr hstring).mp (hcontained _ _ (.here hkeyAt hkey ht) hstring)
      · have hfill := loadValue_fill h hr hprimitive
        rw [hs'] at hfill
        cases hload : loadValue buf e (ts.getD (i + 1) .zero) with
        | error stop =>
          rw [hload] at hfill
          cases hfill
        | ok r =>
          cases r with
          | none =>
            rw [hload] at hfill
            cases hfill
          | some e' =>
            obtain ⟨s₁, hs₁, h', hTidy'⟩ := loadValue_step hr hprimitive h hTidy hload
            cases hs'.symm.trans hs₁
            exact (ih h' hTidy').mpr ⟨hrest e' hload, fun e₁ t hmeets =>
              hcontained e₁ t (.later hkeyAt hkey ht hload hmeets)⟩

theorem meetsIn_succ (h : MeetsIn callocNode buf ts (m + 1) i e t) :
    (ts.getD i .zero).type = .JSMN_OBJECT ∧
      (Meets buf ts (ts.getD i .zero).size (i + 1) (.zero _) e t ∨
        ∃ j e₁, loadPairs buf ts (ts.getD i .zero).size (i + 1) (.zero _) = .ok (some (j, e₁)) ∧
          callocNode m = true ∧ unnamed e₁ = false ∧ MeetsIn callocNode buf ts m j e t) := by
  cases h with
  | here hr hobject h =>
    rw [getD_of_tokenAt hr]
    exact ⟨hobject, .inl h⟩
  | later hr hobject hpairs hcalloc hnamed hrest =>
    rw [getD_of_tokenAt hr]
    exact ⟨hobject, .inr ⟨_, _, hpairs, hcalloc, hnamed, hrest⟩⟩

/-- **… and those of the elements.** -/
theorem elementsShort_iff (hts : ∀ t ∈ ts, Readable buf t) (hin : ∀ t ∈ ts, t.start < buf.length) :
    ElementsShort callocNode buf ts m i ↔ RecordsFit callocNode buf ts m i ∧
      ∀ e t, MeetsIn callocNode buf ts m i e t → t.type = .JSMN_STRING → Contained buf e t := by
  induction m generalizing i with
  | zero => exact iff_of_true trivial ⟨trivial, fun _ _ hmeets => nomatch hmeets⟩
  | succ m ih =>
    constructor
    · rintro ⟨hi, hobject⟩
      refine ⟨⟨hi, fun ht => ?_⟩, fun e t hmeets ht => ?_⟩
      · obtain ⟨hpairs, hrest⟩ := hobject ht
        have hfit := (pairsShort_iff hts hin tracks_zero tidy_zero).mp hpairs
        refine ⟨hfit.1, fun j e hload hcalloc hnamed => ?_⟩
        have hj : j = _ := loadPairs_end hts hin hload
        subst hj
        exact (ih.mp (hrest ((recordPasses_iff hts hin).mpr ⟨e, hload, hnamed⟩) hcalloc)).1
      · obtain ⟨hobject', hin'⟩ := meetsIn_succ hmeets
        obtain ⟨hpairs, hrest⟩ := hobject hobject'
        rcases hin' with hin' | ⟨j, e₁, hload, hcalloc, hnamed, hin'⟩
        · exact ((pairsShort_iff hts hin tracks_zero tidy_zero).mp hpairs).2 e t hin' ht
        · have hj : j = _ := loadPairs_end hts hin hload
          subst hj
          have hpasses := (recordPasses_iff hts hin).mpr ⟨e₁, hload, hnamed⟩
          exact (ih.mp (hrest hpasses hcalloc)).2 e t hin' ht
    · rintro ⟨⟨hi, hobject⟩, hcontained⟩
      refine ⟨hi, fun ht => ?_⟩
      obtain ⟨hpairs, hrest⟩ := hobject ht
      refine ⟨(pairsShort_iff hts hin tracks_zero tidy_zero).mpr ⟨hpairs, fun e t hmeets =>
        hcontained e t (.here (tokenAt_of_lt hi) ht hmeets)⟩, fun hpasses hcalloc => ih.mpr ?_⟩
      obtain ⟨e₁, hload, hnamed⟩ := (recordPasses_iff hts hin).mp hpasses
      exact ⟨hrest _ e₁ hload hcalloc hnamed, fun e t hmeets =>
        hcontained e t (.later (tokenAt_of_lt hi) ht hload hcalloc hnamed hmeets)⟩

/-! ## 3. What is stored -/

/-- A value of a record, contained, leaves the fields that are taken as they are… -/
theorem loadValue_keeps (hcontained : t.type = .JSMN_STRING → Contained buf e t)
    (hload : loadValue buf e t = .ok (some e')) (hg : g ∈ textFields) (htaken : first e g ≠ NUL) :
    e'.read g.offset g.size = e.read g.offset g.size := by
  cases ht : t.type with
  | JSMN_STRING =>
    rcases hcontained ht with hnone | ⟨f, e₁, hf, hsome, -, hbeside⟩
    · cases hload.symm.trans hnone
    · cases hload.symm.trans hsome
      refine hbeside g (List.mem_append_left _ hg) ?_
      rintro rfl
      exact htaken (emptyField_mem hf).2
  | JSMN_PRIMITIVE =>
    have hbefore : ∀ g ∈ textFields, g.offset + g.size ≤ Field.age.offset := by decide
    unfold loadValue at hload
    rw [ht] at hload
    obtain ⟨text, -, hload⟩ := of_bind_eq_ok hload
    obtain ⟨e₁, hscan, hload⟩ := of_bind_eq_ok hload
    have he : e₁ = e' := by
      split at hload
      · cases hload
      · cases hload
        rfl
    subst he
    unfold scanAge at hscan
    split at hscan
    · exact Block.read_write_before (write_of_put hscan) (hbefore g hg)
    · cases hscan
      rfl
  | _ =>
    unfold loadValue at hload
    rw [ht] at hload
    cases hload

/-- … and takes its own. -/
theorem loadValue_takes (hr : Readable buf t) (ht : t.type = .JSMN_STRING)
    (hf : emptyField e = some f) (hload : loadValue buf e t = .ok (some e')) : first e' f ≠ NUL := by
  rw [loadValue_string ht hr.inBuf hf] at hload
  obtain ⟨e₁, hput, hload⟩ := of_bind_eq_ok hload
  cases hload
  exact first_put_text hr.noNul hput

/-- What a record has been loaded into: the fields that were taken are as before, and each of the
    texts is in a field. -/
structure Carries (buf : List UInt8) (values : List Tok) (e e' : Priv) : Prop where
  keeps : ∀ g ∈ textFields, first e g ≠ NUL → e'.read g.offset g.size = e.read g.offset g.size
  texts : ∀ t ∈ values, t.type = .JSMN_STRING → ∃ f ∈ textFields, HasText e' f (valueOf buf t)

theorem loadPairs_carries (hts : ∀ t ∈ ts, Readable buf t)
    (hcontained : ∀ e₁ t, Meets buf ts n i e e₁ t → t.type = .JSMN_STRING → Contained buf e₁ t)
    (h : loadPairs buf ts n i e = .ok (some (j, e'))) :
    Carries buf ((pairsAt ts n i).map Prod.snd) e e' := by
  induction n generalizing i e with
  | zero =>
    cases h
    exact ⟨fun _ _ _ => rfl, fun t ht => absurd ht List.not_mem_nil⟩
  | succ n ih =>
    rw [loadPairs] at h
    obtain ⟨key, hkey, h⟩ := of_bind_eq_ok h
    split at h
    · rename_i hpair
      obtain ⟨value, hvalue, h⟩ := of_bind_eq_ok h
      obtain ⟨r, hload, h⟩ := of_bind_eq_ok h
      cases r with
      | none => cases h
      | some e₁ =>
        have hrest := ih (fun e₂ t hmeets => hcontained e₂ t (.later hkey hpair hvalue hload hmeets)) h
        have hhere := hcontained e value (.here hkey hpair hvalue)
        rw [pairsAt, getD_of_tokenAt hvalue, List.map_cons]
        constructor
        · intro g hg htaken
          have hsame := loadValue_keeps hhere hload hg htaken
          rw [← hsame]
          exact hrest.keeps g hg (first_of_read (size_pos g hg) hsame ▸ htaken)
        · refine List.forall_mem_cons.mpr ⟨fun ht => ?_, hrest.texts⟩
          rcases hhere ht with hnone | ⟨f, e₂, hf, hsome, ⟨rest, hread⟩, -⟩
          · cases hload.symm.trans hnone
          · cases hload.symm.trans hsome
            have hmem := (emptyField_mem hf).1
            have htaken := loadValue_takes (readable_tokenAt hts hvalue) ht hf hload
            exact ⟨f, hmem, rest, (hrest.keeps f hmem htaken).trans hread⟩
    · cases h

variable {es : List Priv}

theorem loaded_carries (hts : ∀ t ∈ ts, Readable buf t)
    (hin : ∀ t ∈ ts, t.start < buf.length)
    (hcontained : ∀ e t, MeetsIn callocNode buf ts m i e t → t.type = .JSMN_STRING →
      Contained buf e t) {ok : Bool} (h : Loaded callocNode buf ts m i es ok) :
    ∀ re ∈ (elementsAt ts m i).zip es, Carries buf (re.1.pairs.map Prod.snd) (.zero _) re.2 := by
  induction h with
  | finished | left | badPair | refused =>
    intro re hre
    rw [List.zip_nil_right] at hre
    exact absurd hre List.not_mem_nil
  | record ht hobject hpairs hcalloc hnamed _ ih =>
    have hj := loadPairs_end hts hin hpairs
    dsimp only at hj
    rw [elementsAt, getD_of_tokenAt ht, ← hj, List.zip_cons_cons]
    refine List.forall_mem_cons.mpr ⟨?_, ih fun e t hmeets =>
      hcontained e t (.later ht hobject hpairs hcalloc hnamed hmeets)⟩
    exact loadPairs_carries hts (fun e t hmeets => hcontained e t (.here ht hobject hmeets)) hpairs

/-- The entries that are added are those of the records in front of the first element that is no
    object. -/
theorem loaded_zip (hts : ∀ t ∈ ts, Readable buf t) (hin : ∀ t ∈ ts, t.start < buf.length)
    {ok : Bool} (h : Loaded callocNode buf ts m i es ok) (hok : ok = true) :
    ((elementsAt ts m i).zip es).map Prod.fst =
      (elementsAt ts m i).takeWhile fun r => r.object.type = .JSMN_OBJECT := by
  induction h with
  | finished => rfl
  | left ht hobject =>
    rw [List.zip_nil_right, elementsAt, getD_of_tokenAt ht, List.takeWhile_cons_of_neg (by simpa)]
    rfl
  | badPair | refused => cases hok
  | record ht hobject hpairs _ _ _ ih =>
    have hj := loadPairs_end hts hin hpairs
    dsimp only at hj
    rw [elementsAt, getD_of_tokenAt ht, ← hj, List.zip_cons_cons, List.map_cons, ih hok,
      List.takeWhile_cons_of_pos (by simpa)]

theorem withRecords_injective {garbage : Int} {es' : List Priv}
    (h : withRecords (initObj garbage) es = withRecords (initObj garbage) es') : es = es' := by
  have hc : Chain (initObj garbage).heap (initObj garbage).head [] none := rfl
  obtain ⟨as, hchain, has⟩ := withRecords_chain hc es
  obtain ⟨as', hchain', has'⟩ := withRecords_chain hc es'
  rw [h] at hchain
  rw [List.append_cancel_right (hchain.unique hchain'), has'] at has
  exact (List.reverse_injective has).symm

/-! ## 4. All the strings of a document -/

/-- The load ends, and does not return `OK`. -/
def Refused (jsmn : List UInt8 → Parsed) (file : FileAnswers) (L : Ledger) : Prop :=
  ∃ ret L' fds, loadFrom jsmn file L = .ok (ret, L', fds) ∧ ret ≠ OK

/-- … and the file with it. -/
theorem MeetsValue.refused (h : MeetsValue jsmn file buf e t)
    (hload : loadValue buf e t = .ok none) (L : Ledger) : Refused jsmn file L := by
  obtain ⟨filesize, fd, data, hreads, rfl, hret, hhead, hmeets⟩ := h
  obtain ⟨es, hes⟩ := hmeets.refused hload
  have hdoc := (loadDocument_of_head hhead file.callocNode L).trans
    ((loadRecords_iff L _).mpr ⟨es, hes, rfl⟩)
  obtain ⟨fd', hfrom⟩ := loadFrom_of_reads hreads jsmn L
  have hrejects : Rejects jsmn file.callocNode filesize data L := .inr ⟨_, hdoc⟩
  obtain ⟨L', fds, hparse⟩ := parseAndLoad_of_rejects fd' hrejects
  refine ⟨_, L', fds, hfrom.trans hparse, ?_⟩
  unfold OK
  omega

/-- The text has been stored whole in the entry that is made of its record. -/
def Stored (buf : List UInt8) (ts : List Tok) (es : List Priv) (t : Tok) : Prop :=
  ∃ re ∈ (elements ts).zip es, t ∈ re.1.pairs.map Prod.snd ∧
    ∃ f ∈ textFields, HasText re.2 f (valueOf buf t)

/-- Every string of the document is stored whole, and changes nothing else, or the document is
    refused.

    * Where `load_from` comes to a string, it ends up in its field, or the document is refused at
      it.
    * No access leaves its memory.
    * If `OK` is returned, every string has been stored. -/
structure ValuesContained (jsmn : List UInt8 → Parsed) (file : FileAnswers) : Prop where
  contained : ∀ buf e t, MeetsValue jsmn file buf e t → t.type = .JSMN_STRING →
    Contained buf e t ∧ (loadValue buf e t = .ok none → ∀ L, Refused jsmn file L)
  inside : ∀ L, ¬ Faults (loadFrom jsmn file L)
  stored : ∀ filesize fd data, file.Reads filesize fd data →
    ∀ L L' fds, loadFrom jsmn file L = .ok (OK, L', fds) → ∃ es, L' = withRecords L es ∧
      ∀ t ∈ (parsedOf jsmn filesize data).tokens, t.IsText →
        Stored (bufOf filesize data) (parsedOf jsmn filesize data).tokens es t

/-- No key runs past the literal it is compared with. -/
theorem keyInBuf_of_readable (hr : Readable buf t) : KeyInBuf buf t := by
  refine ⟨hr.inBuf, fun heq => absurd ?_ hr.noNul⟩
  have hnul : NUL ∈ employees := by decide
  rw [← heq] at hnul
  exact List.mem_of_mem_take hnul

/-- In a document with a proper head no copy of the loader leaves its memory, and each text that it
    comes to is contained. -/
theorem TextsFit.head (h : TextsFit callocNode buf ts) (hts : ∀ t ∈ ts, Readable buf t)
    (hin : ∀ t ∈ ts, t.start < buf.length) (hhead : HeadAccepted buf ts) :
    RecordsFit callocNode buf ts (arraySize ts) 3 ∧
      ∀ e t, MeetsIn callocNode buf ts (arraySize ts) 3 e t → t.type = .JSMN_STRING →
        Contained buf e t := by
  have hkeyAt := readable_getD hts (show 1 < MAX_TOKENS by decide)
  obtain ⟨hobject, hkey, harray⟩ := (headAccepted_iff hkeyAt).mp hhead
  exact (elementsShort_iff hts hin).mp (h.short hobject hkey harray)

/-- Where all records are loaded, every text has been stored. -/
theorem TextsFit.stored {es : List Priv} (h : TextsFit callocNode buf ts)
    (hts : ∀ t ∈ ts, Readable buf t) (hin : ∀ t ∈ ts, t.start < buf.length)
    (hhead : HeadAccepted buf ts) (hes : Loaded callocNode buf ts (arraySize ts) 3 es true)
    (ht : t ∈ ts) (htext : t.IsText) : Stored buf ts es t := by
  have hpasses := (documentPasses_iff hts hin).mpr ⟨hhead, es, hes⟩
  obtain ⟨r, hr, hvalue⟩ := h.read hpasses t ht htext
  rw [elements, ← loaded_zip hts hin hes rfl] at hr
  obtain ⟨re, hre, rfl⟩ := List.mem_map.mp hr
  have hcarries := loaded_carries hts hin (h.head hts hin hhead).2 hes
  exact ⟨re, hre, hvalue, (hcarries re hre).texts t hvalue htext.1⟩

/-- A text that has been stored stands in one of the records. -/
theorem Stored.inRecord {es : List Priv} (h : Stored buf ts es t) (hts : ∀ t ∈ ts, Readable buf t)
    (hin : ∀ t ∈ ts, t.start < buf.length)
    (hes : Loaded callocNode buf ts (arraySize ts) 3 es true) : InRecord ts t := by
  obtain ⟨re, hre, hvalue, -⟩ := h
  refine ⟨re.1, ?_, hvalue⟩
  rw [elements, ← loaded_zip hts hin hes rfl]
  exact List.mem_map_of_mem hre

/-- **The strings of a document are stored whole, or it is refused, exactly when those that the
    loader comes to are shorter than the field that is next, and it comes to all of them.** -/
theorem values_contained_iff (hj : Tokenizer jsmn) (file : FileAnswers) :
    ValuesContained jsmn file ↔ ∀ filesize fd data, file.Reads filesize fd data →
      1 ≤ (parsedOf jsmn filesize data).ret →
        TextsFit file.callocNode (bufOf filesize data) (parsedOf jsmn filesize data).tokens := by
  constructor
  · intro h filesize fd data hreads hret
    have hts := hj.readable hret
    have hin := hj.inside hret
    have hkeyAt := readable_getD hts (show 1 < MAX_TOKENS by decide)
    constructor
    · intro hobject hkey harray
      have hhead := (headAccepted_iff hkeyAt).mpr ⟨hobject, hkey, harray⟩
      have hload := not_not.mp ((not_congr (loadFrom_faults jsmn file (initObj 0))).mp (h.inside _))
      have hfits := (hload filesize fd data hreads hret hobject).2 hhead.key harray
      refine (elementsShort_iff hts hin).mpr ⟨hfits, fun e t hmeets ht => ?_⟩
      exact (h.contained _ e t ⟨filesize, fd, data, hreads, rfl, hret, hhead, hmeets⟩ ht).1
    · intro hpasses t ht htext
      obtain ⟨L', fds, hload⟩ := (loadFrom_ok_iff hj hreads (initObj 0)).mpr (.inr ⟨hret, hpasses⟩)
      obtain ⟨es, hL', hstored⟩ := h.stored filesize fd data hreads _ _ _ hload
      have hok := (loadFrom_ok hreads jsmn (initObj 0) L').mp ⟨fds, hload⟩
      obtain ⟨-, -, es', hes', hL''⟩ := hok.resolve_left fun hzero => by omega
      obtain rfl := withRecords_injective (hL'.symm.trans hL'')
      exact (hstored t ht htext).inRecord hts hin hes'
  · intro h
    constructor
    · rintro buf e t hmeets ht
      refine ⟨?_, fun hload L => hmeets.refused hload L⟩
      obtain ⟨filesize, fd, data, hreads, rfl, hret, hhead, hin⟩ := hmeets
      have hfits := h filesize fd data hreads hret
      exact (hfits.head (hj.readable hret) (hj.inside hret) hhead).2 e t hin ht
    · intro L
      rw [loadFrom_faults, not_not]
      intro filesize fd data hreads hret hobject
      have hts := hj.readable hret
      refine ⟨keyInBuf_of_readable (readable_getD hts (by decide)), fun hkey harray => ?_⟩
      have hfits := h filesize fd data hreads hret
      exact (hfits.head hts (hj.inside hret) ⟨hobject, hkey, harray⟩).1
    · intro filesize fd data hreads L L' fds hload
      rcases (loadFrom_ok hreads jsmn L L').mp ⟨fds, hload⟩ with
        ⟨hzero, rfl⟩ | ⟨hret, hhead, es, hes, rfl⟩
      · refine ⟨[], rfl, fun t ht => ?_⟩
        have hcount : (((parsedOf jsmn filesize data).tokens.length : Nat) : Int) = 0 :=
          (hj.count _ (Int.le_of_eq hzero.symm)).trans hzero
        have hnil := List.length_eq_zero_iff.mp (Int.natCast_eq_zero.mp hcount)
        rw [hnil] at ht
        exact absurd ht List.not_mem_nil
      · have hfits := h filesize fd data hreads hret
        exact ⟨es, rfl, fun t ht htext =>
          hfits.stored (hj.readable hret) (hj.inside hret) hhead hes ht htext⟩

/-- A document of one record, which is loaded, with its text in the name. -/
theorem values_contained_iff_oneRecord :
    ValuesContained (parsing oneRecord oneRecordTokens) (.holding oneRecord 3) ∧
      ∃ L' fds, loadFrom (parsing oneRecord oneRecordTokens) (.holding oneRecord 3) (initObj 0) =
        .ok (OK, L', fds) := by
  have hj := tokenizer_parsing readable_oneRecord
  have hreads : FileAnswers.Reads (.holding oneRecord 3) oneRecord.length 3 oneRecord :=
    ⟨rfl, rfl, by decide +kernel, rfl, rfl, rfl, by decide +kernel⟩
  refine ⟨(values_contained_iff hj _).mpr fun filesize fd data hreads _ => ?_,
    (loadFrom_ok_iff hj hreads _).mpr (.inr ?_)⟩
  · cases hreads.stat
    cases hreads.read
    rw [parsedOf_parsing, (bufOf_text oneRecord).1]
    refine ⟨fun _ _ _ => ⟨by decide, fun _ => ⟨⟨by decide, fun _ => ⟨by decide, ?_, fun _ _ =>
      trivial⟩⟩, fun _ _ => trivial⟩⟩, fun _ t ht htext => ?_⟩
    · intro _ f hf
      cases hf
      decide +kernel
    · have hkeys : ∀ t ∈ oneRecordTokens.take 5, ¬ (t.type = .JSMN_STRING ∧ t.size = 0) := by decide
      rcases List.mem_append.mp (show t ∈ oneRecordTokens.take 5 ++ [_] from ht) with hkey | hlast
      · exact absurd htext (hkeys t hkey)
      · rw [List.mem_singleton.mp hlast]
        exact ⟨_, List.mem_cons_self, List.mem_cons_self⟩
  · rw [parsedOf_parsing, (bufOf_text oneRecord).1]
    refine ⟨by decide, rfl, by decide +kernel, rfl, by decide, fun _ => ⟨⟨_, rfl, ?_⟩, rfl, trivial⟩⟩
    exact .inl (by decide +kernel)

/-! A record with a name of seventy letters, which runs into the middle name, and one that stands
behind a number. -/

def longName : List UInt8 :=
  ascii "\x7b\"Employees\":[\x7b\"Name\":\"" ++ List.replicate 70 120 ++ ascii "\"\x7d]\x7d"

def longNameTokens : List Tok :=
  [tok .JSMN_OBJECT 0 97 1, tok .JSMN_STRING 2 9 1, tok .JSMN_ARRAY 13 83 1,
    tok .JSMN_OBJECT 14 81 1, tok .JSMN_STRING 16 4 1, tok .JSMN_STRING 23 70 0]

def behind : List UInt8 := ascii "\x7b\"Employees\":[1,\x7b\"Name\":\"A\"\x7d]\x7d"

def behindTokens : List Tok :=
  [tok .JSMN_OBJECT 0 30 1, tok .JSMN_STRING 2 9 1, tok .JSMN_ARRAY 13 16 2,
    tok .JSMN_PRIMITIVE 14 1 0, tok .JSMN_OBJECT 16 12 1, tok .JSMN_STRING 18 4 1,
    tok .JSMN_STRING 25 1 0]

theorem long_name_runs_over :
    ¬ ValuesContained (parsing longName longNameTokens) (.holding longName 3) ∧
      ¬ ValuesContained (parsing behind behindTokens) (.holding behind 3) := by
  refine ⟨fun h => ?_, fun h => ?_⟩
  · have hbuf := (bufOf_text longName).1
    have hreads : FileAnswers.Reads (.holding longName 3) longName.length 3 longName :=
      ⟨rfl, rfl, by decide +kernel, rfl, rfl, rfl, by decide +kernel⟩
    have hmeets : MeetsValue (parsing longName longNameTokens) (.holding longName 3)
        (bufOf longName.length longName) (.zero _) (tok .JSMN_STRING 23 70 0) := by
      refine ⟨longName.length, 3, longName, hreads, rfl, ?_⟩
      rw [parsedOf_parsing, hbuf]
      refine ⟨by decide, ⟨rfl, by decide +kernel, rfl⟩, ?_⟩
      have hkey : tokenAt longNameTokens 4 = .ok (tok .JSMN_STRING 16 4 1) := rfl
      exact .here (r := tok .JSMN_OBJECT 14 81 1) rfl rfl (.here hkey (by decide) rfl)
    have hr : Readable (bufOf longName.length longName) (tok .JSMN_STRING 23 70 0) := by
      rw [hbuf]
      exact ⟨by decide +kernel, by decide +kernel⟩
    have hlong := not_contained_of_long (e := .zero _) (f := .name) hr rfl (by decide +kernel)
      (by decide)
    exact hlong (h.contained _ _ _ hmeets rfl).1
  · have hreads : FileAnswers.Reads (.holding behind 3) behind.length 3 behind :=
      ⟨rfl, rfl, by decide +kernel, rfl, rfl, rfl, by decide +kernel⟩
    have hok : ∃ fds, loadFrom (parsing behind behindTokens) (.holding behind 3) (initObj 0) =
        .ok (OK, initObj 0, fds) := by
      refine (loadFrom_ok hreads _ _ _).mpr (.inr ?_)
      rw [parsedOf_parsing, (bufOf_text behind).1]
      exact ⟨by decide, ⟨rfl, by decide +kernel, rfl⟩, [], .left rfl (by decide), rfl⟩
    obtain ⟨fds, hload⟩ := hok
    obtain ⟨es, hL', hstored⟩ := h.stored _ _ _ hreads _ _ _ hload
    obtain rfl : [] = es := withRecords_injective hL'
    rw [parsedOf_parsing] at hstored
    obtain ⟨re, hre, -⟩ := hstored (tok .JSMN_STRING 25 1 0)
      (List.mem_of_getElem? (i := 6) rfl) ⟨rfl, rfl⟩
    rw [List.zip_nil_right] at hre
    exact absurd hre List.not_mem_nil

end TaskLedger
end Labs
