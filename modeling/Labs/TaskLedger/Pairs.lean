import Labs.TaskLedger.Document
import Mathlib.Data.List.GetD

/-!
# Which field a value is loaded into

`load_from` looks at the type of a value and never at the text of its key. A string goes into the
first text field that is still empty, and is never empty itself there (`written`). So after the
texts `vs` of a record have been read, the text fields hold `vs` in the order of `textFields` and
nothing else (`HoldsTexts`), wherever the age stood: that is the invariant of the loop over the
pairs (`loadPairs_texts`). The one text that may be longer than the field it goes into is the
fourth, and it runs into the age, which is no text field.

## Positions instead of keys

The loop has no notion of a key, so the invariant has none either. `HoldsTexts vs` counts: the first
text is in the first field, the second in the second, and behind them all fields are zeros. Whether
that is where the keys say is asked afterwards, of the order of the texts in the record (`ByKey`).

The invariant is about whole fields and not about strings. It would not be enough to know that a
field starts with the text, since the next text goes to the first field whose first *byte* is zero;
the text that is read from a field in the end is the one up to its first zero, so what stands behind
it matters once the next field is reached through it.

All values of this module are short enough for their fields, but for the fourth, which is the
shortest of them; what becomes of longer ones is the subject of `Values` and `LongValues`.
-/

namespace Labs
namespace TaskLedger

open Lib

/-- A value as the field has it. -/
def written (v : List UInt8) : List UInt8 := if v = [] then ascii "nil" else v

/-- The texts, in the order of the record. -/
def writtenTexts (ms : List Member) : List (List UInt8) :=
  (ms.filter (·.key ≠ .age)).map fun m => written m.value

/-! ## 1. The fields of an entry -/

/-- A text in a field of zeros. -/
def padded (v : List UInt8) (size : Nat) : List UInt8 :=
  (v ++ List.replicate size NUL).take size

structure HoldsTexts (vs : List (List UInt8)) (e : Priv) : Prop where
  held : ∀ k f, textFields[k]? = some f → e.read f.offset f.size = padded (vs.getD k []) f.size

theorem fields_apart : ∀ f ∈ textFields, ∀ g ∈ textFields, f ≠ g →
    g.offset + g.size ≤ f.offset ∨ f.offset + NAMESIZ ≤ g.offset := by
  decide

theorem fields_nodup : textFields.Nodup := by decide

theorem size_pos : ∀ f ∈ textFields, 0 < f.size := by decide

theorem padded_eq (v : List UInt8) (size : Nat) :
    padded v size = v.take size ++ List.replicate (size - v.length) NUL := by
  rw [padded, List.take_append, List.take_replicate, Nat.min_eq_left (Nat.sub_le _ _)]

theorem cstr_padded {v : List UInt8} (h : NUL ∉ v) (size : Nat) :
    cstr (padded v size) = v.take size := by
  have hcut : NUL ∉ v.take size := fun hm => h (List.mem_of_mem_take hm)
  rw [padded_eq]
  cases size - v.length with
  | zero =>
    rw [List.replicate_zero, List.append_nil, cstr_eq_self hcut]
  | succ n => exact cstr_append_nul hcut _

theorem holdsTexts_zero : HoldsTexts [] (.zero _) := by
  refine ⟨fun k f hf => ?_⟩
  have hin := f.inside
  rw [List.getD_nil, padded, List.nil_append, List.take_replicate, Nat.min_self, Block.read,
    Block.zero, List.drop_replicate, List.take_replicate]
  congr 1
  omega

theorem write_of_put {e e' : Priv} {off : Nat} {bs : List UInt8} (h : put e off bs = .ok e') :
    e.write off bs = some e' := by
  unfold put at h
  split at h
  · exact absurd h (by simp)
  · rename_i e₁ he₁
    rw [he₁]
    exact congrArg some (Except.ok.inj h)

/-- A text with zeros behind it, in a field of zeros. -/
theorem read_padded {e e' : Priv} {f : Field} {v zeros : List UInt8}
    (he : e.read f.offset f.size = padded [] f.size) (hz : ∀ b ∈ zeros, b = NUL)
    (hw : e.write f.offset (v ++ zeros) = some e') :
    e'.read f.offset f.size = padded v f.size := by
  have hrest : (e.bytes.drop (f.offset + (v ++ zeros).length)).take (f.size - (v ++ zeros).length) =
      List.replicate (f.size - (v ++ zeros).length) NUL := by
    have := congrArg (List.drop (v ++ zeros).length) he
    rw [padded_eq, List.take_nil, List.nil_append, List.drop_replicate, Block.read,
      List.drop_take, List.drop_drop] at this
    exact this
  have hzeros : zeros = List.replicate zeros.length NUL := List.eq_replicate_iff.mpr ⟨rfl, hz⟩
  rw [Block.read_write_self hw, List.take_append, hrest, List.take_append, padded_eq,
    List.append_assoc]
  congr 1
  rw [hzeros, List.take_replicate, List.replicate_append_replicate, List.length_append,
    List.length_replicate]
  congr 1
  omega

/-- A text that is copied to the first empty field fills it and leaves the others. -/
theorem HoldsTexts.put {vs : List (List UInt8)} {e e' : Priv} {f : Field} {v zeros : List UInt8}
    (h : HoldsTexts vs e) (hf : textFields[vs.length]? = some f)
    (hv : (v ++ zeros).length ≤ NAMESIZ) (hz : ∀ b ∈ zeros, b = NUL)
    (hput : put e f.offset (v ++ zeros) = .ok e') : HoldsTexts (vs ++ [v]) e' := by
  have hw := write_of_put hput
  refine ⟨fun k g hg => ?_⟩
  rcases eq_or_ne k vs.length with rfl | hk
  · have hfg : g = f := Option.some.inj (hg.symm.trans hf)
    subst hfg
    have hnone : vs.getD vs.length [] = [] := by simp
    have hlast : (vs ++ [v]).getD vs.length [] = v := by simp
    rw [hlast]
    exact read_padded (hnone ▸ h.held _ _ hg) hz hw
  · have hsame : (vs ++ [v]).getD k [] = vs.getD k [] := by
      rcases Nat.lt_or_gt_of_ne hk with hlt | hgt
      · rw [List.getD_append _ _ _ _ hlt]
      · rw [List.getD_eq_default _ _ (by rw [List.length_append]; exact hgt),
          List.getD_eq_default _ _ (Nat.le_of_lt hgt)]
    have hne : f ≠ g := fun e => hk
      ((List.getElem?_inj (List.getElem?_eq_some_iff.mp hg).1 fields_nodup).mp
        (hg.trans (e ▸ hf.symm)))
    rw [hsame, ← h.held k g hg]
    rcases fields_apart f (List.mem_of_getElem? hf) g (List.mem_of_getElem? hg) hne with hb | ha
    · exact Block.read_write_before hw hb
    · exact Block.read_write_after hw (by omega) _

/-- The age is none of the text fields. -/
theorem HoldsTexts.putAge {vs : List (List UInt8)} {e e' : Priv} {bs : List UInt8}
    (h : HoldsTexts vs e) (hput : TaskLedger.put e Field.age.offset bs = .ok e') :
    HoldsTexts vs e' := by
  have hbefore : ∀ g ∈ textFields, g.offset + g.size ≤ Field.age.offset := by decide
  refine ⟨fun k g hg => ?_⟩
  rw [Block.read_write_before (write_of_put hput) (hbefore g (List.mem_of_getElem? hg)),
    h.held k g hg]

/-- A text that fills a field. -/
def Solid (v : List UInt8) : Prop := v ≠ [] ∧ NUL ∉ v

theorem HoldsTexts.first_eq {vs : List (List UInt8)} {e : Priv} {k : Nat} {f : Field}
    (h : HoldsTexts vs e) (hf : textFields[k]? = some f) :
    first e f = (vs.getD k []).headD NUL := by
  have hpos := size_pos f (List.mem_of_getElem? hf)
  obtain ⟨n, hn⟩ := Nat.exists_eq_succ_of_ne_zero (Nat.ne_of_gt hpos)
  have hread := congrArg (List.headD · NUL) (h.held k f hf)
  have hleft : (e.read f.offset f.size).headD NUL = first e f := by
    rw [Block.read, hn, first]
    cases e.bytes.drop f.offset with
    | nil => rfl
    | cons b bs => rfl
  have hright : (padded (vs.getD k []) f.size).headD NUL = (vs.getD k []).headD NUL := by
    rw [padded, hn]
    cases vs.getD k [] with
    | nil => rfl
    | cons b bs => rfl
  rw [← hleft, ← hright]
  exact hread

theorem Solid.headD_ne {v : List UInt8} (h : Solid v) : v.headD NUL ≠ NUL := by
  cases v with
  | nil => exact absurd rfl h.1
  | cons b bs => exact fun hb => h.2 (by rw [← show b = NUL from hb]; exact List.mem_cons_self)

/-- The next text goes to the next field. -/
theorem HoldsTexts.emptyField_eq {vs : List (List UInt8)} {e : Priv} {f : Field}
    (h : HoldsTexts vs e) (hs : ∀ v ∈ vs, Solid v) (hf : textFields[vs.length]? = some f) :
    emptyField e = some f := by
  obtain ⟨hlt, hget⟩ := List.getElem?_eq_some_iff.mp hf
  refine List.find?_eq_some_iff_getElem.mpr ⟨?_, vs.length, hlt, hget, fun j hj => ?_⟩
  · rw [h.first_eq hf]
    simp
  · have hj' : textFields[j]? = some textFields[j] := List.getElem?_eq_getElem (hj.trans hlt)
    rw [h.first_eq hj', List.getD_eq_getElem _ _ hj]
    simpa using (hs _ (List.getElem_mem hj)).headD_ne

/-! ## 2. One value -/

/-- What stands behind the first part of a suffix. -/
theorem drop_behind {α : Type} {l xs ys : List α} {n : Nat} (h : l.drop n = xs ++ ys) :
    l.drop (n + xs.length) = ys := by
  rw [← List.drop_drop, h, List.drop_left]

theorem printable_ne_nul {b : UInt8} (h : 32 ≤ b) : NUL ≠ b := by
  rintro rfl
  exact absurd h (by decide)

theorem quotable_nul_free (v : List UInt8) (h : quotable v) : NUL ∉ v := by
  fun_induction quotable v with
  | case1 => exact List.not_mem_nil
  | case2 b =>
    simp only [Bool.and_eq_true, decide_eq_true_eq] at h
    exact List.not_mem_cons_of_ne_of_not_mem (printable_ne_nul h.1.1) List.not_mem_nil
  | case3 bs ih =>
    -- `\u` and four hexadecimal digits
    rw [Bool.and_eq_true] at h
    exact List.not_mem_cons_of_ne_of_not_mem (by decide)
      (List.not_mem_cons_of_ne_of_not_mem (by decide) (ih h.2))
  | case4 c bs hc ih =>
    simp only [Bool.and_eq_true, List.contains_iff_mem] at h
    have hescapes : ∀ c ∈ ascii "\"\\/bfnrt", NUL ≠ c := by decide +kernel
    exact List.not_mem_cons_of_ne_of_not_mem (by decide)
      (List.not_mem_cons_of_ne_of_not_mem (hescapes c h.1) (ih h.2))
  | case5 b c bs hb ih =>
    simp only [Bool.and_eq_true, decide_eq_true_eq] at h
    exact List.not_mem_cons_of_ne_of_not_mem (printable_ne_nul h.1.1) (ih h.2)

theorem digit_ne_nul {b : UInt8} (h : isdigit b) : b ≠ NUL := by
  rintro rfl
  exact absurd h (by decide)

/-- The texts of a record fit into any of the fields but the fourth, and are texts. -/
theorem Member.written_solid (m : Member) (h : m.key ≠ .age) :
    Solid (written m.value) ∧ (written m.value).length < m.key.field.size := by
  have hacc := m.accepted
  rw [Key.accepts, if_neg h, Bool.and_eq_true, decide_eq_true_eq] at hacc
  unfold written
  split
  · refine ⟨⟨by decide, by decide⟩, ?_⟩
    cases m.key <;> decide
  · rename_i hne
    exact ⟨⟨hne, quotable_nul_free _ hacc.1⟩, hacc.2⟩

/-- The byte behind a value is a quote, white space or the end of the member. -/
def Terminated (rest : List UInt8) : Prop := ∃ c tail, rest = c :: tail ∧ isdigit c = false

theorem blank_terminated {blank : Blank} {rest : List UInt8} (h : Terminated rest) :
    Terminated (blank.val ++ rest) := by
  obtain ⟨bs, hbs⟩ := blank
  cases bs with
  | nil => exact h
  | cons b bs =>
    have hblank : ∀ c ∈ ascii " \t\n\r", isdigit c = false := by decide +kernel
    exact ⟨b, bs ++ rest, rfl, hblank b (hbs b List.mem_cons_self)⟩

variable {buf rest : List UInt8} {off : Nat} {m : Member} {e e' : Priv}
  {vs : List (List UInt8)} {f : Field}

/-- What the place of the value shows. -/
theorem Member.drop_value (h : buf.drop off = m.text ++ rest) :
    buf.drop (m.valueTok off).start = m.value ++ (m.key.quotes ++ (m.afterValue.val ++ rest)) := by
  have hfront : buf.drop off =
      m.front ++ (m.value ++ (m.key.quotes ++ (m.afterValue.val ++ rest))) := by
    rw [h, Member.text]
    simp only [List.append_assoc]
  exact drop_behind hfront

theorem Member.value_terminated (hrest : Terminated rest) :
    Terminated (m.key.quotes ++ (m.afterValue.val ++ rest)) := by
  unfold Key.quotes
  split
  · exact blank_terminated hrest
  · exact ⟨QUOTE, m.afterValue.val ++ rest, rfl, by decide⟩

theorem Member.textOf_value (h : buf.drop off = m.text ++ rest) (hrest : Terminated rest) :
    textOf buf (m.valueTok off) = .ok m.value := by
  have hdrop := Member.drop_value h
  obtain ⟨c, tail, hc, -⟩ := m.value_terminated hrest
  have hstop : (m.valueTok off).stop ≤ buf.length := by
    have hlen := congrArg List.length (drop_behind hdrop)
    rw [hc, List.length_cons, List.length_drop] at hlen
    show (m.valueTok off).start + m.value.length ≤ buf.length
    omega
  have hsize : (m.valueTok off).stop - (m.valueTok off).start = m.value.length :=
    Nat.add_sub_cancel_left ..
  rw [textOf, if_pos hstop, hdrop, hsize, List.take_left]

/-- The terminator that `strcpy` stores behind `nil`. -/
def terminator (v : List UInt8) : List UInt8 := if v = [] then [NUL] else []

theorem Member.loadValue_text (h : buf.drop off = m.text ++ rest) (hrest : Terminated rest)
    (hm : m.key ≠ .age) (hf : emptyField e = some f) :
    loadValue buf e (m.valueTok off) =
      put e f.offset (written m.value ++ terminator m.value) >>= fun e' => .ok (some e') := by
  have htype : (m.valueTok off).type = .JSMN_STRING := if_neg hm
  have hbytes : (if (m.valueTok off).start = (m.valueTok off).stop then ascii "nil" ++ [NUL]
      else m.value) = written m.value ++ terminator m.value := by
    have hstop : (m.valueTok off).stop = (m.valueTok off).start + m.value.length := rfl
    rw [hstop, written, terminator]
    cases m.value with
    | nil => simp
    | cons b bs => simp
  unfold loadValue
  rw [htype, hf]
  dsimp only
  rw [bind_of_ok (Member.textOf_value h hrest), hbytes]
  rfl

theorem Member.digits_of_age (m : Member) (hm : m.key = .age) :
    m.value ≠ [] ∧ ∀ b ∈ m.value, isdigit b := by
  have hacc := m.accepted
  rw [Key.accepts, if_pos hm, isNumber] at hacc
  simp only [Bool.and_eq_true, bne_iff_ne, List.all_eq_true] at hacc
  exact hacc.1

/-- `sscanf` of the age, with the rest of the file behind it. -/
theorem Member.scanInt_age (h : buf.drop off = m.text ++ rest) (hrest : Terminated rest)
    (hm : m.key = .age) :
    (scanInt (cstr (buf.drop (m.valueTok off).start))).1 = some (digitsValue m.value : Int) := by
  obtain ⟨hne, hds⟩ := m.digits_of_age hm
  obtain ⟨c, tail, hc, hdigit⟩ := m.value_terminated hrest
  have hcstr : cstr (m.value ++ c :: tail) = m.value ++ cstr (c :: tail) :=
    List.takeWhile_append_of_pos fun b hb => by simpa using digit_ne_nul (hds b hb)
  rw [Member.drop_value h, hc, hcstr, scanInt_digits hne hds]
  intro b hb
  rw [cstr, List.takeWhile_cons] at hb
  split at hb
  · simp only [List.head?_cons, Option.mem_some_iff] at hb
    exact hb ▸ hdigit
  · exact absurd hb (by simp)

theorem Member.loadValue_age (h : buf.drop off = m.text ++ rest) (hrest : Terminated rest)
    (hm : m.key = .age) :
    loadValue buf e (m.valueTok off) =
      put e Field.age.offset (encode32 (scannedInt (digitsValue m.value))) >>= fun e' =>
        if ageOf e' < 0 then .ok none else .ok (some e') := by
  have htype : (m.valueTok off).type = .JSMN_PRIMITIVE := if_pos hm
  have hstart : (m.valueTok off).start < buf.length := by
    have hlen := congrArg List.length (Member.drop_value h)
    have hpos := List.length_pos_iff.mpr (m.digits_of_age hm).1
    rw [List.length_drop, List.length_append] at hlen
    omega
  have htext : textFrom buf (m.valueTok off).start = .ok (buf.drop (m.valueTok off).start) :=
    if_pos hstart
  unfold loadValue
  rw [htype]
  dsimp only
  rw [bind_of_ok htext, scanAge, Member.scanInt_age h hrest hm]
  rfl

/-! ## 3. The pairs of a record -/

variable {ts tail : List Tok} {ms : List Member} {i j n : Nat} {t : Tok}

theorem tokenAt_of_drop (hmax : ts.length ≤ MAX_TOKENS) (h : ts.drop i = t :: tail) :
    tokenAt ts i = .ok t ∧ ts.drop (i + 1) = tail := by
  have hlen := congrArg List.length h
  rw [List.length_drop, List.length_cons] at hlen
  have hget : ts[i]? = some t := by
    rw [← List.head?_drop, h, List.head?_cons]
  have hone : ts.drop i = [t] ++ tail := h
  refine ⟨?_, drop_behind hone⟩
  rw [tokenAt_of_lt (by omega), List.getD_eq_getElem?_getD, hget, Option.getD_some]

theorem commas_terminated (ms : List Member) (rest : List UInt8) :
    Terminated (commas ms ++ (membersText ms ++ rest)) := by
  cases ms with
  | nil => exact ⟨BRACE_END, rest, rfl, by decide⟩
  | cons m ms => exact ⟨COMMA, membersText (m :: ms) ++ rest, rfl, by decide⟩

/-- What is left of the text and of the tokens behind the first member. -/
theorem drop_members (hbuf : buf.drop off = membersText (m :: ms) ++ rest) :
    buf.drop off = m.text ++ (commas ms ++ (membersText ms ++ rest)) ∧
      buf.drop (off + m.text.length + (commas ms).length) = membersText ms ++ rest := by
  have hbuf' : buf.drop off = m.text ++ (commas ms ++ (membersText ms ++ rest)) := by
    rw [hbuf, membersText]
    simp only [List.append_assoc]
  exact ⟨hbuf', drop_behind (drop_behind hbuf')⟩

theorem loadPairs_cons (n : Nat) (e : Priv) (buf : List UInt8) (hmax : ts.length ≤ MAX_TOKENS)
    (hts : ts.drop i = m.keyTok off :: m.valueTok off :: tail) :
    ts.drop (i + 2) = tail ∧
      loadPairs buf ts (n + 1) i e = loadValue buf e (m.valueTok off) >>= fun
        | none => .ok none
        | some e => loadPairs buf ts n (i + 2) e := by
  obtain ⟨hkey, hts'⟩ := tokenAt_of_drop hmax hts
  obtain ⟨hval, hts''⟩ := tokenAt_of_drop hmax hts'
  refine ⟨hts'', ?_⟩
  rw [loadPairs, bind_of_ok hkey, if_pos ⟨rfl, Nat.one_ne_zero⟩, bind_of_ok hval]
  rfl

theorem writtenTexts_age (hm : m.key = .age) : writtenTexts (m :: ms) = writtenTexts ms := by
  simp [writtenTexts, hm]

theorem writtenTexts_text (hm : m.key ≠ .age) :
    writtenTexts (m :: ms) = written m.value :: writtenTexts ms := by
  simp [writtenTexts, hm]

theorem terminator_length (v : List UInt8) :
    (written v ++ terminator v).length ≤ (written v).length + 1 := by
  unfold terminator
  split <;> simp

theorem terminator_zero (v : List UInt8) : ∀ b ∈ terminator v, b = NUL := by
  unfold terminator
  split <;> simp

/-- There is a field for one text more. -/
theorem next_field {us : List (List UInt8)} {v : List UInt8}
    (h : vs.length + (v :: us).length ≤ textFields.length) :
    ∃ f, textFields[vs.length]? = some f := by
  have hlt : vs.length < textFields.length := by
    rw [List.length_cons] at h
    omega
  exact ⟨textFields[vs.length], List.getElem?_eq_getElem hlt⟩

theorem room_snoc {us : List (List UInt8)} {v : List UInt8} {n : Nat}
    (h : vs.length + (v :: us).length ≤ n) : (vs ++ [v]).length + us.length ≤ n := by
  simp only [List.length_append, List.length_cons, List.length_nil] at h ⊢
  omega

theorem Key.field_size_le (k : Key) : k.field.size ≤ NAMESIZ := by
  cases k <;> decide

theorem Solid.snoc {v : List UInt8} (hs : ∀ u ∈ vs, Solid u) (hv : Solid v) :
    ∀ u ∈ vs ++ [v], Solid u := by
  intro u hu
  rcases List.mem_append.mp hu with hu | hu
  · exact hs u hu
  · rw [List.mem_singleton.mp hu]
    exact hv

/-- The step of the loop on a text… -/
theorem loadPairs_text (hmax : ts.length ≤ MAX_TOKENS)
    (hbuf : buf.drop off = membersText (m :: ms) ++ rest)
    (hts : ts.drop i = m.keyTok off :: m.valueTok off :: tail) (hm : m.key ≠ .age)
    (hf : emptyField e = some f) :
    loadPairs buf ts (n + 1) i e = put e f.offset (written m.value ++ terminator m.value) >>=
      fun e' => loadPairs buf ts n (i + 2) e' := by
  rw [(loadPairs_cons n e buf hmax hts).2,
    Member.loadValue_text (drop_members hbuf).1 (commas_terminated ms rest) hm hf]
  cases put e f.offset (written m.value ++ terminator m.value) with
  | error s => rfl
  | ok e' => rfl

/-- …and on the age. -/
theorem loadPairs_age (hmax : ts.length ≤ MAX_TOKENS)
    (hbuf : buf.drop off = membersText (m :: ms) ++ rest)
    (hts : ts.drop i = m.keyTok off :: m.valueTok off :: tail) (hm : m.key = .age) :
    loadPairs buf ts (n + 1) i e =
      put e Field.age.offset (encode32 (scannedInt (digitsValue m.value))) >>= fun e' =>
        if ageOf e' < 0 then .ok none else loadPairs buf ts n (i + 2) e' := by
  rw [(loadPairs_cons n e buf hmax hts).2,
    Member.loadValue_age (drop_members hbuf).1 (commas_terminated ms rest) hm]
  cases put e Field.age.offset (encode32 (scannedInt (digitsValue m.value))) with
  | error s => rfl
  | ok e' =>
    show (if ageOf e' < 0 then Except.ok none else Except.ok (some e')) >>= _ = ite _ _ _
    split <;> rfl

/-- **The texts of a record go to the text fields in their order**, if the loop gets through. -/
theorem loadPairs_texts (hmax : ts.length ≤ MAX_TOKENS)
    (hbuf : buf.drop off = membersText ms ++ rest) (hts : ts.drop i = membersTokens off ms ++ tail)
    (hs : ∀ v ∈ vs, Solid v) (hroom : vs.length + (writtenTexts ms).length ≤ textFields.length)
    (he : HoldsTexts vs e) (hload : loadPairs buf ts ms.length i e = .ok (some (j, e'))) :
    HoldsTexts (vs ++ writtenTexts ms) e' ∧ ts.drop j = tail := by
  induction ms generalizing off i vs e with
  | nil =>
    cases hload
    rw [writtenTexts, List.filter_nil, List.map_nil, List.append_nil]
    exact ⟨he, hts⟩
  | cons m ms ih =>
    have hbuf' := (drop_members hbuf).2
    have hts' := (loadPairs_cons ms.length e buf hmax hts).1
    rw [List.length_cons] at hload
    by_cases hm : m.key = .age
    · rw [writtenTexts_age hm] at hroom ⊢
      rw [loadPairs_age hmax hbuf hts hm] at hload
      cases hput : put e Field.age.offset (encode32 (scannedInt (digitsValue m.value))) with
      | error s =>
        rw [bind_of_error hput] at hload
        exact absurd hload (by simp)
      | ok e₁ =>
        rw [bind_of_ok hput] at hload
        by_cases hneg : ageOf e₁ < 0
        · rw [if_pos hneg] at hload
          exact absurd hload (by simp)
        · rw [if_neg hneg] at hload
          exact ih hbuf' hts' hs hroom (he.putAge hput) hload
    · rw [writtenTexts_text hm] at hroom ⊢
      obtain ⟨f, hf⟩ := next_field hroom
      obtain ⟨hsolid, hlen⟩ := m.written_solid hm
      rw [loadPairs_text hmax hbuf hts hm (he.emptyField_eq hs hf)] at hload
      cases hput : put e f.offset (written m.value ++ terminator m.value) with
      | error s =>
        rw [bind_of_error hput] at hload
        exact absurd hload (by simp)
      | ok e₁ =>
        rw [bind_of_ok hput] at hload
        have hshort : (written m.value ++ terminator m.value).length ≤ NAMESIZ :=
          Nat.le_trans (terminator_length _) (Nat.le_trans hlen m.key.field_size_le)
        have he₁ := he.put hf hshort (terminator_zero _) hput
        have hsnoc : vs ++ written m.value :: writtenTexts ms =
            vs ++ [written m.value] ++ writtenTexts ms := by simp
        rw [hsnoc]
        exact ih hbuf' hts' (Solid.snoc hs hsolid) (room_snoc hroom) he₁ hload

/-- The age after the members, if it was `a` before them. -/
def ageAfter (a : Int) (ms : List Member) : Int :=
  ms.foldl (fun a m => if m.key = .age then digitsValue m.value else a) a

theorem ageOf_put_text {bs : List UInt8} (hf : f ∈ textFields) (hbs : bs.length ≤ f.size)
    (hput : put e f.offset bs = .ok e') : ageOf e' = ageOf e := by
  have hbefore : ∀ g ∈ textFields, g.offset + g.size ≤ Field.age.offset := by decide
  have hle := hbefore f hf
  rw [ageOf, Block.read_write_after (write_of_put hput) (by omega), ageOf]

theorem ageOf_put_age {x : Int} (hput : put e Field.age.offset (encode32 x) = .ok e') :
    ageOf e' = wrap32 x := by
  rw [ageOf, Block.read_write_self (write_of_put hput)]
  exact decode32_encode32 x

/-- **Texts that fit the fields they go to are loaded**, with the age. -/
theorem loadPairs_fits (hmax : ts.length ≤ MAX_TOKENS)
    (hbuf : buf.drop off = membersText ms ++ rest) (hts : ts.drop i = membersTokens off ms ++ tail)
    (hs : ∀ v ∈ vs, Solid v) (hroom : vs.length + (writtenTexts ms).length ≤ textFields.length)
    (he : HoldsTexts vs e)
    (hfit : ∀ k f, textFields[k]? = some f → ((vs ++ writtenTexts ms).getD k []).length < f.size)
    (hage : ∀ m ∈ ms, m.key = .age → (digitsValue m.value : Int) ≤ INT_MAX) :
    ∃ j e', loadPairs buf ts ms.length i e = .ok (some (j, e')) ∧
      ageOf e' = ageAfter (ageOf e) ms := by
  induction ms generalizing off i vs e with
  | nil => exact ⟨i, e, rfl, rfl⟩
  | cons m ms ih =>
    have hbuf' := (drop_members hbuf).2
    have hts' := (loadPairs_cons ms.length e buf hmax hts).1
    have hage' := fun m' hm' => hage m' (List.mem_cons_of_mem m hm')
    rw [List.length_cons, ageAfter, List.foldl_cons]
    by_cases hm : m.key = .age
    · rw [writtenTexts_age hm] at hroom hfit
      obtain ⟨e₁, hput⟩ := put_of_le e Field.age.offset
        (encode32 (scannedInt (digitsValue m.value))) (show 288 + 4 ≤ 292 by decide)
      have hrange : InRange32 (digitsValue m.value : Int) :=
        ⟨Int.le_trans (by decide) (Int.natCast_nonneg _), hage m List.mem_cons_self hm⟩
      have hval : ageOf e₁ = digitsValue m.value := by
        rw [ageOf_put_age hput, scannedInt_of_inRange hrange, wrap32_of_inRange hrange]
      have hneg : ¬ ageOf e₁ < 0 := by
        rw [hval]
        exact Int.not_lt.mpr (Int.natCast_nonneg _)
      rw [loadPairs_age hmax hbuf hts hm, bind_of_ok hput, if_neg hneg, if_pos hm, ← hval]
      exact ih hbuf' hts' hs hroom (he.putAge hput) hfit hage'
    · rw [writtenTexts_text hm] at hroom hfit
      obtain ⟨f, hf⟩ := next_field hroom
      obtain ⟨hsolid, hlen⟩ := m.written_solid hm
      have hsnoc : vs ++ written m.value :: writtenTexts ms =
          vs ++ [written m.value] ++ writtenTexts ms := by simp
      rw [hsnoc] at hfit
      have hsize : (written m.value ++ terminator m.value).length ≤ f.size := by
        have hk := hfit vs.length f hf
        rw [List.append_assoc, List.getD_append_right _ _ _ _ (Nat.le_refl _), Nat.sub_self] at hk
        exact Nat.le_trans (terminator_length _) hk
      obtain ⟨e₁, hput⟩ := put_of_le e f.offset (written m.value ++ terminator m.value)
        (Nat.le_trans (Nat.add_le_add_left hsize _) f.inside)
      have hshort : (written m.value ++ terminator m.value).length ≤ NAMESIZ :=
        Nat.le_trans (terminator_length _) (Nat.le_trans hlen m.key.field_size_le)
      have he₁ := he.put hf hshort (terminator_zero _) hput
      rw [loadPairs_text hmax hbuf hts hm (he.emptyField_eq hs hf), bind_of_ok hput, if_neg hm,
        ← ageOf_put_text (List.mem_of_getElem? hf) hsize hput]
      exact ih hbuf' hts' (Solid.snoc hs hsolid) (room_snoc hroom) he₁ hfit hage'

end TaskLedger
end Labs
