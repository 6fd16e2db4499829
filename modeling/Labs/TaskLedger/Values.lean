import Labs.TaskLedger.Records

/-!
# One value of a record

A string value is copied to the first text field that is still empty, as long as it is. The field
has room for it, with a terminator behind it, exactly if the value is shorter than the field; a
longer one runs into the field behind, which then is not empty any more, or into the age, or out
of the entry.

However the values run into each other, a text field whose first byte is zero has only zeros
(`Tidy`), since none of them contains a zero. That is why the length alone decides (`contained_iff`).

## Why the length decides

The loader asks for the first byte of a field only. That it is zero says little about the bytes
behind it, unless they are known to be zero as well. They are, in every entry that the loader can
have made (`Tidy`): it starts with zeros, a copy brings no zero with it but a terminator for an
empty value, and a copy that starts in front of a field and reaches it takes its first byte. So a
field with a zero in front has not been reached.

In a tidy entry a value that is shorter than its field leaves a zero behind it, and touches nothing
else. One that is as long as the field does not, and nothing will store one later. Hence
`contained_iff` is about one copy and still exact.

## What is asked of the tokenizer

`jsmn` is a parameter. Three things that its documentation says are named in `Tokenizer`: as many
tokens as it returns, inside the text, and none over a `NUL`. They say nothing about nesting, or
about what kind of token stands where. The loader has to find that out, and what it does not find
out is the subject of `Accepted`.
-/

namespace Labs
namespace TaskLedger

open Lib

variable {buf : List UInt8} {ts : List Tok} {t key : Tok} {e e' e₁ : Priv} {f g : Field}
  {bs : List UInt8} {n i j m : Nat}

/-! ## 1. Empty fields -/

def Tidy (e : Priv) : Prop :=
  ∀ f ∈ textFields, first e f = NUL → e.read f.offset f.size = padded [] f.size

theorem tidy_zero : Tidy (.zero _) := by
  intro f hf _
  obtain ⟨k, hk⟩ := List.mem_iff_getElem?.mp hf
  simpa using holdsTexts_zero.held k f hk

theorem first_eq (e : Priv) (f : Field) : first e f = (e.bytes[f.offset]?).getD NUL := by
  rw [first, List.headD_eq_head?_getD, List.head?_drop]

theorem first_of_read {e e' : Priv} (hpos : 0 < f.size)
    (h : e'.read f.offset f.size = e.read f.offset f.size) : first e' f = first e f := by
  have hhead : ∀ d : Priv, (d.read f.offset f.size).headD NUL = first d f := by
    intro d
    rw [Block.read, first]
    cases d.bytes.drop f.offset with
    | nil => simp
    | cons b bs =>
      obtain ⟨k, hk⟩ := Nat.exists_eq_succ_of_ne_zero (Nat.ne_of_gt hpos)
      rw [hk]
      rfl
  rw [← hhead e', ← hhead e, h]

/-- A copy of bytes that are not zero, over the first byte of a field. -/
theorem first_put_covered (hput : put e f.offset bs = .ok e') (hle : f.offset ≤ g.offset)
    (hlt : g.offset < f.offset + bs.length) (hbs : NUL ∉ bs) : first e' g ≠ NUL := by
  obtain ⟨k, hk⟩ := Nat.exists_eq_add_of_le hle
  have hin : k < bs.length := by omega
  have hget := Block.getElem?_write (write_of_put hput) hin
  rw [first_eq, hk, hget, List.getElem?_eq_getElem hin, Option.getD_some]
  intro hnul
  exact hbs (hnul ▸ List.getElem_mem hin)

theorem first_put_self (hput : put e f.offset bs = .ok e') {b : UInt8} (hb : bs.head? = some b)
    (hne : b ≠ NUL) : first e' f ≠ NUL := by
  cases bs with
  | nil => exact absurd hb (by simp)
  | cons c cs =>
    have hget := Block.getElem?_write (k := 0) (write_of_put hput) (by simp)
    rw [Nat.add_zero] at hget
    rw [first_eq, hget]
    simp only [List.head?_cons, Option.some.injEq] at hb
    simpa [hb] using hne

/-- The copies of `load_from`, a text, or `nil` with its terminator, take the field they go to… -/
theorem first_put_text {v : List UInt8} (hv : NUL ∉ v)
    (hput : put e f.offset (written v ++ terminator v) = .ok e') : first e' f ≠ NUL := by
  cases v with
  | nil => exact first_put_self hput (b := 110) rfl (by decide)
  | cons c cs =>
    refine first_put_self hput (b := c) rfl ?_
    rintro rfl
    exact hv List.mem_cons_self

/-- … and leave another one as it was, or take that too. -/
theorem put_text_beside (hf : f ∈ textFields) (hg : g ∈ textFields) (hne : f ≠ g) {v : List UInt8}
    (hv : NUL ∉ v) (hput : put e f.offset (written v ++ terminator v) = .ok e') :
    e'.read g.offset g.size = e.read g.offset g.size ∨ first e' g ≠ NUL := by
  have hw := write_of_put hput
  rcases fields_apart f hf g hg hne with hbefore | hafter
  · exact .inl (Block.read_write_before hw hbefore)
  · by_cases hfits : f.offset + (written v ++ terminator v).length ≤ g.offset
    · exact .inl (Block.read_write_after hw hfits _)
    · cases v with
      | nil =>
        have hfour : (written [] ++ terminator []).length = 4 := rfl
        rw [hfour] at hfits
        unfold NAMESIZ at hafter
        omega
      | cons c cs =>
        have hbytes : written (c :: cs) ++ terminator (c :: cs) = c :: cs := by
          simp [written, terminator]
        rw [hbytes] at hfits hput
        exact .inr (first_put_covered hput (by omega) (by omega) hv)

theorem tidy_put (h : Tidy e) (hf : f ∈ textFields) {v : List UInt8} (hv : NUL ∉ v)
    (hput : put e f.offset (written v ++ terminator v) = .ok e') : Tidy e' := by
  intro g hg hfirst
  have hne : f ≠ g := by
    rintro rfl
    exact first_put_text hv hput hfirst
  rcases put_text_beside hf hg hne hv hput with hsame | htaken
  · rw [hsame]
    exact h g hg (first_of_read (size_pos g hg) hsame ▸ hfirst)
  · exact absurd hfirst htaken

theorem tidy_putAge (h : Tidy e) (hput : put e Field.age.offset bs = .ok e') : Tidy e' := by
  have hbefore : ∀ g ∈ textFields, g.offset + g.size ≤ Field.age.offset := by decide
  intro g hg hfirst
  have hsame := Block.read_write_before (write_of_put hput) (hbefore g hg)
  rw [hsame]
  exact h g hg (first_of_read (size_pos g hg) hsame ▸ hfirst)

/-! ## 2. One string value -/

/-- The bytes of a token. -/
def valueOf (buf : List UInt8) (t : Tok) : List UInt8 := (buf.drop t.start).take (t.stop - t.start)

/-- What `load_from` relies on of the tokenizer, where it returns tokens: they lie in the text, and
    none of them goes over a NUL, at which the tokenizer stops. -/
structure Tokenizer (jsmn : List UInt8 → Parsed) : Prop where
  count : ∀ text, 0 ≤ (jsmn text).ret → ((jsmn text).tokens.length : Int) = (jsmn text).ret
  inText : ∀ text, 0 ≤ (jsmn text).ret → ∀ t ∈ (jsmn text).tokens, t.stop ≤ text.length
  noNul : ∀ text, 0 ≤ (jsmn text).ret → ∀ t ∈ (jsmn text).tokens, NUL ∉ valueOf text t

/-- A token as the loader needs it. -/
structure Readable (buf : List UInt8) (t : Tok) : Prop where
  inBuf : t.stop ≤ buf.length
  noNul : NUL ∉ valueOf buf t

theorem length_valueOf (h : t.stop ≤ buf.length) : (valueOf buf t).length = t.stop - t.start := by
  have := t.ordered
  rw [valueOf, List.length_take, List.length_drop]
  omega

theorem loadValue_string (ht : t.type = .JSMN_STRING) (h : t.stop ≤ buf.length)
    (hf : emptyField e = some f) :
    loadValue buf e t = put e f.offset (written (valueOf buf t) ++ terminator (valueOf buf t)) >>=
      fun e' => .ok (some e') := by
  have hlen := length_valueOf h
  have hbytes : (if t.start = t.stop then ascii "nil" ++ [NUL] else valueOf buf t) =
      written (valueOf buf t) ++ terminator (valueOf buf t) := by
    have := t.ordered
    rw [written, terminator]
    by_cases hempty : t.start = t.stop
    · have hnil : valueOf buf t = [] := List.length_eq_zero_iff.mp (by omega)
      simp [hempty, hnil]
    · have hne : valueOf buf t ≠ [] := by
        intro hnil
        rw [hnil] at hlen
        simp only [List.length_nil] at hlen
        omega
      simp [hempty, hne]
  have htext : textOf buf t = .ok (valueOf buf t) := if_pos h
  unfold loadValue
  rw [ht, hf]
  dsimp only
  rw [bind_of_ok htext, hbytes]
  rfl

theorem loadValue_no_field (ht : t.type = .JSMN_STRING) (hf : emptyField e = none) :
    loadValue buf e t = .ok none := by
  unfold loadValue
  rw [ht, hf]

/-- The whole value and a terminator stand in the field. -/
def HasText (e : Priv) (f : Field) (v : List UInt8) : Prop :=
  ∃ rest, e.read f.offset f.size = written v ++ NUL :: rest

/-- The members of an entry. -/
def fields : List Field := textFields ++ [.age]

/-- The value ends up in a field of its own and nowhere else, or the load ends at it. -/
def Contained (buf : List UInt8) (e : Priv) (t : Tok) : Prop :=
  loadValue buf e t = .ok none ∨ ∃ f e', emptyField e = some f ∧
    loadValue buf e t = .ok (some e') ∧ HasText e' f (valueOf buf t) ∧
      ∀ g ∈ fields, g ≠ f → e'.read g.offset g.size = e.read g.offset g.size

theorem fields_disjoint : ∀ f ∈ textFields, ∀ g ∈ fields, g ≠ f →
    g.offset + g.size ≤ f.offset ∨ f.offset + f.size ≤ g.offset := by
  decide

theorem four_le_size : ∀ f ∈ textFields, 4 ≤ f.size := by decide

theorem length_written {v : List UInt8} (hf : f ∈ textFields) (h : v.length < f.size) :
    (written v).length < f.size ∧ (written v ++ terminator v).length ≤ f.size := by
  have hfour := four_le_size f hf
  cases v with
  | nil => exact ⟨hfour, hfour⟩
  | cons c cs =>
    have hw : written (c :: cs) = c :: cs := by simp [written]
    have hz : terminator (c :: cs) = [] := by simp [terminator]
    rw [hw, hz, List.append_nil]
    exact ⟨h, Nat.le_of_lt h⟩

theorem emptyField_mem (h : emptyField e = some f) : f ∈ textFields ∧ first e f = NUL :=
  ⟨List.mem_of_find?_eq_some h, by simpa using List.find?_some h⟩

/-- A value shorter than the field is contained in it. -/
theorem contained_of_short (hTidy : Tidy e) (ht : t.type = .JSMN_STRING) (h : t.stop ≤ buf.length)
    (hf : emptyField e = some f) (hshort : t.stop - t.start < f.size) : Contained buf e t := by
  obtain ⟨hmem, hfirst⟩ := emptyField_mem hf
  rw [← length_valueOf h] at hshort
  obtain ⟨hlt, hle⟩ := length_written hmem hshort
  obtain ⟨e', hput⟩ := put_of_le e f.offset _ (Nat.le_trans (Nat.add_le_add_left hle _) f.inside)
  have hw := write_of_put hput
  refine .inr ⟨f, e', hf, ?_, ?_, fun g hg hne => ?_⟩
  · rw [loadValue_string ht h hf]
    exact bind_of_ok hput _
  · have hread := read_padded (hTidy f hmem hfirst) (terminator_zero _) hw
    refine ⟨List.replicate (f.size - (written (valueOf buf t)).length - 1) NUL, ?_⟩
    rw [hread, padded_eq, List.take_of_length_le (Nat.le_of_lt hlt), ← List.replicate_succ]
    congr 2
    omega
  · rcases fields_disjoint f hmem g hg hne with hbefore | hafter
    · exact Block.read_write_before hw hbefore
    · exact Block.read_write_after hw (by omega) _

/-- A value as long as the field leaves no room for the terminator. -/
theorem not_contained_of_long (hr : Readable buf t) (ht : t.type = .JSMN_STRING)
    (hf : emptyField e = some f) (hlong : f.size ≤ t.stop - t.start) : ¬ Contained buf e t := by
  rw [← length_valueOf hr.inBuf] at hlong
  obtain ⟨hmem, -⟩ := emptyField_mem hf
  have hne : valueOf buf t ≠ [] := by
    intro hnil
    have hpos := size_pos f hmem
    rw [hnil, List.length_nil] at hlong
    omega
  have hbytes : written (valueOf buf t) ++ terminator (valueOf buf t) = valueOf buf t := by
    simp [written, terminator, hne]
  have hload := loadValue_string ht hr.inBuf hf
  rw [hbytes] at hload
  intro hcontained
  cases hput : put e f.offset (valueOf buf t) with
  | error s =>
    rw [bind_of_error hput] at hload
    rcases hcontained with hnone | ⟨_, e', -, hsome, -⟩
    · rw [hload] at hnone
      exact absurd hnone (by simp)
    · rw [hload] at hsome
      exact absurd hsome (by simp)
  | ok e₁ =>
    rw [bind_of_ok hput] at hload
    rcases hcontained with hnone | ⟨g, e', hg, hsome, ⟨rest, hread⟩, -⟩
    · rw [hload] at hnone
      exact absurd hnone (by simp)
    · cases hf.symm.trans hg
      cases hload.symm.trans hsome
      have hfull := Block.read_write_self (write_of_put hput) f.size
      rw [List.take_append_of_le_length hlong, hread] at hfull
      refine hr.noNul (List.mem_of_mem_take (i := f.size) ?_)
      rw [← hfull]
      exact List.mem_append_right _ List.mem_cons_self

/-- **A string value is contained exactly when it is shorter than the field it goes to**, if there
    is one. -/
theorem contained_iff (hTidy : Tidy e) (hr : Readable buf t) (ht : t.type = .JSMN_STRING) :
    Contained buf e t ↔ ∀ f, emptyField e = some f → t.stop - t.start < f.size := by
  constructor
  · intro hcontained f hf
    by_contra hlong
    exact not_contained_of_long hr ht hf (Nat.not_lt.mp hlong) hcontained
  · intro hshort
    cases hf : emptyField e with
    | none => exact .inl (loadValue_no_field ht hf)
    | some f => exact contained_of_short hTidy ht hr.inBuf hf (hshort f hf)

theorem scanAge_tidy (hTidy : Tidy e) (text : List UInt8) :
    Ends (scanAge e text) (fun _ => True) Tidy := by
  unfold scanAge
  split
  · exact (Ends.self _).mono (fun _ h => h) fun e' hput => tidy_putAge hTidy hput
  · exact hTidy

theorem loadValue_tidy (hTidy : Tidy e) (hr : Readable buf t) :
    Ends (loadValue buf e t) (fun _ => True) fun r => ∀ e', r = some e' → Tidy e' := by
  have hnone : ∀ e', none = some e' → Tidy e' := fun e' h => absurd h (by simp)
  have hsome : ∀ e₁, Tidy e₁ → ∀ e', some e₁ = some e' → Tidy e' := by
    intro e₁ he₁ e' heq
    cases heq
    exact he₁
  cases ht : t.type with
  | JSMN_STRING =>
    cases hf : emptyField e with
    | none =>
      rw [loadValue_no_field ht hf]
      exact hnone
    | some f =>
      rw [loadValue_string ht hr.inBuf hf]
      refine (Ends.self _).bind fun e₁ hput => ?_
      exact hsome e₁ (tidy_put hTidy (emptyField_mem hf).1 hr.noNul hput)
  | JSMN_PRIMITIVE =>
    unfold loadValue
    rw [ht]
    refine Ends.skip _ fun text => (scanAge_tidy hTidy text).bind fun e₁ he₁ => ?_
    split
    · exact hnone
    · exact hsome e₁ he₁
  | _ =>
    unfold loadValue
    rw [ht]
    exact hnone

/-! ## 3. The tokens of a file -/

theorem readable_tokenAt (h : ∀ t ∈ ts, Readable buf t) (ht : tokenAt ts i = .ok t) :
    Readable buf t := by
  unfold tokenAt at ht
  split at ht
  · cases ht
    rw [List.getD_eq_getElem?_getD]
    cases hget : ts[i]? with
    | none => exact ⟨Nat.zero_le _, by simp [valueOf, Tok.zero]⟩
    | some t => exact h t (List.mem_of_getElem? hget)
  · exact absurd ht (by simp)

theorem lt_of_tokenAt (h : tokenAt ts i = .ok t) : i < MAX_TOKENS := by
  unfold tokenAt at h
  split at h
  · assumption
  · cases h

theorem getD_of_tokenAt (h : tokenAt ts i = .ok t) : ts.getD i .zero = t := by
  unfold tokenAt at h
  split at h
  · cases h
    rfl
  · exact absurd h (by simp)

theorem Tokenizer.readable (hj : Tokenizer jsmn) {filesize : Int} {data : List UInt8}
    (hret : 1 ≤ (parsedOf jsmn filesize data).ret) :
    ∀ t ∈ (parsedOf jsmn filesize data).tokens, Readable (bufOf filesize data) t := by
  intro t ht
  have hret' : 0 ≤ (parsedOf jsmn filesize data).ret := by omega
  have hin := hj.inText _ hret' t ht
  have hno := hj.noNul _ hret' t ht
  have hlen : t.stop ≤ filesize.toNat := Nat.le_trans hin (List.length_take_le _ _)
  refine ⟨Nat.le_trans hin (List.length_take_le' _ _), ?_⟩
  have hsame : valueOf ((bufOf filesize data).take filesize.toNat) t =
      valueOf (bufOf filesize data) t := by
    have := t.ordered
    rw [valueOf, valueOf, List.drop_take, List.take_take, Nat.min_eq_left (by omega)]
  rwa [hsame] at hno

/-- The buffer goes on behind the text. -/
theorem Tokenizer.inside (hj : Tokenizer jsmn) {filesize : Int} {data : List UInt8}
    (hret : 1 ≤ (parsedOf jsmn filesize data).ret) :
    ∀ t ∈ (parsedOf jsmn filesize data).tokens, t.start < (bufOf filesize data).length := by
  intro t ht
  have hret' : 0 ≤ (parsedOf jsmn filesize data).ret := by omega
  have hin := hj.inText _ hret' t ht
  have hordered := t.ordered
  have hlen : (bufOf filesize data).length = filesize.toNat + 1 := by
    rw [bufOf, List.length_take, List.length_append, List.length_replicate]
    omega
  rw [List.length_take] at hin
  omega

theorem tokenizer_parsing {text : List UInt8} (h : ∀ t ∈ ts, Readable text t) :
    Tokenizer (parsing text ts) := by
  have hcase : ∀ js, 0 ≤ (parsing text ts js).ret → js = text := by
    intro js hret
    by_contra hne
    rw [parsing, if_neg hne] at hret
    exact absurd hret (by decide)
  refine ⟨fun js hret => ?_, fun js hret t ht => ?_, fun js hret t ht => ?_⟩
  · obtain rfl := hcase js hret
    rw [parsing_self]
  · obtain rfl := hcase js hret
    rw [parsing_self] at ht
    exact (h t ht).inBuf
  · obtain rfl := hcase js hret
    rw [parsing_self] at ht
    exact (h t ht).noNul

variable {jsmn : List UInt8 → Parsed} {file : FileAnswers}

theorem loadFrom_of_reads {filesize fd : Int} {data : List UInt8}
    (h : file.Reads filesize fd data) (jsmn : List UInt8 → Parsed) (L : Ledger) :
    ∃ fd', loadFrom jsmn file L = parseAndLoad jsmn file.callocNode filesize fd' data L := by
  rcases loadFrom_cases jsmn file L with ⟨hunread, -⟩ | ⟨-, hno, -⟩ |
    ⟨filesize', fd', data', hreads, hload⟩
  · exact absurd hunread h.readable
  · exact absurd h (hno _ _ _)
  · obtain ⟨rfl, rfl⟩ := h.unique hreads
    exact ⟨fd', hload⟩

end TaskLedger
end Labs
