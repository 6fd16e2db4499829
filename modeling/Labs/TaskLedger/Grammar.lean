import Labs.TaskLedger.Values

/-!
# What passes

What `load_from` lets through, said of the document alone, by its tokens and the bytes they stand
for. Of the entry that it fills nothing matters but which of the text fields are taken, and whether
the bytes of the age make a negative number: this is the `Fill`. A text takes the first field that is
not taken, and every field that it runs over; if it ends where the entry ends, its last byte is the
sign of the age. A number is refused if it is negative, and where there is no number the age counts
that is there.

The entry follows the fill (`Tracks`), value by value. So a record is loaded exactly when the fill
goes through it (`loadPairs_fill`), and the loop over the array ends well exactly when its elements
pass, up to the first one that is no object (`loaded_iff`).

## What a fill forgets

An entry has 292 bytes, and for what passes only six bits of it matter. They are not independent of
each other: a text takes its field and every field that it runs over, and the last byte of the last
one can become the sign of the age. `Covers` says which, from the offsets and the length alone. So a
document passes or does not pass by the lengths and the order of its strings, by its numbers, and by
one byte of a string that ends with the entry.

## Two shapes of loop

The loop over the pairs counts down the pairs and moves two tokens at a time; the one over the
elements moves behind the pairs of each. Both are recursions on the number that is left here too,
with the index of a token beside it, and `getD` for the tokens: behind the last token of the
document there are zeros in `tokens`, and the loader reads them. `MAX_TOKENS` is the only bound.

The head is a matter of three tokens. The comparison with `Employees` goes as far as the key does,
so what passes for the name is a prefix of it (`isEmployees_iff`).
-/

namespace Labs
namespace TaskLedger

open Lib

/-! ## 1. The elements -/

/-- The tokens of an element of the array: the object, and its keys with their values. -/
structure Element where
  object : Tok
  pairs : List (Tok × Tok)

def pairsAt (ts : List Tok) : Nat → Nat → List (Tok × Tok)
  | 0, _ => []
  | n + 1, i => (ts.getD i .zero, ts.getD (i + 1) .zero) :: pairsAt ts n (i + 2)

def elementsAt (ts : List Tok) : Nat → Nat → List Element
  | 0, _ => []
  | m + 1, i =>
    let object := ts.getD i .zero
    ⟨object, pairsAt ts object.size (i + 1)⟩ :: elementsAt ts m (i + 1 + 2 * object.size)

/-- The elements of the array of the document. -/
def elements (ts : List Tok) : List Element := elementsAt ts (arraySize ts) 3

/-! ## 2. What the values of a record take -/

/-- The text fields that are taken, and the sign of what stands in the age. -/
structure Fill where
  taken : List Field
  negative : Bool

namespace Fill

def empty : Fill := ⟨[], false⟩

/-- The field for the next text. -/
def next (s : Fill) : Option Field := textFields.find? fun f => decide (f ∉ s.taken)

/-- `n` bytes at `f` go over the first byte of `g`. -/
def Covers (f : Field) (n : Nat) (g : Field) : Prop := f.offset ≤ g.offset ∧ g.offset < f.offset + n
deriving Decidable

/-- The text `v` at `f`. -/
def take (s : Fill) (f : Field) (v : List UInt8) : Fill where
  taken := s.taken ++ textFields.filter fun g => decide (Covers f (written v).length g)
  negative :=
    if f.offset + v.length = sizeofPriv then decide (128 ≤ (v.getLastD NUL).toNat) else s.negative

def text (s : Fill) (v : List UInt8) : Option Fill :=
  match s.next with
  | none => none
  | some f => if f.offset + v.length ≤ sizeofPriv then some (s.take f v) else none

def number (s : Fill) (text : List UInt8) : Option Fill :=
  match (scanInt (cstr text)).1 with
  | some x => if scannedInt x < 0 then none else some { s with negative := false }
  | none => if s.negative then none else some s

def value (buf : List UInt8) (s : Fill) (t : Tok) : Option Fill :=
  match t.type with
  | .JSMN_STRING => s.text (valueOf buf t)
  | .JSMN_PRIMITIVE => s.number (buf.drop t.start)
  | _ => none

/-- The next `n` pairs, from token `i` on. -/
def pairs (buf : List UInt8) (ts : List Tok) : Nat → Nat → Fill → Option Fill
  | 0, _, s => some s
  | n + 1, i, s =>
    if i + 1 < MAX_TOKENS ∧ (ts.getD i .zero).IsKey then
      (s.value buf (ts.getD (i + 1) .zero)).bind (pairs buf ts n (i + 2))
    else none

/-- A name or a number has been given. -/
def Named (s : Fill) : Prop := Field.name ∈ s.taken ∨ Field.number ∈ s.taken

end Fill

/-! ## 3. The entry follows -/

variable {buf : List UInt8} {ts : List Tok} {t : Tok} {e e' : Priv} {s s' : Fill} {f g : Field}
  {v : List UInt8} {callocNode : Nat → Bool} {n i m : Nat}

structure Tracks (e : Priv) (s : Fill) : Prop where
  taken : ∀ f ∈ textFields, first e f = NUL ↔ f ∉ s.taken
  negative : ageOf e < 0 ↔ s.negative = true

theorem tracks_zero : Tracks (.zero _) .empty := by
  refine ⟨fun f hf => iff_of_true ?_ List.not_mem_nil, by decide +kernel⟩
  revert hf
  revert f
  decide +kernel

theorem Tracks.next (h : Tracks e s) : emptyField e = s.next := by
  have hsame : ∀ f ∈ textFields, (first e f == NUL) = decide (f ∉ s.taken) := by
    intro f hf
    rw [Bool.eq_iff_iff, beq_iff_eq, decide_eq_true_iff]
    exact h.taken f hf
  rw [emptyField, Fill.next]
  generalize textFields = fs at hsame
  induction fs with
  | nil => rfl
  | cons f fs ih =>
    rw [List.find?_cons, List.find?_cons, hsame f List.mem_cons_self,
      ih fun g hg => hsame g (List.mem_cons_of_mem _ hg)]

/-- The sign of the age is in the last byte of the entry. -/
theorem ageOf_neg_iff (e : Priv) : ageOf e < 0 ↔ 128 ≤ ((e.bytes[291]?).getD NUL).toNat := by
  have hlen : (e.read Field.age.offset Field.age.size).length = 4 :=
    Block.length_read (show 288 + 4 ≤ 292 by decide)
  have hlast : (e.read Field.age.offset Field.age.size)[3]? = e.bytes[291]? := by
    rw [Block.read, List.getElem?_take_of_lt (by decide), List.getElem?_drop]
    rfl
  rw [ageOf, ← hlast]
  obtain ⟨a, b, c, d, hread⟩ := List.length_eq_four.mp hlen
  rw [hread]
  exact decode32_neg_iff a b c d

theorem nul_notMem_written (hv : NUL ∉ v) : NUL ∉ written v := by
  unfold written
  split
  · decide
  · exact hv

/-- What is copied is the text, or `nil` with its terminator. -/
theorem copied_cases (v : List UInt8) :
    (v ≠ [] ∧ written v ++ terminator v = v) ∨
      v = [] ∧ (written v).length = 3 ∧ (written v ++ terminator v).length = 4 := by
  cases v with
  | nil => exact .inr ⟨rfl, rfl, rfl⟩
  | cons c cs => exact .inl ⟨List.cons_ne_nil _ _, by simp [written, terminator]⟩

theorem offset_le {f : Field} (hf : f ∈ textFields) : f.offset ≤ 256 := by
  revert hf
  revert f
  decide

/-- The fields behind a text are those that it covers, and those that were taken. -/
theorem Tracks.taken_take (h : Tracks e s) (hf : f ∈ textFields) (hg : g ∈ textFields)
    (hv : NUL ∉ v) (hput : put e f.offset (written v ++ terminator v) = .ok e') :
    first e' g = NUL ↔ g ∉ (s.take f v).taken := by
  have hw := write_of_put hput
  have htotal : (written v ++ terminator v).length = (written v).length + (terminator v).length :=
    List.length_append
  have hmem : g ∈ (s.take f v).taken ↔ g ∈ s.taken ∨ Fill.Covers f (written v).length g := by
    simp [Fill.take, hg]
  rw [hmem, not_or, ← h.taken g hg]
  by_cases hcovers : Fill.Covers f (written v).length g
  · obtain ⟨k, hk⟩ := Nat.exists_eq_add_of_le hcovers.1
    have hlt : k < (written v).length := by
      have hend := hcovers.2
      omega
    have hget := Block.getElem?_write hw (Nat.lt_of_lt_of_le hlt (Nat.le.intro htotal.symm))
    rw [← hk, List.getElem?_append_left hlt, List.getElem?_eq_getElem hlt] at hget
    refine iff_of_false ?_ fun hno => hno.2 hcovers
    rw [first_eq, hget, Option.getD_some]
    exact fun hnul => nul_notMem_written hv (hnul ▸ List.getElem_mem hlt)
  · have hbeside : g.offset < f.offset ∨
        f.offset + (written v ++ terminator v).length ≤ g.offset := by
      by_contra hno
      rw [not_or, not_lt, not_le] at hno
      have hbehind : f.offset + (written v).length ≤ g.offset :=
        not_lt.mp fun hlt => hcovers ⟨hno.1, hlt⟩
      rcases copied_cases v with ⟨hne, hcopied⟩ | ⟨-, hthree, hfour⟩
      · have hv : written v = v := if_neg hne
        rw [hcopied] at hno
        rw [hv] at hbehind
        omega
      · have hapart : ∀ f ∈ textFields, ∀ g ∈ textFields, g.offset ≠ f.offset + 3 := by decide
        have hne := hapart f hf g hg
        omega
    rw [first_eq, first_eq, Block.getElem?_write_beside hw hbeside]
    exact ⟨fun hfirst => ⟨hfirst, hcovers⟩, And.left⟩

/-- A text that ends with the entry has the sign of the age, and no other text changes it. -/
theorem Tracks.negative_take (h : Tracks e s) (hf : f ∈ textFields)
    (hput : put e f.offset (written v ++ terminator v) = .ok e') :
    ageOf e' < 0 ↔ (s.take f v).negative = true := by
  have hw := write_of_put hput
  obtain ⟨hin, -⟩ := Block.write_bytes hw
  have hoffset := offset_le hf
  rw [ageOf_neg_iff]
  by_cases hend : f.offset + v.length = sizeofPriv
  · have hneg : (s.take f v).negative = decide (128 ≤ (v.getLastD NUL).toNat) := if_pos hend
    unfold sizeofPriv at hend
    rcases copied_cases v with ⟨hne, hcopied⟩ | ⟨rfl, -⟩
    · rw [hcopied] at hw
      have hpos := List.length_pos_iff.mpr hne
      have hlast : f.offset + (v.length - 1) = 291 := by omega
      have hget := Block.getElem?_write hw (k := v.length - 1) (by omega)
      rw [hlast, ← List.getLast?_eq_getElem?] at hget
      rw [hneg, decide_eq_true_iff, hget, List.getLastD_eq_getLast?]
    · rw [List.length_nil] at hend
      omega
  · have hneg : (s.take f v).negative = s.negative := if_neg hend
    have hbefore : f.offset + (written v ++ terminator v).length ≤ 291 := by
      rcases copied_cases v with ⟨-, hcopied⟩ | ⟨-, -, hfour⟩
      · rw [hcopied] at hin ⊢
        unfold sizeofPriv at hin hend
        omega
      · omega
    rw [hneg, ← h.negative, ageOf_neg_iff, Block.getElem?_write_beside hw (.inr hbefore)]

/-- A text that is stored takes the fields that it covers. -/
theorem Tracks.take (h : Tracks e s) (hf : f ∈ textFields) (hv : NUL ∉ v)
    (hput : put e f.offset (written v ++ terminator v) = .ok e') : Tracks e' (s.take f v) :=
  ⟨fun _ hg => h.taken_take hf hg hv hput, h.negative_take hf hput⟩

/-- A number that is stored is not negative, and takes no field. -/
theorem Tracks.putAge (h : Tracks e s) {bs : List UInt8}
    (hput : put e Field.age.offset bs = .ok e') (hage : ¬ ageOf e' < 0) :
    Tracks e' { s with negative := false } := by
  have hbefore : ∀ g ∈ textFields, g.offset + g.size ≤ Field.age.offset := by decide
  refine ⟨fun g hg => ?_, iff_of_false hage (by simp)⟩
  have hsame := Block.read_write_before (write_of_put hput) (hbefore g hg)
  rw [first_of_read (size_pos g hg) hsame]
  exact h.taken g hg

/-- The entry and the fill behind a value: both have gone on, or neither has. -/
def Follows {α : Type} (entry : α → Priv) (r : Option α) (s : Option Fill) : Prop :=
  match r with
  | none => s = none
  | some a => ∃ s', s = some s' ∧ Tracks (entry a) s'

/-- A copy stays in the entry exactly when the text does. -/
theorem put_text_ends (hf : f ∈ textFields) (e : Priv) (v : List UInt8) :
    Ends (put e f.offset (written v ++ terminator v)) (fun _ => ¬ f.offset + v.length ≤ sizeofPriv)
      fun _ => f.offset + v.length ≤ sizeofPriv := by
  have hoffset := offset_le hf
  have hfits : f.offset + (written v ++ terminator v).length ≤ sizeofPriv ↔
      f.offset + v.length ≤ sizeofPriv := by
    rcases copied_cases v with ⟨-, hcopied⟩ | ⟨rfl, -, hfour⟩
    · rw [hcopied]
    · rw [hfour, List.length_nil]
      unfold sizeofPriv
      omega
  cases hput : put e f.offset (written v ++ terminator v) with
  | ok e' =>
    obtain ⟨hle, -⟩ := Block.write_bytes (write_of_put hput)
    exact hfits.mp hle
  | error stop =>
    intro hle
    obtain ⟨e', hok⟩ := put_of_le e f.offset (written v ++ terminator v) (hfits.mpr hle)
    cases hput.symm.trans hok

/-- A text goes into the entry exactly when it goes into the fill. -/
theorem put_text_fill (h : Tracks e s) (hf : emptyField e = some f) (hv : NUL ∉ v) :
    Ends (put e f.offset (written v ++ terminator v) >>= fun e' => .ok (some e'))
      (fun _ => s.text v = none) fun r => Follows id r (s.text v) := by
  obtain ⟨hmem, -⟩ := emptyField_mem hf
  have htext : s.text v = if f.offset + v.length ≤ sizeofPriv then some (s.take f v) else none := by
    rw [Fill.text, ← h.next, hf]
  have hends := put_text_ends hmem e v
  rw [htext]
  cases hput : put e f.offset (written v ++ terminator v) with
  | ok e' =>
    have hfits : f.offset + v.length ≤ sizeofPriv := hends.of_eq_ok hput
    rw [if_pos hfits]
    exact ⟨_, rfl, h.take hmem hv hput⟩
  | error stop =>
    rw [hput] at hends
    have hlong : ¬ f.offset + v.length ≤ sizeofPriv := hends
    exact if_neg hlong

/-- So does a number. -/
theorem scanAge_fill (h : Tracks e s) (text : List UInt8) :
    Ends (scanAge e text >>= fun e' => if ageOf e' < 0 then .ok none else .ok (some e'))
      (fun _ => s.number text = none) fun r => Follows id r (s.number text) := by
  rw [Fill.number, scanAge]
  cases (scanInt (cstr text)).1 with
  | none =>
    show Ends (if ageOf e < 0 then _ else _) _ _
    by_cases hneg : ageOf e < 0
    · rw [if_pos hneg, if_pos (h.negative.mp hneg)]
      exact rfl
    · rw [if_neg hneg, if_neg fun hsign => hneg (h.negative.mpr hsign)]
      exact ⟨s, rfl, h⟩
  | some x =>
    obtain ⟨e', hput⟩ := put_of_le e Field.age.offset (encode32 (scannedInt x))
      (show 288 + 4 ≤ 292 by decide)
    have hage : ageOf e' = scannedInt x := by
      rw [ageOf_put_age hput]
      exact wrap32_of_inRange (inRange_wrap32 _)
    dsimp only
    rw [bind_of_ok hput, hage]
    by_cases hneg : scannedInt x < 0
    · rw [if_pos hneg, if_pos hneg]
      exact rfl
    · rw [if_neg hneg, if_neg hneg]
      exact ⟨_, rfl, h.putAge hput (hage ▸ hneg)⟩

/-- **A value goes into the entry exactly when it goes into the fill.** -/
theorem loadValue_fill (h : Tracks e s) (hr : Readable buf t)
    (hin : t.type = .JSMN_PRIMITIVE → t.start < buf.length) :
    Ends (loadValue buf e t) (fun _ => s.value buf t = none) fun r =>
      Follows id r (s.value buf t) := by
  cases ht : t.type with
  | JSMN_STRING =>
    have hvalue : s.value buf t = s.text (valueOf buf t) := by
      rw [Fill.value, ht]
    rw [hvalue]
    cases hf : emptyField e with
    | none =>
      rw [loadValue_no_field ht hf]
      show s.text _ = none
      rw [Fill.text, ← h.next, hf]
    | some f =>
      rw [loadValue_string ht hr.inBuf hf]
      exact put_text_fill h hf hr.noNul
  | JSMN_PRIMITIVE =>
    have hvalue : s.value buf t = s.number (buf.drop t.start) := by
      rw [Fill.value, ht]
    have htext : textFrom buf t.start = .ok (buf.drop t.start) := if_pos (hin ht)
    have hload : loadValue buf e t = scanAge e (buf.drop t.start) >>= fun e' =>
        if ageOf e' < 0 then .ok none else .ok (some e') := by
      unfold loadValue
      rw [ht]
      exact bind_of_ok htext _
    rw [hvalue, hload]
    exact scanAge_fill h _
  | _ =>
    have hvalue : s.value buf t = none := by
      rw [Fill.value, ht]
    have hload : loadValue buf e t = .ok none := by
      unfold loadValue
      rw [ht]
    rw [hload]
    exact hvalue

theorem mem_of_primitive (h : (ts.getD i .zero).type = .JSMN_PRIMITIVE) :
    ts.getD i .zero ∈ ts := by
  rw [List.getD_eq_getElem?_getD] at h ⊢
  cases hget : ts[i]? with
  | none =>
    rw [hget] at h
    cases h
  | some t => exact List.mem_of_getElem? hget

/-- **… and so do the values of a record.** -/
theorem loadPairs_fill (hts : ∀ t ∈ ts, Readable buf t) (hin : ∀ t ∈ ts, t.start < buf.length)
    (h : Tracks e s) (n i : Nat) :
    Ends (loadPairs buf ts n i e) (fun _ => Fill.pairs buf ts n i s = none) fun r =>
      Follows Prod.snd r (Fill.pairs buf ts n i s) ∧ ∀ je, r = some je → je.1 = i + 2 * n := by
  induction n generalizing i e s with
  | zero => exact ⟨⟨s, rfl, h⟩, fun je hje => by cases hje; rfl⟩
  | succ n ih =>
    rw [loadPairs, Fill.pairs]
    by_cases hi : i < MAX_TOKENS
    · rw [bind_of_ok (tokenAt_of_lt hi)]
      by_cases hkey : (ts.getD i .zero).IsKey
      · have hkey' : (ts.getD i .zero).type = .JSMN_STRING ∧ (ts.getD i .zero).size ≠ 0 := hkey
        rw [if_pos hkey']
        by_cases hnext : i + 1 < MAX_TOKENS
        · have ht : tokenAt ts (i + 1) = .ok (ts.getD (i + 1) .zero) := tokenAt_of_lt hnext
          rw [bind_of_ok ht, if_pos ⟨hnext, hkey⟩]
          have hvalue := loadValue_fill h (readable_tokenAt hts ht) fun hprimitive =>
            hin _ (mem_of_primitive hprimitive)
          cases hload : loadValue buf e (ts.getD (i + 1) .zero) with
          | error stop =>
            rw [hload] at hvalue
            have hvalue : s.value buf (ts.getD (i + 1) .zero) = none := hvalue
            rw [hvalue]
            exact rfl
          | ok r =>
            rw [hload] at hvalue
            cases r with
            | none =>
              have hvalue : s.value buf (ts.getD (i + 1) .zero) = none := hvalue
              rw [hvalue]
              exact ⟨rfl, fun je hje => by cases hje⟩
            | some e' =>
              obtain ⟨s', hvalue, h'⟩ := hvalue
              rw [hvalue]
              refine (ih h' (i + 2)).mono (fun _ hstop => hstop) fun r hr => ⟨hr.1, ?_⟩
              intro je hje
              have hj := hr.2 je hje
              omega
        · rw [if_neg fun hboth => hnext hboth.1]
          have ht : tokenAt ts (i + 1) = .error .outOfBounds := if_neg hnext
          rw [bind_of_error ht]
          exact rfl
      · have hkey' : ¬ ((ts.getD i .zero).type = .JSMN_STRING ∧ (ts.getD i .zero).size ≠ 0) := hkey
        rw [if_neg hkey', if_neg fun hboth => hkey hboth.2]
        exact ⟨rfl, fun je hje => by cases hje⟩
    · rw [if_neg fun hboth => hi (Nat.lt_of_succ_lt hboth.1)]
      have ht : tokenAt ts i = .error .outOfBounds := if_neg hi
      rw [bind_of_error ht]
      exact rfl

/-! ## 4. What the array lets through -/

/-- The object at token `i` has pairs that go through, and a name or a number. -/
def RecordPasses (buf : List UInt8) (ts : List Tok) (i : Nat) : Prop :=
  ∃ s, Fill.pairs buf ts (ts.getD i .zero).size (i + 1) .empty = some s ∧ s.Named

/-- The next `m` elements pass, from token `i` on, up to the first one that is no object. -/
def ElementsPass (callocNode : Nat → Bool) (buf : List UInt8) (ts : List Tok) : Nat → Nat → Prop
  | 0, _ => True
  | m + 1, i => i < MAX_TOKENS ∧ ((ts.getD i .zero).type = .JSMN_OBJECT →
      RecordPasses buf ts i ∧ callocNode m = true ∧
        ElementsPass callocNode buf ts m (i + 1 + 2 * (ts.getD i .zero).size))

/-- The object, a beginning of `Employees` for its key, and an array whose elements pass. -/
structure DocumentPasses (callocNode : Nat → Bool) (buf : List UInt8) (ts : List Tok) : Prop where
  object : (ts.getD 0 .zero).type = .JSMN_OBJECT
  key : valueOf buf (ts.getD 1 .zero) <+: ascii "Employees"
  array : (ts.getD 2 .zero).type = .JSMN_ARRAY
  elements : ElementsPass callocNode buf ts (arraySize ts) 3

theorem Tracks.named_iff (h : Tracks e s) : unnamed e = false ↔ s.Named := by
  rw [unnamed, Bool.and_eq_false_iff, beq_eq_false_iff_ne, beq_eq_false_iff_ne, ne_eq, ne_eq,
    h.taken .name (by decide), h.taken .number (by decide), not_not, not_not, Fill.Named]

/-- A record passes exactly when it is read, up to the token behind it, and `add` would take it. -/
theorem recordPasses_iff (hts : ∀ t ∈ ts, Readable buf t) (hin : ∀ t ∈ ts, t.start < buf.length) :
    RecordPasses buf ts i ↔ ∃ e, loadPairs buf ts (ts.getD i .zero).size (i + 1) (.zero _) =
      .ok (some (i + 1 + 2 * (ts.getD i .zero).size, e)) ∧ unnamed e = false := by
  have hload := loadPairs_fill hts hin tracks_zero (ts.getD i .zero).size (i + 1)
  constructor
  · rintro ⟨s, hfill, hnamed⟩
    rw [hfill] at hload
    cases hpairs : loadPairs buf ts (ts.getD i .zero).size (i + 1) (.zero _) with
    | error stop =>
      rw [hpairs] at hload
      cases hload
    | ok r =>
      rw [hpairs] at hload
      obtain ⟨hfollows, hj⟩ := hload
      cases r with
      | none => cases hfollows
      | some je =>
        obtain ⟨j, e⟩ := je
        obtain ⟨s', hs', htracks⟩ := hfollows
        cases hs'
        have hj : j = _ := hj _ rfl
        rw [hj]
        exact ⟨e, rfl, htracks.named_iff.mpr hnamed⟩
  · rintro ⟨e, hpairs, hnamed⟩
    obtain ⟨⟨s, hfill, htracks⟩, -⟩ := hload.of_eq_ok hpairs
    exact ⟨s, hfill, htracks.named_iff.mp hnamed⟩

/-- The loop over the pairs ends behind them. -/
theorem loadPairs_end {r : Nat × Priv} (hts : ∀ t ∈ ts, Readable buf t)
    (hin : ∀ t ∈ ts, t.start < buf.length)
    (h : loadPairs buf ts n i (.zero _) = .ok (some r)) : r.1 = i + 2 * n :=
  ((loadPairs_fill hts hin tracks_zero n i).of_eq_ok h).2 r rfl

/-- **The loop over the array ends well exactly when its elements pass.** -/
theorem loaded_iff (hts : ∀ t ∈ ts, Readable buf t) (hin : ∀ t ∈ ts, t.start < buf.length) :
    (∃ es, Loaded callocNode buf ts m i es true) ↔ ElementsPass callocNode buf ts m i := by
  constructor
  · rintro ⟨es, h⟩
    generalize hok : true = ok at h
    induction h with
    | finished => exact trivial
    | left ht hobject =>
      refine ⟨lt_of_tokenAt ht, fun hno => absurd hno ?_⟩
      rw [getD_of_tokenAt ht]
      exact hobject
    | badPair => cases hok
    | refused => cases hok
    | record ht hobject hpairs hcalloc hnamed _ ih =>
      have hj := loadPairs_end hts hin hpairs
      dsimp only at hj
      refine ⟨lt_of_tokenAt ht, fun _ => ⟨(recordPasses_iff hts hin).mpr ?_, hcalloc, ?_⟩⟩
      · rw [getD_of_tokenAt ht, ← hj]
        exact ⟨_, hpairs, hnamed⟩
      · rw [getD_of_tokenAt ht, ← hj]
        exact ih hok
  · intro h
    induction m generalizing i with
    | zero => exact ⟨[], .finished⟩
    | succ m ih =>
      obtain ⟨hi, hpasses⟩ := h
      by_cases hobject : (ts.getD i .zero).type = .JSMN_OBJECT
      · obtain ⟨hrecord, hcalloc, hrest⟩ := hpasses hobject
        obtain ⟨e, hpairs, hnamed⟩ := (recordPasses_iff hts hin).mp hrecord
        obtain ⟨es, hes⟩ := ih hrest
        exact ⟨e :: es, .record (tokenAt_of_lt hi) hobject hpairs hcalloc hnamed hes⟩
      · exact ⟨[], .left (tokenAt_of_lt hi) hobject⟩

/-- The comparison goes as far as the key does. -/
theorem isEmployees_iff (hv : NUL ∉ v) : isEmployees v = .ok true ↔ v <+: ascii "Employees" := by
  have hnine : ascii "Employees" = employees.take 9 := by decide
  constructor
  · intro h
    unfold isEmployees at h
    split at h
    · have heq : v = employees.take v.length := by simpa using h
      have hlen : v.length ≤ 9 := by
        by_contra hlong
        -- the literal ends in a NUL
        have hall : employees.take v.length = employees :=
          List.take_of_length_le (show 10 ≤ v.length by omega)
        rw [heq, hall] at hv
        exact hv (by decide)
      rw [hnine, heq]
      exact List.take_prefix_take_left hlen
    · split at h <;> cases h
  · intro h
    have hlen : v.length ≤ 9 := h.length_le
    have hprefix : v <+: employees := h.trans (hnine ▸ List.take_prefix 9 employees)
    rw [isEmployees, if_pos (Nat.le_trans hlen (by decide)), ← List.prefix_iff_eq_take.mp hprefix]
    simp

theorem headAccepted_iff (hr : Readable buf (ts.getD 1 .zero)) :
    HeadAccepted buf ts ↔ (ts.getD 0 .zero).type = .JSMN_OBJECT ∧
      valueOf buf (ts.getD 1 .zero) <+: ascii "Employees" ∧
      (ts.getD 2 .zero).type = .JSMN_ARRAY := by
  have htext : textOf buf (ts.getD 1 .zero) = .ok (valueOf buf (ts.getD 1 .zero)) := if_pos hr.inBuf
  have hkey : (textOf buf (ts.getD 1 .zero) >>= isEmployees) = .ok true ↔
      valueOf buf (ts.getD 1 .zero) <+: ascii "Employees" := by
    rw [bind_of_ok htext]
    exact isEmployees_iff hr.noNul
  rw [← hkey]
  exact ⟨fun h => ⟨h.object, h.key, h.array⟩, fun h => ⟨h.1, h.2.1, h.2.2⟩⟩

/-- **A document passes exactly when its head is accepted and all its records are loaded.** -/
theorem documentPasses_iff (hts : ∀ t ∈ ts, Readable buf t)
    (hin : ∀ t ∈ ts, t.start < buf.length) : DocumentPasses callocNode buf ts ↔
      HeadAccepted buf ts ∧ ∃ es, Loaded callocNode buf ts (arraySize ts) 3 es true := by
  have hkey : Readable buf (ts.getD 1 .zero) :=
    readable_tokenAt hts (tokenAt_of_lt (show 1 < MAX_TOKENS by decide))
  rw [headAccepted_iff hkey, loaded_iff hts hin]
  constructor
  · exact fun h => ⟨⟨h.object, h.key, h.array⟩, h.elements⟩
  · rintro ⟨⟨hobject, hname, harray⟩, helements⟩
    exact ⟨hobject, hname, harray, helements⟩

variable {jsmn : List UInt8 → Parsed} {file : FileAnswers} {filesize fd : Int} {data : List UInt8}

/-- A file that is read is loaded with `OK` when it has no token, or all its records are added. -/
theorem loadFrom_ok (hreads : file.Reads filesize fd data) (jsmn : List UInt8 → Parsed)
    (L L' : Ledger) : (∃ fds, loadFrom jsmn file L = .ok (OK, L', fds)) ↔
      (parsedOf jsmn filesize data).ret = 0 ∧ L' = L ∨ 1 ≤ (parsedOf jsmn filesize data).ret ∧
        HeadAccepted (bufOf filesize data) (parsedOf jsmn filesize data).tokens ∧
        ∃ es, Loaded file.callocNode (bufOf filesize data) (parsedOf jsmn filesize data).tokens
          (arraySize (parsedOf jsmn filesize data).tokens) 3 es true ∧ L' = withRecords L es := by
  obtain ⟨fd', hfrom⟩ := loadFrom_of_reads hreads jsmn L
  rw [hfrom, parseAndLoad_eq]
  by_cases hret : (parsedOf jsmn filesize data).ret < 1
  · rw [if_pos hret]
    constructor
    · rintro ⟨fds, hload⟩
      have hresult := Except.ok.inj hload
      exact .inl ⟨congrArg Prod.fst hresult, (congrArg (·.2.1) hresult).symm⟩
    · intro h
      obtain ⟨hzero, rfl⟩ := h.resolve_right fun hno => absurd hret (not_lt.mpr hno.1)
      rw [hzero]
      exact ⟨_, rfl⟩
  · have hpos := not_lt.mp hret
    rw [if_neg hret]
    constructor
    · rintro ⟨fds, hload⟩
      obtain ⟨⟨ok, L₁⟩, hdoc, hload⟩ := of_bind_eq_ok hload
      cases ok with
      | false =>
        have hzero : (parsedOf jsmn filesize data).ret = 0 := congrArg Prod.fst (Except.ok.inj hload)
        omega
      | true =>
        cases hload
        have hhead : HeadAccepted (bufOf filesize data) (parsedOf jsmn filesize data).tokens := by
          by_contra hno
          cases (loadDocument_of_not_head hno file.callocNode L).of_eq_ok hdoc
        rw [loadDocument_of_head hhead] at hdoc
        obtain ⟨es, hes, hL'⟩ := (loadRecords_iff L _).mp hdoc
        exact .inr ⟨hpos, hhead, es, hes, hL'⟩
    · intro h
      obtain ⟨-, hhead, es, hes, rfl⟩ := h.resolve_left fun hzero => by omega
      rw [loadDocument_of_head hhead, bind_of_ok ((loadRecords_iff L _).mpr ⟨es, hes, rfl⟩)]
      exact ⟨_, rfl⟩

/-- **A file that is read is loaded with `OK` exactly when it has no token, or passes.** -/
theorem loadFrom_ok_iff (hj : Tokenizer jsmn) (hreads : file.Reads filesize fd data)
    (L : Ledger) : (∃ L' fds, loadFrom jsmn file L = .ok (OK, L', fds)) ↔
      (parsedOf jsmn filesize data).ret = 0 ∨ 1 ≤ (parsedOf jsmn filesize data).ret ∧
        DocumentPasses file.callocNode (bufOf filesize data)
          (parsedOf jsmn filesize data).tokens := by
  constructor
  · rintro ⟨L', hload⟩
    rcases (loadFrom_ok hreads jsmn L L').mp hload with ⟨hzero, -⟩ | ⟨hpos, hhead, es, hes, -⟩
    · exact .inl hzero
    · exact .inr ⟨hpos, (documentPasses_iff (hj.readable hpos) (hj.inside hpos)).mpr ⟨hhead, es, hes⟩⟩
  · rintro (hzero | ⟨hpos, hpasses⟩)
    · exact ⟨L, (loadFrom_ok hreads jsmn L L).mpr (.inl ⟨hzero, rfl⟩)⟩
    · obtain ⟨hhead, es, hes⟩ :=
        (documentPasses_iff (hj.readable hpos) (hj.inside hpos)).mp hpasses
      exact ⟨_, (loadFrom_ok hreads jsmn L _).mpr (.inr ⟨hpos, hhead, es, hes, rfl⟩)⟩

/-! A document of one record. -/

def oneRecord : List UInt8 := ascii "\x7b\"Employees\":[\x7b\"Name\":\"A\"\x7d]\x7d"

def oneRecordTokens : List Tok :=
  [tok .JSMN_OBJECT 0 28 1, tok .JSMN_STRING 2 9 1, tok .JSMN_ARRAY 13 14 1,
    tok .JSMN_OBJECT 14 12 1, tok .JSMN_STRING 16 4 1, tok .JSMN_STRING 23 1 0]

theorem readable_oneRecord : ∀ t ∈ oneRecordTokens, Readable oneRecord t := by
  have hin : ∀ t ∈ oneRecordTokens, t.stop ≤ oneRecord.length := by decide +kernel
  have hno : ∀ t ∈ oneRecordTokens, NUL ∉ valueOf oneRecord t := by decide +kernel
  exact fun t ht => ⟨hin t ht, hno t ht⟩

end TaskLedger
end Labs
