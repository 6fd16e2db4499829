import Labs.TaskLedger.Grammar

/-!
# Which documents are loaded

`load_from` reads the document and fills its records in one pass. What it is to accept is
`IsEmployees`, said of the tokens by where they stand: an object and nothing behind it, whose
first key is `Employees` with an array, whose elements are objects of at most five strings and of
ages.

What it does accept is more (`LetThrough`, by the grammar of `Grammar`): the bytes of the key are
compared only as far as they go, the number of values of a key and the tokens attached to a value
are not looked at, an element that is no object ends the loop without an error, a number that cannot
be read leaves the age as it was, and where the tokenizer finds no token its result, which is `OK`,
is returned. `Lax` has one constructor for each of these. Both are said of the document alone, and
the result is that a document that has none of the faults, or is refused for another reason, is
treated as it should be, and no other one is (`only_employees_iff`).

## Faults and refusals

A fault alone does no harm: a document with a fault may still be refused, because of something else.
So the result is not that faults are let through, but which documents are: those that pass and have
one. Both parts are said of the tokens, and neither mentions the code.

In one direction the argument is short, since a document of employees has no fault
(`IsEmployees.not_lax`). In the other one the loop has to be read backwards: what has passed, and
has none of the faults, is a document of employees. The types of keys and values are checked on the
way (`loadPairs_pass`); that there are at most five strings is not checked anywhere, and follows
from the fields. Each string takes at least one that was free, and there are five
(`taken_put_text`).

What is added is compared with what should be, record by record: an entry for each element, made by
its values in their order.
-/

namespace Labs
namespace TaskLedger

open Lib

/-! ## 1. The documents -/

/-- The text is an integer that is not negative, and nothing else. -/
def isAge (text : List UInt8) : Bool :=
  match scanInt text with
  | (some x, []) => 0 ≤ x
  | _ => false

structure IsPair (buf : List UInt8) (key value : Tok) : Prop where
  keyType : key.type = .JSMN_STRING
  oneValue : key.size = 1
  alone : value.size = 0
  valueType : value.type = .JSMN_STRING ∨
    value.type = .JSMN_PRIMITIVE ∧ isAge (valueOf buf value) = true

/-- The strings among the values. -/
def strings (ps : List (Tok × Tok)) : Nat := ps.countP fun p => p.2.type = .JSMN_STRING

structure IsRecord (buf : List UInt8) (r : Element) : Prop where
  object : r.object.type = .JSMN_OBJECT
  pairs : ∀ p ∈ r.pairs, IsPair buf p.1 p.2
  strings : strings r.pairs ≤ 5

structure IsEmployees (buf : List UInt8) (ts : List Tok) : Prop where
  object : (ts.getD 0 .zero).type = .JSMN_OBJECT
  whole : ∀ t ∈ ts, t.stop ≤ (ts.getD 0 .zero).stop
  key : (ts.getD 1 .zero).type = .JSMN_STRING
  name : valueOf buf (ts.getD 1 .zero) = ascii "Employees"
  oneValue : (ts.getD 1 .zero).size = 1
  array : (ts.getD 2 .zero).type = .JSMN_ARRAY
  records : ∀ r ∈ elements ts, IsRecord buf r

/-- The values of a record, loaded one after the other. -/
def loadValues (buf : List UInt8) : List Tok → Priv → Except Stop (Option Priv)
  | [], e => .ok (some e)
  | t :: ts, e => do
    match ← loadValue buf e t with
    | none => return none
    | some e => loadValues buf ts e

/-- The entry that is made of a record. -/
def Element.Makes (buf : List UInt8) (r : Element) (e : Priv) : Prop :=
  loadValues buf (r.pairs.map Prod.snd) (.zero _) = .ok (some e)

/-- The file is not empty: there is a size, and there are bytes to read. -/
def FileAnswers.NonEmpty (file : FileAnswers) : Prop :=
  (∀ filesize, file.stat = some filesize → 0 < filesize) ∧ file.read ≠ some []

/-- `load_from` returns `OK` only for a document of employees, and then every record has been
    added. -/
def OnlyEmployees (jsmn : List UInt8 → Parsed) (file : FileAnswers) (L : Ledger) : Prop :=
  ∀ L' fds, loadFrom jsmn file L = .ok (OK, L', fds) →
    ∃ filesize fd data, file.Reads filesize fd data ∧
      IsEmployees (bufOf filesize data) (parsedOf jsmn filesize data).tokens ∧
      ∃ es, List.Forall₂ (Element.Makes (bufOf filesize data))
        (elements (parsedOf jsmn filesize data).tokens) es ∧ L' = withRecords L es

/-! ## 2. What is let through -/

/-- The documents that are let through: those without a token, and those that pass. -/
def LetThrough (jsmn : List UInt8 → Parsed) (file : FileAnswers) (buf : List UInt8)
    (ts : List Tok) : Prop :=
  ∃ filesize fd data, file.Reads filesize fd data ∧ buf = bufOf filesize data ∧
    ts = (parsedOf jsmn filesize data).tokens ∧
    ((parsedOf jsmn filesize data).ret = 0 ∨ 1 ≤ (parsedOf jsmn filesize data).ret ∧
      DocumentPasses file.callocNode buf ts)

/-- What may be wrong with a document that passes. -/
inductive Lax (buf : List UInt8) (ts : List Tok) : Prop
  | blank (h : ts = [])
  | behind (t : Tok) (ht : t ∈ ts) (h : (ts.getD 0 .zero).stop < t.stop)
  | keyType (h : (ts.getD 1 .zero).type ≠ .JSMN_STRING)
  | shortName (h : valueOf buf (ts.getD 1 .zero) ≠ ascii "Employees")
  | keyValues (h : (ts.getD 1 .zero).size ≠ 1)
  | element (r : Element) (hr : r ∈ elements ts) (h : r.object.type ≠ .JSMN_OBJECT)
  | severalValues (r : Element) (hr : r ∈ elements ts) (p : Tok × Tok) (hp : p ∈ r.pairs)
      (h : p.1.size ≠ 1)
  | attached (r : Element) (hr : r ∈ elements ts) (p : Tok × Tok) (hp : p ∈ r.pairs)
      (h : p.2.size ≠ 0)
  | primitive (r : Element) (hr : r ∈ elements ts) (p : Tok × Tok) (hp : p ∈ r.pairs)
      (ht : p.2.type = .JSMN_PRIMITIVE) (h : isAge (valueOf buf p.2) = false)

theorem IsEmployees.not_lax {buf : List UInt8} {ts : List Tok} (h : IsEmployees buf ts) :
    ¬ Lax buf ts := by
  intro hlax
  cases hlax with
  | blank hnil =>
    subst hnil
    exact absurd h.object (by simp [Tok.zero])
  | behind t ht hlt => exact absurd (h.whole t ht) (Nat.not_le.mpr hlt)
  | keyType hkey => exact hkey h.key
  | shortName hname => exact hname h.name
  | keyValues hsize => exact hsize h.oneValue
  | element r hr hobject => exact hobject (h.records r hr).object
  | severalValues r hr p hp hsize => exact hsize ((h.records r hr).pairs p hp).oneValue
  | attached r hr p hp hsize => exact hsize ((h.records r hr).pairs p hp).alone
  | primitive r hr p hp ht hage =>
    rcases ((h.records r hr).pairs p hp).valueType with hstring | ⟨-, hage'⟩
    · rw [ht] at hstring
      exact absurd hstring (by simp)
    · rw [hage] at hage'
      exact absurd hage' (by simp)

/-! ## 3. The fields that are taken -/

variable {buf : List UInt8} {ts : List Tok} {t : Tok} {e e' : Priv} {f : Field}
  {n i j m : Nat} {callocNode : Nat → Bool} {es : List Priv}

/-- The text fields that are not empty. -/
def taken (e : Priv) : Nat := textFields.countP fun f => first e f ≠ NUL

theorem taken_le (e : Priv) : taken e ≤ 5 := List.countP_le_length

theorem countP_lt {α : Type} {p q : α → Bool} {l : List α} {a : α} (ha : a ∈ l)
    (hpq : ∀ b ∈ l, p b = true → q b = true) (hp : p a = false) (hq : q a = true) :
    l.countP p + 1 ≤ l.countP q := by
  obtain ⟨us, vs, rfl⟩ := List.append_of_mem ha
  have hus : us.countP p ≤ us.countP q :=
    List.countP_mono_left fun b hb => hpq b (List.mem_append_left _ hb)
  have hvs : vs.countP p ≤ vs.countP q :=
    List.countP_mono_left fun b hb => hpq b (List.mem_append_right _ (List.mem_cons_of_mem _ hb))
  simp only [List.countP_append, List.countP_cons, hp, hq, Bool.false_eq_true, if_true, if_false]
  omega

/-- A string takes one field more, at least. -/
theorem taken_put_text (hf : emptyField e = some f) {v : List UInt8} (hv : NUL ∉ v)
    (hput : put e f.offset (written v ++ terminator v) = .ok e') : taken e + 1 ≤ taken e' := by
  obtain ⟨hmem, hfirst⟩ := emptyField_mem hf
  refine countP_lt hmem (fun g hg htaken => ?_) (by simp [hfirst])
    (by simpa using first_put_text hv hput)
  by_cases hne : f = g
  · subst hne
    simpa using first_put_text hv hput
  · rcases put_text_beside hmem hg hne hv hput with hsame | hover
    · simpa [first_of_read (size_pos g hg) hsame] using htaken
    · simpa using hover

theorem taken_putAge {bs : List UInt8} (hput : put e Field.age.offset bs = .ok e') :
    taken e' = taken e := by
  have hbefore : ∀ g ∈ textFields, g.offset + g.size ≤ Field.age.offset := by decide
  refine List.countP_congr fun g hg => ?_
  have hsame := Block.read_write_before (write_of_put hput) (hbefore g hg)
  rw [first_of_read (size_pos g hg) hsame]

theorem scanAge_taken (e : Priv) (text : List UInt8) :
    Ends (scanAge e text) (fun _ => True) fun e' => taken e' = taken e := by
  unfold scanAge
  split
  · exact (Ends.self _).mono (fun _ h => h) fun e' hput => taken_putAge hput
  · rfl

/-- What a value that is loaded is: a string, for which a field has been taken, or a primitive. -/
def Took (t : Tok) (e e' : Priv) : Prop :=
  t.type = .JSMN_STRING ∧ taken e + 1 ≤ taken e' ∨
    t.type = .JSMN_PRIMITIVE ∧ taken e ≤ taken e'

theorem loadValue_took (hr : Readable buf t) :
    Ends (loadValue buf e t) (fun _ => True) fun r => ∀ e', r = some e' → Took t e e' := by
  have hnone : ∀ e', none = some e' → Took t e e' := fun e' h => absurd h (by simp)
  have hsome : ∀ e₁, Took t e e₁ → ∀ e', some e₁ = some e' → Took t e e' := by
    intro e₁ he₁ e' heq
    cases heq
    exact he₁
  cases ht : t.type with
  | JSMN_STRING =>
    cases hf : emptyField e with
    | none =>
      rw [loadValue_no_field ht hf]
      exact hnone
    | some f =>
      rw [loadValue_string ht hr.inBuf hf]
      refine (Ends.self _).bind fun e₁ hput => ?_
      exact hsome e₁ (.inl ⟨ht, taken_put_text hf hr.noNul hput⟩)
  | JSMN_PRIMITIVE =>
    unfold loadValue
    rw [ht]
    refine Ends.skip _ fun text => (scanAge_taken e text).bind fun e₁ he₁ => ?_
    split
    · exact hnone
    · exact hsome e₁ (.inr ⟨ht, Nat.le_of_eq he₁.symm⟩)
  | _ =>
    unfold loadValue
    rw [ht]
    exact hnone

/-! ## 4. What has been let through -/

/-- The pairs that are let through: strings for keys, and values that are strings or primitives,
    of which no more strings than there were empty fields. -/
structure PairsPass (buf : List UInt8) (ps : List (Tok × Tok)) (e e' : Priv) : Prop where
  keys : ∀ p ∈ ps, p.1.type = .JSMN_STRING
  values : ∀ p ∈ ps, p.2.type = .JSMN_STRING ∨ p.2.type = .JSMN_PRIMITIVE
  load : loadValues buf (ps.map Prod.snd) e = .ok (some e')
  room : taken e + strings ps ≤ taken e'

theorem loadPairs_pass (hts : ∀ t ∈ ts, Readable buf t)
    (h : loadPairs buf ts n i e = .ok (some (j, e'))) :
    j = i + 2 * n ∧ PairsPass buf (pairsAt ts n i) e e' := by
  induction n generalizing i e with
  | zero =>
    cases h
    exact ⟨rfl, fun p hp => absurd hp List.not_mem_nil, fun p hp => absurd hp List.not_mem_nil,
      rfl, Nat.le_refl _⟩
  | succ n ih =>
    rw [loadPairs] at h
    obtain ⟨key, hkey, h⟩ := of_bind_eq_ok h
    split at h
    · rename_i hpair
      obtain ⟨value, hvalue, h⟩ := of_bind_eq_ok h
      obtain ⟨r, hload, h⟩ := of_bind_eq_ok h
      cases r with
      | none => exact absurd h (by simp [pure, Except.pure])
      | some e₁ =>
        obtain ⟨hj, hpass⟩ := ih h
        have htook := (loadValue_took (readable_tokenAt hts hvalue)).of_eq_ok hload e₁ rfl
        refine ⟨by omega, ?_⟩
        rw [pairsAt, getD_of_tokenAt hkey, getD_of_tokenAt hvalue]
        refine ⟨List.forall_mem_cons.mpr ⟨hpair.1, hpass.keys⟩,
          List.forall_mem_cons.mpr ⟨htook.imp And.left And.left, hpass.values⟩, ?_, ?_⟩
        · rw [List.map_cons, loadValues, bind_of_ok hload]
          exact hpass.load
        · have hroom := hpass.room
          rcases htook with ⟨ht, hmore⟩ | ⟨ht, hmore⟩
          · simp only [strings, List.countP_cons, ht, decide_true, if_true] at hroom ⊢
            omega
          · have hcount : strings ((key, value) :: pairsAt ts n (i + 2)) =
                strings (pairsAt ts n (i + 2)) := by
              simp [strings, ht]
            rw [hcount]
            omega
    · exact absurd h (by simp [pure, Except.pure])

/-- The records that are let through, when all the elements are objects. -/
theorem Loaded.pass {ok : Bool} (h : Loaded callocNode buf ts m i es ok) (hok : ok = true)
    (hts : ∀ t ∈ ts, Readable buf t)
    (hobjects : ∀ r ∈ elementsAt ts m i, r.object.type = .JSMN_OBJECT) :
    List.Forall₂ (Element.Makes buf) (elementsAt ts m i) es ∧
      ∀ r ∈ elementsAt ts m i, ∃ e, PairsPass buf r.pairs (.zero _) e := by
  induction h with
  | finished => exact ⟨.nil, fun r hr => absurd hr List.not_mem_nil⟩
  | left ht hobject =>
    have hfirst := hobjects _ List.mem_cons_self
    rw [getD_of_tokenAt ht] at hfirst
    exact absurd hfirst hobject
  | badPair => exact absurd hok (by simp)
  | refused => exact absurd hok (by simp)
  | record ht hobject hpairs _ _ _ ih =>
    obtain ⟨hj, hpass⟩ := loadPairs_pass hts hpairs
    obtain ⟨-, hrest⟩ := List.forall_mem_cons.mp hobjects
    rw [getD_of_tokenAt ht, ← hj] at hrest
    obtain ⟨hmakes, hall⟩ := ih hok hrest
    rw [elementsAt, getD_of_tokenAt ht, ← hj]
    exact ⟨.cons hpass.load hmakes, List.forall_mem_cons.mpr ⟨⟨_, hpass⟩, hall⟩⟩

/-- A document that is let through, and has none of the faults, is one of employees. -/
theorem isEmployees_of_loaded (hts : ∀ t ∈ ts, Readable buf t) (hhead : HeadAccepted buf ts)
    (h : Loaded callocNode buf ts (arraySize ts) 3 es true) (hlax : ¬ Lax buf ts) :
    IsEmployees buf ts ∧ List.Forall₂ (Element.Makes buf) (elements ts) es := by
  have hobjects : ∀ r ∈ elements ts, r.object.type = .JSMN_OBJECT :=
    fun r hr => by_contra fun hno => hlax (.element r hr hno)
  obtain ⟨hmakes, hpass⟩ := h.pass rfl hts hobjects
  refine ⟨⟨hhead.object, ?_, ?_, ?_, ?_, hhead.array, fun r hr => ⟨hobjects r hr, ?_, ?_⟩⟩, hmakes⟩
  · intro t ht
    exact Nat.not_lt.mp fun hlt => hlax (.behind t ht hlt)
  · exact by_contra fun hno => hlax (.keyType hno)
  · exact by_contra fun hno => hlax (.shortName hno)
  · exact by_contra fun hno => hlax (.keyValues hno)
  · intro p hp
    obtain ⟨e, hpass⟩ := hpass r hr
    refine ⟨hpass.keys p hp, ?_, ?_, ?_⟩
    · exact by_contra fun hno => hlax (.severalValues r hr p hp hno)
    · exact by_contra fun hno => hlax (.attached r hr p hp hno)
    · refine (hpass.values p hp).imp_right fun hprim => ⟨hprim, ?_⟩
      by_contra hno
      exact hlax (.primitive r hr p hp hprim (Bool.eq_false_of_not_eq_true hno))
  · obtain ⟨e, hpass⟩ := hpass r hr
    have hroom := hpass.room
    have hfive := taken_le e
    omega

/-! ## 5. The result -/

variable {jsmn : List UInt8 → Parsed} {file : FileAnswers} {L L' : Ledger} {fds : List Int}

/-- A load of a file that is not empty returns `OK` only for what is let through. -/
theorem letThrough_of_ok (hne : file.NonEmpty) (h : loadFrom jsmn file L = .ok (OK, L', fds)) :
    ∃ filesize fd data, file.Reads filesize fd data ∧
      ((parsedOf jsmn filesize data).ret = 0 ∨ 1 ≤ (parsedOf jsmn filesize data).ret ∧
        HeadAccepted (bufOf filesize data) (parsedOf jsmn filesize data).tokens ∧
        ∃ es, Loaded file.callocNode (bufOf filesize data) (parsedOf jsmn filesize data).tokens
          (arraySize (parsedOf jsmn filesize data).tokens) 3 es true ∧ L' = withRecords L es) := by
  rcases loadFrom_cases jsmn file L with ⟨-, fds', hload⟩ | ⟨hread, hno, -⟩ |
    ⟨filesize, fd, data, hreads, hload⟩
  · cases h.symm.trans hload
  · exfalso
    simp only [FileAnswers.Unreadable, not_or, not_exists, not_and] at hread
    obtain ⟨hname, hstat, hcalls⟩ := hread
    obtain ⟨filesize, hsize⟩ := Option.ne_none_iff_exists'.mp hstat
    obtain ⟨hcalloc, hopen, hdata⟩ := hcalls filesize hsize (hne.1 _ hsize)
    obtain ⟨fd, hfd⟩ := Option.ne_none_iff_exists'.mp hopen
    obtain ⟨data, hdata⟩ := Option.ne_none_iff_exists'.mp hdata
    refine hno filesize fd data ⟨by simpa using hname, hsize, hne.1 _ hsize, by simpa using hcalloc,
      hfd, hdata, ?_⟩
    rintro rfl
    exact hne.2 hdata
  · refine ⟨filesize, fd, data, hreads, ?_⟩
    exact ((loadFrom_ok hreads jsmn L L').mp ⟨fds, h⟩).imp_left And.left

/-- **`load_from` returns `OK` only for documents of employees, with all their records added,
    exactly if the document is not one that has a fault of `Lax` and is let through.** -/
theorem only_employees_iff (hj : Tokenizer jsmn) (hne : file.NonEmpty) (L : Ledger) :
    OnlyEmployees jsmn file L ↔ ∀ buf ts, LetThrough jsmn file buf ts → ¬ Lax buf ts := by
  constructor
  · rintro h buf ts hthrough
    obtain ⟨filesize, fd, data, hreads, rfl, rfl, hpasses⟩ := hthrough
    obtain ⟨L', fds, hload⟩ := (loadFrom_ok_iff hj hreads L).mpr hpasses
    obtain ⟨filesize', fd', data', hreads', hdoc, -⟩ := h L' fds hload
    obtain ⟨rfl, rfl⟩ := hreads.unique hreads'
    exact hdoc.not_lax
  · intro h L' fds hload
    obtain ⟨filesize, fd, data, hreads, hcases⟩ := letThrough_of_ok hne hload
    refine ⟨filesize, fd, data, hreads, ?_⟩
    rcases hcases with hzero | ⟨hpos, hhead, es, hes, hL'⟩
    · have hlax := h _ _ ⟨filesize, fd, data, hreads, rfl, rfl, .inl hzero⟩
      have hcount := hj.count _ (Int.le_of_eq hzero.symm)
      refine absurd (.blank (List.length_eq_zero_iff.mp ?_)) hlax
      show (parsedOf jsmn filesize data).tokens.length = 0
      have hret : (((parsedOf jsmn filesize data).tokens.length : Nat) : Int) = 0 :=
        hcount.trans hzero
      exact_mod_cast hret
    · have hpasses := (documentPasses_iff (hj.readable hpos) (hj.inside hpos)).mpr ⟨hhead, es, hes⟩
      have hlax := h _ _ ⟨filesize, fd, data, hreads, rfl, rfl, .inr ⟨hpos, hpasses⟩⟩
      obtain ⟨hdoc, hmakes⟩ := isEmployees_of_loaded (hj.readable hpos) hhead hes hlax
      exact ⟨hdoc, es, hmakes, hL'⟩

theorem isEmployees_oneRecord : IsEmployees (oneRecord ++ [NUL]) oneRecordTokens := by
  refine ⟨rfl, by decide, rfl, by decide +kernel, rfl, rfl, fun r hr => ?_⟩
  have hr : r ∈ [Element.mk (tok .JSMN_OBJECT 14 12 1)
      [(tok .JSMN_STRING 16 4 1, tok .JSMN_STRING 23 1 0)]] := hr
  rw [List.mem_singleton.mp hr]
  refine ⟨rfl, fun p hp => ?_, by decide⟩
  rw [List.mem_singleton.mp hp]
  exact ⟨rfl, rfl, rfl, .inl rfl⟩

theorem holding_nonEmpty {text : List UInt8} {fd : Int} (h : text ≠ []) :
    FileAnswers.NonEmpty (.holding text fd) := by
  refine ⟨fun filesize hsize => ?_, fun hnil => h (Option.some.inj hnil)⟩
  cases hsize
  exact_mod_cast List.length_pos_iff.mpr h

theorem only_employees_iff_oneRecord :
    OnlyEmployees (parsing oneRecord oneRecordTokens) (.holding oneRecord 3) (initObj 0) := by
  refine (only_employees_iff (tokenizer_parsing readable_oneRecord) (holding_nonEmpty (by decide +kernel))
    (initObj 0)).mpr fun buf ts hthrough => ?_
  obtain ⟨filesize, fd, data, hreads, rfl, rfl, -⟩ := hthrough
  cases hreads.stat
  cases hreads.read
  rw [parsedOf_parsing, (bufOf_text oneRecord).1]
  exact isEmployees_oneRecord.not_lax

/-! A document with a key that is the first letter of the right one. -/

def shortKey : List UInt8 := ascii "\x7b\"E\":[]\x7d"

def shortKeyTokens : List Tok :=
  [tok .JSMN_OBJECT 0 8 1, tok .JSMN_STRING 2 1 1, tok .JSMN_ARRAY 5 2 0]

theorem short_key_accepted :
    ¬ OnlyEmployees (parsing shortKey shortKeyTokens) (.holding shortKey 3) (initObj 0) := by
  intro h
  have hhead : HeadAccepted (shortKey ++ [NUL]) shortKeyTokens := ⟨rfl, by decide +kernel, rfl⟩
  have hload : loadFrom (parsing shortKey shortKeyTokens) (.holding shortKey 3) (initObj 0) =
      .ok (OK, initObj 0, [3]) := by
    show parseAndLoad (parsing shortKey shortKeyTokens) (fun _ => true) shortKey.length 3 shortKey
      (initObj 0) = _
    rw [parseAndLoad_eq, parsedOf_parsing, (bufOf_text shortKey).1, if_neg (by decide),
      loadDocument_of_head hhead]
    rfl
  obtain ⟨filesize, fd, data, hreads, hdoc, -⟩ := h _ _ hload
  cases hreads.stat
  cases hreads.read
  have hname := hdoc.name
  rw [parsedOf_parsing, (bufOf_text shortKey).1] at hname
  exact absurd hname (by decide +kernel)

end TaskLedger
end Labs
