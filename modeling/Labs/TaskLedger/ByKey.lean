import Labs.TaskLedger.Add
import Labs.TaskLedger.Pairs

/-!
# Loading fields by key

The texts of a record are loaded in the order in which they stand in the file (`HoldsTexts`). So a
record is loaded as its keys say exactly when its texts stand in the order of the fields
(`Record.InOrder`), and its age is an `int`. A document is loaded so when every record is, when
`jsmn_parse` has room for its tokens, and when the counter does not leave its range
(`load_from_by_key_iff`).

## The shape of the result

A load changes a ledger, so `LoadedByKey` says all of it: the result of `load_from`, the list, the
counter, and the entry of each record. The list is the records in reverse, as each is put in front
of the one before.

The condition has three parts, and none of them is about the program: the texts of each record stand
in the order of the fields, each age is an `int`, and there is room for the tokens and on the
counter. That they are enough is the loop of `Pairs` for each record. That they are needed is shown
from the result backwards: if every value is in the field of its key, the fields also have the texts
in the order of the record (`HoldsTexts`), so both orders are the same. An empty text is stored as
`nil`, so `InOrder` compares texts as they are written, and two equal texts may change places.

`jsmn` is a parameter. What is assumed of it is the sequence of tokens of such a document, which
`Document` writes down together with the text.
-/

namespace Labs
namespace TaskLedger

open Lib

def Member.HeldBy (m : Member) (e : Priv) : Prop :=
  if m.key = .age then ageOf e = digitsValue m.value
  else cstr (e.read m.key.field.offset m.key.field.size) = written m.value

/-- Every value is in the field of its key. -/
def Record.HeldBy (r : Record) (e : Priv) : Prop := ∀ m ∈ r.members, m.HeldBy e

/-- The value of a key. -/
def Record.valueOf (r : Record) (k : Key) : List UInt8 :=
  ((r.members.find? (·.key = k)).map Member.value).getD []

/-- The texts stand in the order of the fields they belong to. -/
def Record.InOrder (r : Record) : Prop :=
  writtenTexts r.members = Key.texts.map fun k => written (r.valueOf k)
deriving Decidable

/-- The age is an `int`. -/
def Record.AgeFits (r : Record) : Prop := (digitsValue (r.valueOf .age) : Int) ≤ INT_MAX
deriving Decidable

/-- The new list is the records in reverse order and the old list, the counter has grown by
    their number, and every value is in the field of its key. -/
def LoadedByKey (doc : Document) (xs : List (Addr × Priv)) (result : Except Stop LoadResult) :
    Prop :=
  ∃ L' closed as, result = .ok (OK, L', closed) ∧ Chain L'.heap L'.head (as.reverse ++ xs) none ∧
    L'.entryTotal = xs.length + doc.records.length ∧
    List.Forall₂ (fun r a => r.HeldBy a.2) doc.records as

/-- The answers for a file with this text, when no call fails. -/
def FileAnswers.holding (text : List UInt8) (fd : Int) : FileAnswers :=
  { filename := true
    stat := some text.length
    callocBuf := true
    openFd := some fd
    read := some text
    callocNode := fun _ => true }

variable {buf rest : List UInt8} {off i j : Nat} {m : Member} {ms : List Member} {r : Record}
  {e : Priv} {f : Field} {ts tail : List Tok}

/-! ## 1. One record -/

theorem Record.keys_nodup (r : Record) : (r.members.map Member.key).Nodup :=
  r.keys.nodup_iff.mpr (by decide)

theorem Record.valueOf_key (hm : m ∈ r.members) : r.valueOf m.key = m.value := by
  cases hfind : r.members.find? (·.key = m.key) with
  | none => exact absurd (List.find?_eq_none.mp hfind m hm) (by simp)
  | some m' =>
    have hkey : m'.key = m.key := by simpa using List.find?_some hfind
    have hsame : m' = m :=
      List.inj_on_of_nodup_map r.keys_nodup (List.mem_of_find?_eq_some hfind) hm hkey
    rw [Record.valueOf, hfind, hsame]
    rfl

theorem Record.exists_member (r : Record) (k : Key) : ∃ m ∈ r.members, m.key = k := by
  have hk : k ∈ r.members.map Member.key := r.keys.mem_iff.mpr (by cases k <;> decide)
  obtain ⟨m, hm, rfl⟩ := List.mem_map.mp hk
  exact ⟨m, hm, rfl⟩

theorem Record.length_texts (r : Record) :
    (writtenTexts r.members).length = textFields.length := by
  have hkeys : (writtenTexts r.members).length =
      ((r.members.map Member.key).filter (· ≠ .age)).length := by
    rw [writtenTexts, List.length_map, List.filter_map, List.length_map]
    rfl
  rw [hkeys, (r.keys.filter _).length_eq]
  rfl

/-- The key of each text field. -/
theorem key_of_field {k : Nat} (hf : textFields[k]? = some f) :
    ∃ key, Key.texts[k]? = some key ∧ key ≠ .age ∧ key.field = f := by
  have hmap : textFields = Key.texts.map Key.field := rfl
  rw [hmap, List.getElem?_map] at hf
  obtain ⟨key, hkey, rfl⟩ := Option.map_eq_some_iff.mp hf
  have hne : ∀ key ∈ Key.texts, key ≠ .age := by decide
  exact ⟨key, hkey, hne key (List.mem_of_getElem? hkey), rfl⟩

theorem field_of_key {k : Key} (hk : k ≠ .age) : ∃ i : Nat, Key.texts[i]? = some k ∧
    textFields[i]? = some k.field := by
  have hmem : k ∈ Key.texts := by
    cases k with
    | age => exact absurd rfl hk
    | _ => decide
  obtain ⟨i, hi⟩ := List.mem_iff_getElem?.mp hmem
  exact ⟨i, hi, by rw [show textFields = Key.texts.map Key.field from rfl, List.getElem?_map, hi]; rfl⟩

/-- Where the record is in order, the `k`-th text is the one of the `k`-th field. -/
theorem Record.InOrder.getD {k : Nat} {key : Key} (h : r.InOrder) (hk : Key.texts[k]? = some key) :
    (writtenTexts r.members).getD k [] = written (r.valueOf key) := by
  rw [h, List.getD_eq_getElem?_getD, List.getElem?_map, hk]
  rfl

theorem Record.InOrder.fits (h : r.InOrder) :
    ∀ k f, textFields[k]? = some f → ((writtenTexts r.members).getD k []).length < f.size := by
  intro k f hf
  obtain ⟨key, hkey, hne, rfl⟩ := key_of_field hf
  obtain ⟨m, hm, rfl⟩ := r.exists_member key
  rw [h.getD hkey, Record.valueOf_key hm]
  exact (m.written_solid hne).2

theorem ageAfter_of_not_mem {a : Int} (h : Key.age ∉ ms.map Member.key) : ageAfter a ms = a := by
  induction ms generalizing a with
  | nil => rfl
  | cons m ms ih =>
    rw [List.map_cons, List.mem_cons, not_or] at h
    rw [ageAfter, List.foldl_cons, if_neg fun e => h.1 e.symm]
    exact ih h.2

theorem ageAfter_of_mem {a : Int} (hnd : (ms.map Member.key).Nodup) (hm : m ∈ ms)
    (hkey : m.key = .age) : ageAfter a ms = digitsValue m.value := by
  induction ms generalizing a with
  | nil => exact absurd hm List.not_mem_nil
  | cons m' ms ih =>
    rw [List.map_cons, List.nodup_cons] at hnd
    rw [ageAfter, List.foldl_cons]
    rcases List.mem_cons.mp hm with rfl | hm
    · rw [if_pos hkey]
      exact ageAfter_of_not_mem (hkey ▸ hnd.1)
    · exact ih hnd.2 hm

/-- What is in the field of a text. -/
theorem HoldsTexts.cstr_field {k : Nat} (h : HoldsTexts (writtenTexts r.members) e)
    (hf : textFields[k]? = some f) :
    cstr (e.read f.offset f.size) = ((writtenTexts r.members).getD k []).take f.size := by
  rw [h.held k f hf]
  refine cstr_padded ?_ _
  rw [List.getD_eq_getElem?_getD]
  cases hget : (writtenTexts r.members)[k]? with
  | none => exact List.not_mem_nil
  | some v =>
    obtain ⟨m, hm, rfl⟩ := List.mem_map.mp (List.mem_of_getElem? hget)
    exact (m.written_solid (by simpa using (List.mem_filter.mp hm).2)).1.2

/-- In order, every value is in the field of its key… -/
theorem Record.heldBy_of_inOrder (h : HoldsTexts (writtenTexts r.members) e) (hr : r.InOrder)
    (hage : ageOf e = digitsValue (r.valueOf .age)) : r.HeldBy e := by
  intro m hm
  unfold Member.HeldBy
  split
  · rename_i hkey
    rw [hage, ← hkey, Record.valueOf_key hm]
  · rename_i hkey
    obtain ⟨k, hk, hf⟩ := field_of_key hkey
    rw [h.cstr_field hf, hr.getD hk, Record.valueOf_key hm]
    exact List.take_of_length_le (Nat.le_of_lt (m.written_solid hkey).2)

/-- …and only then. -/
theorem Record.inOrder_of_heldBy (h : HoldsTexts (writtenTexts r.members) e) (hr : r.HeldBy e) :
    r.InOrder := by
  refine List.ext_getElem? fun k => ?_
  rcases Nat.lt_or_ge k textFields.length with hk | hk
  · have hf : textFields[k]? = some textFields[k] := List.getElem?_eq_getElem hk
    obtain ⟨key, hkey, hne, hfield⟩ := key_of_field hf
    obtain ⟨m, hm, rfl⟩ := r.exists_member key
    have hheld := hr m hm
    rw [Member.HeldBy, if_neg hne, hfield, h.cstr_field hf] at hheld
    -- the text is shorter than the field, so nothing was cut off
    have hlt := congrArg List.length hheld
    have hshort := (m.written_solid hne).2
    rw [hfield] at hshort
    rw [List.length_take] at hlt
    rw [List.take_of_length_le (by omega)] at hheld
    have hk' : k < (writtenTexts r.members).length := by
      rw [r.length_texts]
      exact hk
    rw [List.getElem?_map, hkey, Option.map_some, Record.valueOf_key hm, ← hheld,
      List.getD_eq_getElem _ _ hk', List.getElem?_eq_getElem hk']
  · rw [List.getElem?_eq_none (by rw [r.length_texts]; exact hk),
      List.getElem?_eq_none (by rw [List.length_map]; exact hk)]

theorem Record.ageFits_of_heldBy (hr : r.HeldBy e) : r.AgeFits := by
  obtain ⟨m, hm, hkey⟩ := r.exists_member .age
  have hheld := hr m hm
  rw [Member.HeldBy, if_pos hkey] at hheld
  rw [Record.AgeFits, ← hkey, Record.valueOf_key hm, ← hheld]
  exact (inRange_wrap32 _).2

/-! ## 2. The records of the array -/

variable {L L' : Ledger} {xs : List (Addr × Priv)} {rs : List Record}

/-- A record in the array: its object token, its members, and what is left behind it. -/
theorem drop_records (hbuf : buf.drop off = recordsText (r :: rs) ++ rest) :
    (∃ rest', buf.drop (r.inside off) = membersText r.members ++ rest') ∧
      buf.drop (off + r.text.length + (commas rs).length) = recordsText rs ++ rest := by
  have hin : buf.drop off = r.beforeObject.val ++ ([BRACE] ++ (membersText r.members ++
      (r.afterObject.val ++ (commas rs ++ (recordsText rs ++ rest))))) := by
    rw [hbuf, recordsText, Record.text]
    simp only [List.append_assoc, List.cons_append, List.nil_append]
  have hout : buf.drop off = r.text ++ (commas rs ++ (recordsText rs ++ rest)) := by
    rw [hbuf, recordsText]
    simp only [List.append_assoc]
  exact ⟨⟨_, drop_behind (drop_behind hin)⟩, drop_behind (drop_behind hout)⟩

/-- An entry with texts is not refused. -/
theorem named_of_holdsTexts (h : HoldsTexts (writtenTexts r.members) e) : unnamed e = false := by
  have hlen := r.length_texts
  have hname : textFields[0]? = some .name := rfl
  obtain ⟨v, hv⟩ : ∃ v, (writtenTexts r.members)[0]? = some v :=
    ⟨_, List.getElem?_eq_getElem (by rw [hlen]; decide)⟩
  obtain ⟨m, hm, rfl⟩ := List.mem_map.mp (List.mem_of_getElem? hv)
  have hsolid := (m.written_solid (by simpa using (List.mem_filter.mp hm).2)).1
  have hfirst := h.first_eq hname
  rw [List.getD_eq_getElem?_getD, hv, Option.getD_some] at hfirst
  have hne : (first e .name == NUL) = false := by
    rw [hfirst]
    exact beq_false_of_ne hsolid.headD_ne
  rw [unnamed, hne, Bool.false_and]

theorem add_begin (e : Priv) (h : unnamed e = false) :
    add true L (some e) .BEGIN [] = .ok (OK, insertBegin L e, []) := by
  show (if unnamed e then _ else _) = _
  rw [if_neg (by rw [h]; exact Bool.false_ne_true)]
  rfl

/-- What the loop over the array does with a record. -/
theorem loadRecords_cons (n : Nat) (L : Ledger) (buf : List UInt8) (hmax : ts.length ≤ MAX_TOKENS)
    (hts : ts.drop i = r.tokens off ++ tail) :
    ts.drop (i + 1) = membersTokens (r.inside off) r.members ++ tail ∧
      loadRecords (fun _ => true) buf ts (n + 1) i L =
        loadPairs buf ts r.members.length (i + 1) (.zero _) >>= fun
          | none => .ok (false, L)
          | some (j, e) => add true L (some e) .BEGIN [] >>= fun (ret, L, _) =>
            if ret = ERR then .ok (false, L)
            else loadRecords (fun _ => true) buf ts n j L := by
  obtain ⟨htok, htail⟩ := tokenAt_of_drop hmax hts
  refine ⟨htail, ?_⟩
  rw [loadRecords, bind_of_ok htok, if_neg (fun h => h rfl)]
  rfl

theorem loadRecords_step {n : Nat} {j : Nat} (hmax : ts.length ≤ MAX_TOKENS)
    (hts : ts.drop i = r.tokens off ++ tail)
    (hload : loadPairs buf ts r.members.length (i + 1) (.zero _) = .ok (some (j, e)))
    (he : HoldsTexts (writtenTexts r.members) e) :
    loadRecords (fun _ => true) buf ts (n + 1) i L =
      loadRecords (fun _ => true) buf ts n j (insertBegin L e) := by
  rw [(loadRecords_cons n L buf hmax hts).2, bind_of_ok hload]
  show add true L (some e) .BEGIN [] >>= _ = _
  rw [bind_of_ok (add_begin e (named_of_holdsTexts he))]
  rfl

theorem Record.room (r : Record) :
    ([] : List (List UInt8)).length + (writtenTexts r.members).length ≤ textFields.length := by
  rw [r.length_texts]
  exact Nat.le_of_eq (Nat.zero_add _)

/-- **Whatever is loaded, is loaded in the order of the file.** -/
theorem loadRecords_loaded (hmax : ts.length ≤ MAX_TOKENS)
    (hbuf : buf.drop off = recordsText rs ++ rest) (hts : ts.drop i = recordsTokens off rs)
    (hc : Chain L.heap L.head xs none)
    (hload : loadRecords (fun _ => true) buf ts rs.length i L = .ok (true, L')) :
    ∃ as, Chain L'.heap L'.head (as.reverse ++ xs) none ∧
      List.Forall₂ (fun r a => HoldsTexts (writtenTexts r.members) a.2) rs as ∧
      (rs ≠ [] → InRange32 L'.entryTotal) := by
  induction rs generalizing off i L xs with
  | nil =>
    cases hload
    exact ⟨[], hc, .nil, fun h => absurd rfl h⟩
  | cons r rs ih =>
    obtain ⟨⟨rest', hin⟩, hbuf'⟩ := drop_records hbuf
    obtain ⟨hpairs, hstep⟩ := loadRecords_cons rs.length L buf hmax hts
    rw [List.length_cons] at hload
    cases hp : loadPairs buf ts r.members.length (i + 1) (.zero _) with
    | error s =>
      rw [hstep, bind_of_error hp] at hload
      exact absurd hload (by simp)
    | ok loaded =>
      cases loaded with
      | none =>
        rw [hstep, bind_of_ok hp] at hload
        exact absurd hload (by simp)
      | some je =>
        obtain ⟨j, e⟩ := je
        obtain ⟨he, hts'⟩ := loadPairs_texts hmax hin hpairs (fun v hv => absurd hv (by simp))
          r.room holdsTexts_zero hp
        rw [List.nil_append] at he
        rw [loadRecords_step hmax hts hp he] at hload
        have hc' : Chain (insertBegin L e).heap (insertBegin L e).head
            ((L.heap.brk, e) :: xs) none := ⟨rfl, L.head, Function.update_self .., hc.alloc _⟩
        obtain ⟨as, hchain, hall, hrange⟩ := ih hbuf' hts' hc' hload
        refine ⟨(L.heap.brk, e) :: as, ?_, .cons he hall, fun _ => ?_⟩
        · rw [List.reverse_cons, List.append_assoc]
          exact hchain
        · cases rs with
          | nil =>
            cases hload
            exact inRange_wrap32 _
          | cons r' rs => exact hrange (List.cons_ne_nil _ _)

/-- **Records in order are loaded**, each with every value in the field of its key. -/
theorem loadRecords_inOrder (hmax : ts.length ≤ MAX_TOKENS)
    (hbuf : buf.drop off = recordsText rs ++ rest) (hts : ts.drop i = recordsTokens off rs)
    (hL : Holds L xs) (hsum : (xs.length + rs.length : Int) ≤ INT_MAX)
    (hr : ∀ r ∈ rs, r.InOrder ∧ r.AgeFits) :
    ∃ L' as, loadRecords (fun _ => true) buf ts rs.length i L = .ok (true, L') ∧
      Holds L' (as.reverse ++ xs) ∧ List.Forall₂ (fun r a => r.HeldBy a.2) rs as := by
  induction rs generalizing off i L xs with
  | nil => exact ⟨L, [], rfl, hL, .nil⟩
  | cons r rs ih =>
    obtain ⟨⟨rest', hin⟩, hbuf'⟩ := drop_records hbuf
    have hpairs := (loadRecords_cons rs.length L buf hmax hts).1
    obtain ⟨hr₁, hr'⟩ := List.forall_mem_cons.mp hr
    have hage : ∀ m ∈ r.members, m.key = .age → (digitsValue m.value : Int) ≤ INT_MAX := by
      intro m hm hkey
      rw [← Record.valueOf_key hm, hkey]
      exact hr₁.2
    obtain ⟨j, e, hp, hval⟩ := loadPairs_fits hmax hin hpairs (fun v hv => absurd hv (by simp))
      r.room holdsTexts_zero hr₁.1.fits hage
    obtain ⟨he, hts'⟩ := loadPairs_texts hmax hin hpairs (fun v hv => absurd hv (by simp))
      r.room holdsTexts_zero hp
    rw [List.nil_append] at he
    have hheld : r.HeldBy e := by
      obtain ⟨m, hm, hkey⟩ := r.exists_member .age
      refine r.heldBy_of_inOrder he hr₁.1 ?_
      rw [hval, ageAfter_of_mem r.keys_nodup hm hkey, ← hkey, Record.valueOf_key hm]
    rw [List.length_cons] at hsum
    obtain ⟨L', as, hload, hL', hall⟩ := ih hbuf' hts' (insertBegin_holds (e := e) hL (by omega))
      (by rw [List.length_cons]; omega) hr'
    refine ⟨L', (L.heap.brk, e) :: as, ?_, ?_, .cons hheld hall⟩
    · rw [List.length_cons, loadRecords_step hmax hts hp he]
      exact hload
    · rw [List.reverse_cons, List.append_assoc]
      exact hL'

/-! ## 3. The document -/

variable {doc : Document} {jsmn : List UInt8 → Parsed} {fd : Int}

theorem bufOf_text (text : List UInt8) :
    bufOf text.length text = text ++ [NUL] ∧ (bufOf text.length text).take text.length = text := by
  have hbuf : bufOf text.length text = text ++ [NUL] := by
    rw [bufOf, Int.toNat_natCast, List.replicate_succ, List.append_cons, List.take_left']
    simp
  exact ⟨hbuf, by rw [hbuf, List.take_left]⟩

theorem Document.tokens_pos (doc : Document) : 0 < doc.tokens.length := Nat.succ_pos _

theorem Document.text_eq (doc : Document) : doc.text = doc.frontName ++ (ascii "Employees" ++
    (doc.frontArray ++ ([BRACKET] ++ (doc.insideArray.val ++ (recordsText doc.records ++
      (doc.afterArray.val ++ BRACE_END :: doc.afterObject.val)))))) := by
  rw [Document.text, Document.arrayText]
  simp only [List.append_assoc, List.cons_append, List.nil_append]

/-- The head of the document is accepted, and the loop starts at its first record. -/
theorem loadDocument_eq (hmax : doc.tokens.length ≤ MAX_TOKENS) :
    ∃ off rest, (doc.text ++ [NUL]).drop off = recordsText doc.records ++ rest ∧
      doc.tokens.drop 3 = recordsTokens off doc.records ∧
      loadDocument (fun _ => true) (doc.text ++ [NUL]) doc.tokens L =
        loadRecords (fun _ => true) (doc.text ++ [NUL]) doc.tokens doc.records.length 3 L := by
  have hall : (doc.text ++ [NUL]).drop 0 = doc.frontName ++ (ascii "Employees" ++
      (doc.frontArray ++ ([BRACKET] ++ (doc.insideArray.val ++ (recordsText doc.records ++
        (doc.afterArray.val ++ BRACE_END :: doc.afterObject.val ++ [NUL])))))) := by
    rw [List.drop_zero, doc.text_eq]
    simp only [List.append_assoc]
  have hname := drop_behind hall
  rw [Nat.zero_add] at hname
  have harray := drop_behind (drop_behind (drop_behind (drop_behind hname)))
  refine ⟨doc.atArray + 1 + doc.insideArray.val.length, _, harray, rfl, ?_⟩
  have htext : textOf (doc.text ++ [NUL])
      (tok .JSMN_STRING doc.frontName.length (ascii "Employees").length 1) =
        .ok (ascii "Employees") := by
    have hlen := congrArg List.length hname
    have hnine : (ascii "Employees").length = 9 := rfl
    have hstop : doc.frontName.length + (ascii "Employees").length ≤
        (doc.text ++ [NUL]).length := by
      rw [List.length_drop] at hlen
      simp only [List.length_append] at hlen ⊢
      omega
    rw [textOf, tok, if_pos hstop, hname, Nat.add_sub_cancel_left, List.take_left]
  obtain ⟨hobject, hts₁⟩ := tokenAt_of_drop hmax (i := 0) (List.drop_zero (l := doc.tokens))
  obtain ⟨hkey, hts₂⟩ := tokenAt_of_drop hmax hts₁
  obtain ⟨htok, -⟩ := tokenAt_of_drop hmax hts₂
  rw [loadDocument, bind_of_ok hobject, if_neg (fun h => h rfl), bind_of_ok hkey, bind_of_ok htext,
    bind_of_ok (show isEmployees (ascii "Employees") = .ok true by decide),
    if_neg (by exact Bool.noConfusion), bind_of_ok htok, if_neg (fun h => h rfl)]
  rfl

theorem loadFrom_holding :
    loadFrom jsmn (.holding doc.text fd) L =
      parseAndLoad jsmn (fun _ => true) doc.text.length fd doc.text L := by
  have hpos : 0 < doc.text.length := by
    rw [doc.text_eq, Document.frontName]
    simp only [List.length_append, List.length_cons]
    omega
  have hne : doc.text ≠ [] := List.ne_nil_of_length_pos hpos
  show (if ((doc.text.length : Nat) : Int) ≤ 0 then _ else if doc.text = [] then _ else _) = _
  rw [if_neg (by omega), if_neg hne]
  rfl

theorem loadFrom_refused (hj : Tokenizes jsmn doc) (hmax : MAX_TOKENS < doc.tokens.length) :
    loadFrom jsmn (.holding doc.text fd) L = .ok (exitFail (jsmn doc.text).ret fd L) := by
  have hret := hj.refused hmax
  rw [loadFrom_holding, parseAndLoad, Int.toNat_natCast, (bufOf_text doc.text).2]
  exact if_pos (by omega)

/-- `load_from` of a document is the loop over its records. -/
theorem loadFrom_eq (hj : Tokenizes jsmn doc) (hmax : doc.tokens.length ≤ MAX_TOKENS) :
    loadFrom jsmn (.holding doc.text fd) L =
      loadDocument (fun _ => true) (doc.text ++ [NUL]) doc.tokens L >>= fun (ok, L') =>
        if ok then .ok (exitOk fd L') else .ok (exitFail doc.tokens.length fd L') := by
  obtain ⟨hbuf, htake⟩ := bufOf_text doc.text
  have hret := doc.tokens_pos
  rw [loadFrom_holding, parseAndLoad, Int.toNat_natCast, htake, hj.parsed hmax, hbuf]
  dsimp only
  rw [if_neg (by omega)]
  rfl

/-! ## 4. Loading by key -/

theorem loaded_of_inOrder (hj : Tokenizes jsmn doc) (hL : Holds L xs)
    (hr : ∀ r ∈ doc.records, r.InOrder ∧ r.AgeFits) (hmax : doc.tokens.length ≤ MAX_TOKENS)
    (hsum : (xs.length + doc.records.length : Int) ≤ INT_MAX) :
    LoadedByKey doc xs (loadFrom jsmn (.holding doc.text fd) L) := by
  obtain ⟨off, rest, hbuf, hts, hdoc⟩ := loadDocument_eq (L := L) hmax
  obtain ⟨L', as, hload, hL', hall⟩ := loadRecords_inOrder hmax hbuf hts hL hsum hr
  refine ⟨L', [fd], as, ?_, hL'.chain, ?_, hall⟩
  · rw [loadFrom_eq hj hmax, hdoc, bind_of_ok hload]
    rfl
  · rw [hL'.total, List.length_append, List.length_reverse, ← hall.length_eq]
    push_cast
    omega

theorem exists_both {α β : Type} {P Q : α → β → Prop} {as : List α} {bs : List β}
    (hP : List.Forall₂ P as bs) (hQ : List.Forall₂ Q as bs) : ∀ a ∈ as, ∃ b, P a b ∧ Q a b := by
  induction hP with
  | nil => exact fun a ha => absurd ha List.not_mem_nil
  | cons hab _ ih =>
    cases hQ with
    | cons hab' hQ =>
      intro a ha
      rcases List.mem_cons.mp ha with rfl | ha
      · exact ⟨_, hab, hab'⟩
      · exact ih hQ a ha

theorem inOrder_of_loaded (hj : Tokenizes jsmn doc) (hL : Holds L xs)
    (h : LoadedByKey doc xs (loadFrom jsmn (.holding doc.text fd) L)) :
    (∀ r ∈ doc.records, r.InOrder ∧ r.AgeFits) ∧ doc.tokens.length ≤ MAX_TOKENS ∧
      (xs.length + doc.records.length : Int) ≤ INT_MAX := by
  obtain ⟨L', closed, as, hresult, hchain, htotal, hall⟩ := h
  have hmax : doc.tokens.length ≤ MAX_TOKENS := by
    by_contra hlt
    have hret := hj.refused (Nat.lt_of_not_le hlt)
    rw [loadFrom_refused hj (Nat.lt_of_not_le hlt)] at hresult
    have hok : (jsmn doc.text).ret = OK := congrArg Prod.fst (Except.ok.inj hresult)
    rw [hok] at hret
    exact absurd hret (by decide)
  obtain ⟨off, rest, hbuf, hts, hdoc⟩ := loadDocument_eq (L := L) hmax
  rw [loadFrom_eq hj hmax, hdoc] at hresult
  cases hload : loadRecords (fun _ => true) (doc.text ++ [NUL]) doc.tokens doc.records.length 3 L with
  | error s =>
    rw [bind_of_error hload] at hresult
    exact absurd hresult (by simp)
  | ok r =>
    obtain ⟨ok, L₁⟩ := r
    rw [bind_of_ok hload] at hresult
    cases ok with
    | false =>
      have hok : (doc.tokens.length : Int) = OK := congrArg Prod.fst (Except.ok.inj hresult)
      have hpos := doc.tokens_pos
      unfold OK at hok
      omega
    | true =>
      have hL₁ : L₁ = L' := congrArg (fun r => r.2.1) (Except.ok.inj hresult)
      subst hL₁
      obtain ⟨as', hchain', hall', hrange⟩ := loadRecords_loaded hmax hbuf hts hL.chain hload
      have has : as = as' :=
        List.reverse_inj.mp (List.append_cancel_right (hchain.unique hchain'))
      subst has
      refine ⟨fun r hr => ?_, hmax, ?_⟩
      · obtain ⟨a, htexts, hheld⟩ := exists_both hall' hall r hr
        exact ⟨Record.inOrder_of_heldBy htexts hheld, Record.ageFits_of_heldBy hheld⟩
      · cases hrs : doc.records with
        | nil => simpa using hL.fits
        | cons r rs =>
          rw [← hrs, ← htotal]
          exact (hrange (by rw [hrs]; exact List.cons_ne_nil _ _)).2

/-- **A document is loaded by key exactly when every record has its texts in the order of the
    fields and an age that is an `int`**, the tokens fit, and the counter stays in its range. -/
theorem load_from_by_key_iff (hj : Tokenizes jsmn doc) (hL : Holds L xs) :
    LoadedByKey doc xs (loadFrom jsmn (.holding doc.text fd) L) ↔
      (∀ r ∈ doc.records, r.InOrder ∧ r.AgeFits) ∧ doc.tokens.length ≤ MAX_TOKENS ∧
        (xs.length + doc.records.length : Int) ≤ INT_MAX :=
  ⟨inOrder_of_loaded hj hL, fun h => loaded_of_inOrder hj hL h.1 h.2.1 h.2.2⟩

/-- One byte for every key. -/
def sampleValue : Key → List UInt8
  | .firstName => ascii "A"
  | .middleName => ascii "B"
  | .lastName => ascii "C"
  | .occupation => ascii "D"
  | .number => ascii "E"
  | .age => ascii "7"

def sampleMember (k : Key) : Member :=
  ⟨k, sampleValue k, by cases k <;> decide, noBlank, noBlank, noBlank, noBlank⟩

def sampleRecord (ks : List Key) (h : ((ks.map sampleMember).map Member.key).Perm Key.all) :
    Record :=
  ⟨ks.map sampleMember, h, noBlank, noBlank⟩

def sampleDocument (r : Record) : Document :=
  ⟨[r], noBlank, noBlank, noBlank, noBlank, noBlank, noBlank, noBlank⟩

/-- A record in the order of the fields, and one that begins with the last name. -/
def fieldOrder : Document := sampleDocument (sampleRecord Key.all (by decide))

def lastNameFirst : Document :=
  sampleDocument (sampleRecord
    [.lastName, .firstName, .middleName, .occupation, .number, .age] (by decide))

theorem holds_initObj : Holds (initObj 0) [] := ⟨rfl, rfl, by decide⟩

theorem load_from_by_key_iff_fieldOrder :
    LoadedByKey fieldOrder [] (loadFrom (fun _ => ⟨fieldOrder.tokens.length, fieldOrder.tokens⟩)
      (.holding fieldOrder.text 3) (initObj 0)) :=
  (load_from_by_key_iff ⟨fun _ => rfl, fun h => absurd h (by decide)⟩ holds_initObj).mpr
    ⟨by decide, by decide, by decide⟩

theorem last_name_loaded_as_name :
    ¬ LoadedByKey lastNameFirst []
        (loadFrom (fun _ => ⟨lastNameFirst.tokens.length, lastNameFirst.tokens⟩)
          (.holding lastNameFirst.text 3) (initObj 0)) := by
  intro h
  have hr := (inOrder_of_loaded ⟨fun _ => rfl, fun h => absurd h (by decide)⟩
    holds_initObj h).1 _ List.mem_cons_self
  exact absurd hr.1 (by decide)

end TaskLedger
end Labs
