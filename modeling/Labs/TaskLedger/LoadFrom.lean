import Labs.TaskLedger.Funcs

/-!
# Loading records from a file

`load_from` of `LAB_6/task_ledger/src/ledger_funcs.c`. The JSON tokenizer is not part of the
repository, so `jsmn` is a parameter: from the bytes it is given it computes the result of
`jsmn_parse` and the tokens it has filled in. The other tokens of the array are zero, and an
index outside of the array, a position outside of `buf` or a copy that leaves `entry` is
`outOfBounds`.

* `FileAnswers` is what the system answers to `stat`, `calloc`, `open`, `read` and, for every
  record, the `calloc` of `add`.
* `loadValue` is the chain of `else if` for one value: the first of the five text fields that is
  still empty takes it, whatever the key is called.
* A record is added as soon as it is read, before the next one is looked at.
* The result has the `int` returned, the ledger and the descriptors closed. On the way to `fail`
  after `jsmn_parse` the `int` is what `jsmn_parse` returned.
-/

namespace Labs
namespace TaskLedger

open Lib

def MAX_TOKENS : Nat := 32076

inductive JsmnType
  | JSMN_UNDEFINED
  | JSMN_OBJECT
  | JSMN_ARRAY
  | JSMN_STRING
  | JSMN_PRIMITIVE
deriving DecidableEq

/-- `jsmntok_t`; `stop` is its `end`. -/
structure Tok where
  type : JsmnType
  start : Nat
  stop : Nat
  size : Nat
  ordered : start ≤ stop

def Tok.zero : Tok := ⟨.JSMN_UNDEFINED, 0, 0, 0, Nat.le_refl 0⟩

structure Parsed where
  ret : Int
  tokens : List Tok

structure FileAnswers where
  filename : Bool
  stat : Option Int
  callocBuf : Bool
  openFd : Option Int
  read : Option (List UInt8)
  callocNode : Nat → Bool

abbrev LoadResult := Int × Ledger × List Int

/-! ## 1. Tokens and texts -/

def tokenAt (ts : List Tok) (i : Nat) : Except Stop Tok :=
  if i < MAX_TOKENS then .ok (ts.getD i .zero) else .error .outOfBounds

/-- The bytes of `buf` from `start` on. -/
def textFrom (buf : List UInt8) (start : Nat) : Except Stop (List UInt8) :=
  if start < buf.length then .ok (buf.drop start) else .error .outOfBounds

/-- `buf[start .. end)`. -/
def textOf (buf : List UInt8) (t : Tok) : Except Stop (List UInt8) :=
  if t.stop ≤ buf.length then .ok ((buf.drop t.start).take (t.stop - t.start))
  else .error .outOfBounds

def employees : List UInt8 := ascii "Employees" ++ [NUL]

/-- `cmp(buf + start, "Employees", end - start) == FOUND`. -/
def isEmployees (key : List UInt8) : Except Stop Bool :=
  if key.length ≤ employees.length then .ok (key == employees.take key.length)
  else if key.take employees.length == employees then .error .outOfBounds
  else .ok false

/-! ## 2. One record -/

/-- The text fields, in the order in which they are looked at. -/
def textFields : List Field := [.name, .mname, .lname, .occup, .number]

def emptyField (entry : Priv) : Option Field := textFields.find? fun f => first entry f == NUL

/-- `sscanf(text, "%d\n", &entry.age)`; where no number is read the age stays. -/
def scanAge (entry : Priv) (text : List UInt8) : Except Stop Priv :=
  match (scanInt (cstr text)).1 with
  | some x => put entry Field.age.offset (encode32 (scannedInt x))
  | none => .ok entry

/-- One value of a record; `none` is `goto fail`. -/
def loadValue (buf : List UInt8) (entry : Priv) (t : Tok) : Except Stop (Option Priv) :=
  match t.type, emptyField entry with
  | .JSMN_STRING, some f => do
    let text ← textOf buf t
    return some (← put entry f.offset (if t.start = t.stop then ascii "nil" ++ [NUL] else text))
  | .JSMN_PRIMITIVE, _ => do
    let text ← textFrom buf t.start
    let entry ← scanAge entry text
    if ageOf entry < 0 then return none else return some entry
  | _, _ => .ok none

/-- The `objectsize` pairs from token `i` on: the token behind them and the entry. -/
def loadPairs (buf : List UInt8) (ts : List Tok) : Nat → Nat → Priv →
    Except Stop (Option (Nat × Priv))
  | 0, i, entry => .ok (some (i, entry))
  | n + 1, i, entry => do
    let key ← tokenAt ts i
    if key.type = .JSMN_STRING ∧ key.size ≠ 0 then
      let value ← tokenAt ts (i + 1)
      match ← loadValue buf entry value with
      | none => return none
      | some entry => loadPairs buf ts n (i + 2) entry
    else return none

/-! ## 3. The document -/

/-- `m` more elements of the array, from token `i` on; `false` is `goto fail`. -/
def loadRecords (callocNode : Nat → Bool) (buf : List UInt8) (ts : List Tok) :
    Nat → Nat → Ledger → Except Stop (Bool × Ledger)
  | 0, _, L => .ok (true, L)
  | m + 1, i, L => do
    let t ← tokenAt ts i
    if t.type ≠ .JSMN_OBJECT then return (true, L)
    else
      match ← loadPairs buf ts t.size (i + 1) (.zero _) with
      | none => return (false, L)
      | some (i, entry) =>
        let (r, L, _) ← add (callocNode m) L (some entry) .BEGIN []
        if r = ERR then return (false, L) else loadRecords callocNode buf ts m i L

def loadDocument (callocNode : Nat → Bool) (buf : List UInt8) (ts : List Tok) (L : Ledger) :
    Except Stop (Bool × Ledger) := do
  let object ← tokenAt ts 0
  if object.type ≠ .JSMN_OBJECT then return (false, L)
  else
    let key ← tokenAt ts 1
    if (← isEmployees (← textOf buf key)) = false then return (false, L)
    else
      let array ← tokenAt ts 2
      if array.type ≠ .JSMN_ARRAY then return (false, L)
      else loadRecords callocNode buf ts array.size 3 L

/-- The label `ok`. -/
def exitOk (fd : Int) (L : Ledger) : LoadResult := (OK, L, [fd])

/-- The label `fail`. -/
def exitFail (ret fd : Int) (L : Ledger) : LoadResult :=
  (ret, L, if fd > 0 ∧ fd ≠ ERR then [fd] else [])

/-- `buf`: `calloc` of `filesize + 1` bytes, with what was read at its start. -/
def bufOf (filesize : Int) (data : List UInt8) : List UInt8 :=
  (data ++ List.replicate (filesize.toNat + 1) NUL).take (filesize.toNat + 1)

def parseAndLoad (jsmn : List UInt8 → Parsed) (callocNode : Nat → Bool) (filesize fd : Int)
    (data : List UInt8) (L : Ledger) : Except Stop LoadResult :=
  let buf := bufOf filesize data
  let parsed := jsmn (buf.take filesize.toNat)
  if parsed.ret < 1 then .ok (exitFail parsed.ret fd L)
  else do
    let (ok, L) ← loadDocument callocNode buf parsed.tokens L
    if ok then return exitOk fd L else return exitFail parsed.ret fd L

def loadFrom (jsmn : List UInt8 → Parsed) (file : FileAnswers) (L : Ledger) :
    Except Stop LoadResult :=
  if file.filename = false then .ok (exitFail ERR 0 L)
  else
    match file.stat with
    | none => .ok (exitFail ERR 0 L)
    | some filesize =>
      if filesize ≤ 0 then .ok (exitOk 0 L)
      else if file.callocBuf = false then .ok (exitFail ERR 0 L)
      else
        match file.openFd with
        | none => .ok (exitFail ERR ERR L)
        | some fd =>
          match file.read with
          | none => .ok (exitFail ERR fd L)
          | some data =>
            if data = [] then .ok (exitOk fd L)
            else parseAndLoad jsmn file.callocNode filesize fd data L

/-! ## 4. Where loading can leave its memory -/

/-- The value lies in `buf`, and its copy ends inside the entry. -/
def ValueFits (buf : List UInt8) (entry : Priv) (t : Tok) : Prop :=
  match t.type, emptyField entry with
  | .JSMN_STRING, some f =>
    t.stop ≤ buf.length ∧ f.offset + (t.stop - t.start) ≤ sizeofPriv
  | .JSMN_PRIMITIVE, _ => t.start < buf.length
  | _, _ => True

/-- A key that a value belongs to. -/
def Tok.IsKey (t : Tok) : Prop := t.type = .JSMN_STRING ∧ t.size ≠ 0
deriving Decidable

/-- The next `n` pairs are in the array of tokens and their values fit. -/
def PairsFit (buf : List UInt8) (ts : List Tok) : Nat → Nat → Priv → Prop
  | 0, _, _ => True
  | n + 1, i, entry => i < MAX_TOKENS ∧ ((ts.getD i .zero).IsKey →
      i + 1 < MAX_TOKENS ∧ ValueFits buf entry (ts.getD (i + 1) .zero) ∧
        ∀ entry', loadValue buf entry (ts.getD (i + 1) .zero) = .ok (some entry') →
          PairsFit buf ts n (i + 2) entry')

/-- The next `m` records are in the array of tokens and their values fit. -/
def RecordsFit (callocNode : Nat → Bool) (buf : List UInt8) (ts : List Tok) : Nat → Nat → Prop
  | 0, _ => True
  | m + 1, i => i < MAX_TOKENS ∧ ((ts.getD i .zero).type = .JSMN_OBJECT →
      PairsFit buf ts (ts.getD i .zero).size (i + 1) (.zero _) ∧
        ∀ j entry, loadPairs buf ts (ts.getD i .zero).size (i + 1) (.zero _) =
            .ok (some (j, entry)) →
          callocNode m = true → unnamed entry = false → RecordsFit callocNode buf ts m j)

/-- The first key lies in `buf` and does not run past the literal it is compared with. -/
def KeyInBuf (buf : List UInt8) (t : Tok) : Prop :=
  t.stop ≤ buf.length ∧
    (((buf.drop t.start).take (t.stop - t.start)).take employees.length = employees →
      t.stop - t.start ≤ employees.length)

def DocumentFits (callocNode : Nat → Bool) (buf : List UInt8) (ts : List Tok) : Prop :=
  (ts.getD 0 .zero).type = .JSMN_OBJECT → KeyInBuf buf (ts.getD 1 .zero) ∧
    ((textOf buf (ts.getD 1 .zero) >>= isEmployees) = .ok true →
      (ts.getD 2 .zero).type = .JSMN_ARRAY →
        RecordsFit callocNode buf ts (ts.getD 2 .zero).size 3)

theorem tokenAt_of_lt {ts : List Tok} {i : Nat} (h : i < MAX_TOKENS) :
    tokenAt ts i = .ok (ts.getD i .zero) :=
  if_pos h

theorem textOf_ends {buf : List UInt8} {t : Tok} (h : t.stop ≤ buf.length) :
    Ends (textOf buf t) (fun _ => False) fun text => text.length ≤ t.stop - t.start := by
  rw [textOf, if_pos h]
  exact List.length_take_le _ _

theorem nil_fits {entry : Priv} {f : Field} (h : emptyField entry = some f) :
    f.offset + (ascii "nil" ++ [NUL]).length ≤ sizeofPriv := by
  have hmem := List.mem_of_find?_eq_some h
  revert hmem
  generalize f = g
  revert g
  decide

theorem put_ends {e : Priv} {off : Nat} {bs : List UInt8} (h : off + bs.length ≤ sizeofPriv) :
    Ends (put e off bs) (fun _ => False) fun _ => True := by
  obtain ⟨e', he⟩ := put_of_le e off bs h
  rw [he]
  exact trivial

theorem scanAge_ends (entry : Priv) (text : List UInt8) :
    Ends (scanAge entry text) (fun _ => False) fun _ => True := by
  unfold scanAge
  split
  · exact put_ends (show 288 + 4 ≤ sizeofPriv by decide)
  · exact trivial

theorem loadValue_ends {buf : List UInt8} {entry : Priv} {t : Tok} (h : ValueFits buf entry t) :
    Ends (loadValue buf entry t) (fun _ => False) fun _ => True := by
  unfold loadValue
  unfold ValueFits at h
  split
  · rename_i f ht hf
    rw [ht, hf] at h
    refine (textOf_ends h.1).bind fun text htext => ?_
    refine Ends.bind (put_ends ?_) fun _ _ => trivial
    split
    · exact nil_fits hf
    · exact Nat.le_trans (Nat.add_le_add_left htext _) h.2
  · rename_i ht
    rw [ht] at h
    have htext : textFrom buf t.start = .ok (buf.drop t.start) := if_pos h
    rw [bind_of_ok htext]
    refine (scanAge_ends entry _).bind fun entry' _ => ?_
    split
    · exact trivial
    · exact trivial
  · exact trivial

theorem loadPairs_ends {buf : List UInt8} {ts : List Tok} {n i : Nat} {entry : Priv}
    (h : PairsFit buf ts n i entry) :
    Ends (loadPairs buf ts n i entry) (fun _ => False) fun _ => True := by
  induction n generalizing i entry with
  | zero => exact trivial
  | succ n ih =>
    obtain ⟨hi, hpair⟩ := h
    rw [loadPairs, bind_of_ok (tokenAt_of_lt hi)]
    split
    · rename_i hkey
      obtain ⟨hnext, hv, hrest⟩ := hpair hkey
      rw [bind_of_ok (tokenAt_of_lt hnext)]
      have hends := loadValue_ends hv
      cases hval : loadValue buf entry (ts.getD (i + 1) .zero) with
      | error s =>
        rw [hval] at hends
        exact hends
      | ok r =>
        cases r with
        | none => exact trivial
        | some entry' => exact ih (hrest entry' hval)
    · exact trivial

theorem isEmployees_ends {buf : List UInt8} {t : Tok} (h : KeyInBuf buf t) :
    Ends (textOf buf t >>= isEmployees) (fun _ => False) fun _ => True := by
  have htext : textOf buf t = .ok ((buf.drop t.start).take (t.stop - t.start)) := if_pos h.1
  rw [bind_of_ok htext, isEmployees]
  split
  · exact trivial
  · rename_i hlong
    split
    · rename_i heq
      have hle := h.2 (by simpa using heq)
      exact absurd (Nat.le_trans (List.length_take_le _ _) hle) hlong
    · exact trivial

/-! ## 5. How loading comes to an end -/

/-- `load_from` gets as far as `jsmn_parse`. -/
structure FileAnswers.Reads (file : FileAnswers) (filesize fd : Int) (data : List UInt8) :
    Prop where
  filename : file.filename = true
  stat : file.stat = some filesize
  positive : 0 < filesize
  callocBuf : file.callocBuf = true
  openFd : file.openFd = some fd
  read : file.read = some data
  nonempty : data ≠ []

/-- A call before `jsmn_parse` fails. -/
def FileAnswers.Unreadable (file : FileAnswers) : Prop :=
  file.filename = false ∨ file.stat = none ∨
    ∃ filesize, file.stat = some filesize ∧ 0 < filesize ∧
      (file.callocBuf = false ∨ file.openFd = none ∨ file.read = none)

/-- What `jsmn_parse` makes of the file. -/
def parsedOf (jsmn : List UInt8 → Parsed) (filesize : Int) (data : List UInt8) : Parsed :=
  jsmn ((bufOf filesize data).take filesize.toNat)

/-- `jsmn_parse`, or what comes behind it, ends at `fail`. -/
def Rejects (jsmn : List UInt8 → Parsed) (callocNode : Nat → Bool) (filesize : Int)
    (data : List UInt8) (L : Ledger) : Prop :=
  (parsedOf jsmn filesize data).ret < 1 ∨ ∃ L',
    loadDocument callocNode (bufOf filesize data) (parsedOf jsmn filesize data).tokens L =
      .ok (false, L')

theorem FileAnswers.Reads.unique {file : FileAnswers} {filesize filesize' fd fd' : Int}
    {data data' : List UInt8} (h : file.Reads filesize fd data)
    (h' : file.Reads filesize' fd' data') : filesize' = filesize ∧ data' = data := by
  cases h.stat.symm.trans h'.stat
  cases h.read.symm.trans h'.read
  exact ⟨rfl, rfl⟩

theorem FileAnswers.Reads.readable {file : FileAnswers} {filesize fd : Int} {data : List UInt8}
    (h : file.Reads filesize fd data) : ¬ file.Unreadable := by
  rintro (hname | hstat | ⟨_, -, -, hcalloc | hopen | hread⟩)
  · cases h.filename.symm.trans hname
  · cases h.stat.symm.trans hstat
  · cases h.callocBuf.symm.trans hcalloc
  · cases h.openFd.symm.trans hopen
  · cases h.read.symm.trans hread

theorem loadFrom_cases (jsmn : List UInt8 → Parsed) (file : FileAnswers) (L : Ledger) :
    (file.Unreadable ∧ ∃ fds, loadFrom jsmn file L = .ok (ERR, L, fds)) ∨
      (¬ file.Unreadable ∧ (∀ filesize fd data, ¬ file.Reads filesize fd data) ∧
        ∃ fds, loadFrom jsmn file L = .ok (OK, L, fds)) ∨
      ∃ filesize fd data, file.Reads filesize fd data ∧
        loadFrom jsmn file L = parseAndLoad jsmn file.callocNode filesize fd data L := by
  unfold loadFrom
  split
  · rename_i hname
    exact .inl ⟨.inl hname, _, rfl⟩
  · rename_i hname
    split
    · rename_i hstat
      exact .inl ⟨.inr (.inl hstat), _, rfl⟩
    · rename_i filesize hstat
      split
      · rename_i hempty
        refine .inr (.inl ⟨?_, fun _ _ _ h => ?_, _, rfl⟩)
        · rintro (hno | hno | ⟨_, hsize, hpos, -⟩)
          · exact hname hno
          · cases hstat.symm.trans hno
          · cases hstat.symm.trans hsize
            exact absurd hpos (not_lt.mpr hempty)
        · cases hstat.symm.trans h.stat
          exact absurd h.positive (not_lt.mpr hempty)
      · rename_i hpos
        have hpos := not_le.mp hpos
        split
        · rename_i hcalloc
          exact .inl ⟨.inr (.inr ⟨filesize, hstat, hpos, .inl hcalloc⟩), _, rfl⟩
        · rename_i hcalloc
          split
          · rename_i hopen
            exact .inl ⟨.inr (.inr ⟨filesize, hstat, hpos, .inr (.inl hopen)⟩), _, rfl⟩
          · rename_i fd hopen
            split
            · rename_i hread
              exact .inl ⟨.inr (.inr ⟨filesize, hstat, hpos, .inr (.inr hread)⟩), _, rfl⟩
            · rename_i data hread
              split
              · rename_i hdata
                refine .inr (.inl ⟨?_, fun _ _ _ h => ?_, _, rfl⟩)
                · rintro (hno | hno | ⟨_, -, -, hno | hno | hno⟩)
                  · exact hname hno
                  · cases hstat.symm.trans hno
                  · exact hcalloc hno
                  · cases hopen.symm.trans hno
                  · cases hread.symm.trans hno
                · cases hread.symm.trans h.read
                  exact h.nonempty hdata
              · rename_i hdata
                exact .inr (.inr ⟨filesize, fd, data, ⟨Bool.eq_true_of_not_eq_false hname, hstat,
                  hpos, Bool.eq_true_of_not_eq_false hcalloc, hopen, hread, hdata⟩, rfl⟩)

/-- Behind `jsmn_parse`, `load_from` returns what `jsmn_parse` did, or `OK`. -/
theorem parseAndLoad_ret {jsmn : List UInt8 → Parsed} {callocNode : Nat → Bool}
    {filesize fd ret : Int} {data : List UInt8} {L L' : Ledger} {fds : List Int}
    (h : parseAndLoad jsmn callocNode filesize fd data L = .ok (ret, L', fds)) :
    (Rejects jsmn callocNode filesize data L ∧ ret = (parsedOf jsmn filesize data).ret) ∨
      ¬ Rejects jsmn callocNode filesize data L ∧ ret = OK := by
  unfold parseAndLoad at h
  dsimp only at h
  split at h
  · rename_i hret
    cases h
    exact .inl ⟨.inl hret, rfl⟩
  · rename_i hret
    cases hdoc : loadDocument callocNode (bufOf filesize data)
        (parsedOf jsmn filesize data).tokens L with
    | error s =>
      cases (bind_of_error hdoc _).symm.trans h
    | ok r =>
      obtain ⟨ok, L₁⟩ := r
      have h := (bind_of_ok hdoc _).symm.trans h
      cases ok with
      | false =>
        cases h
        exact .inl ⟨.inr ⟨_, hdoc⟩, rfl⟩
      | true =>
        cases h
        refine .inr ⟨?_, rfl⟩
        rintro (hno | ⟨L₂, hno⟩)
        · exact hret hno
        · cases hdoc.symm.trans hno

/-- … and when it rejects the file, it does return. -/
theorem parseAndLoad_of_rejects {jsmn : List UInt8 → Parsed} {callocNode : Nat → Bool}
    {filesize : Int} (fd : Int) {data : List UInt8} {L : Ledger}
    (h : Rejects jsmn callocNode filesize data L) :
    ∃ L' fds, parseAndLoad jsmn callocNode filesize fd data L =
      .ok ((parsedOf jsmn filesize data).ret, L', fds) := by
  unfold parseAndLoad
  dsimp only
  split
  · exact ⟨_, _, rfl⟩
  · rename_i hret
    obtain ⟨L', hdoc⟩ := h.resolve_left hret
    exact ⟨L', _, bind_of_ok hdoc _⟩

end TaskLedger
end Labs
