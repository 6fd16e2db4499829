import Labs.TaskLedger.Entry

/-!
# Typing in an entry

`process_entry` hands `BUFSIZE` to `process_param` for each field, whatever its size is. `fgets`
then stores up to `255` bytes and a terminator from the start of the field on. The fields are read in
the order of their addresses into an entry of zeros, so what runs over a field runs into fields that
have not been read yet, and behind the last one into the age and out of the entry.

What is stored for a field stays in it exactly when the bytes that do not fit into it are zeros
(`paramKept_iff`). Then the bytes behind the field are zeros as before, so the next field starts from
the same: this is the induction over the fields (`paramsKept_iff`). A line that ends in a newline has
none of its bytes behind the field, so it is shorter than the field, and is found in it with zeros
behind it (`params_typed`).

## Zeros behind

The entry is cleared before it is typed in, and the fields are read in the order of their addresses.
So when a field is read, everything behind it is zero (`ZeroFrom`), and that a store changes nothing
behind the field is the same as that what it puts there is zero. This makes the condition on a line
so simple, and exact: the bytes that do not fit are zeros (`paramKept_iff`). A line may have zeros
in it, since `fgets` reads bytes; one that is cut off by a zero counts as not accepted, and the
fields behind it are not read.

Zeros behind are kept by a line that fits and lost by one that does not, so the induction over the
fields carries both facts at once. It is stated for any list of fields that follow one another up to
the age (`Adjacent`), and used for the five of an entry.

What is found afterwards (`TypedIn`) is a second result with the same condition. It is about
accepted entries: in a call that fails at some field, those before it are stored, and the entry is
thrown away.
-/

namespace Labs
namespace TaskLedger

open Lib

variable {e e₁ e' : Priv} {f : Field} {fs : List Field} {inp rest l : List UInt8} {k off : Nat}
  {r : Int}

/-! ## 1. What is typed, and what is kept -/

/-- The fields that are read as lines, in their order. -/
def typedFields : List Field := [.name, .mname, .lname, .number, .occup]

def linesText (ls : List (List UInt8)) : List UInt8 := ls.flatMap fun l => l ++ [NEWLINE]

/-- The line, a terminator and nothing but zeros behind it. -/
def HoldsLine (e : Priv) (f : Field) (l : List UInt8) : Prop :=
  l.length < f.size ∧ e.read f.offset f.size = l ++ List.replicate (f.size - l.length) NUL

/-- Each field has the line that was typed for it. -/
def TypedIn (inp : List UInt8) (e : Priv) : Prop :=
  ∃ ls rest, inp = linesText ls ++ rest ∧ (∀ l ∈ ls, NEWLINE ∉ l) ∧
    List.Forall₂ (HoldsLine e) typedFields ls

/-- The entries differ in the field, if at all. -/
def SameBeside (f : Field) (e e' : Priv) : Prop :=
  ∀ k, k < f.offset ∨ f.offset + f.size ≤ k → e'.bytes[k]? = e.bytes[k]?

/-- What `fgets` or `scanf` stores, if it stores anything. -/
def stored (t : TYPE) (inp : List UInt8) : Option (List UInt8) :=
  match t with
  | .STRING => (fgets BUFSIZE inp).map fun r => r.1 ++ [NUL]
  | .INT => (scanInt inp).1.map fun x => encode32 (scannedInt x)
  | _ => none

/-- Neither the store nor the whole call changes anything but the field. -/
structure ParamKept (f : Field) (t : TYPE) (e : Priv) (inp : List UInt8) : Prop where
  store : ∀ bs, stored t inp = some bs → ∃ e₁, put e f.offset bs = .ok e₁ ∧ SameBeside f e e₁
  call : ∀ r e' rest, processParam e f.offset BUFSIZE t inp = .ok (r, e', rest) →
    SameBeside f e e'

def ParamsKept : List (Field × TYPE) → Priv → List UInt8 → Prop
  | [], _, _ => True
  | (f, t) :: fs, e, inp => ParamKept f t e inp ∧
      ∀ e' rest, processParam e f.offset BUFSIZE t inp = .ok (OK, e', rest) →
        ParamsKept fs e' rest

/-- What is typed in stays where it belongs, and is found there unless the call fails. -/
structure LinesKept (inp : List UInt8) : Prop where
  kept : ParamsKept params (.zero _) inp
  typed : ∀ r e' rest, processEntry (.zero _) .PRIV inp = .ok (r, e', rest) →
    r = ERR ∨ TypedIn inp e'

/-- What `fgets` reads. -/
def typedLine (inp : List UInt8) : List UInt8 := takeLine (BUFSIZE - 1) inp

/-- What does not fit into the field are zeros, and they end inside the entry. -/
def LineFits (f : Field) (line : List UInt8) : Prop :=
  f.offset + line.length + 1 ≤ sizeofPriv ∧ ∀ b ∈ line.drop f.size, b = NUL

/-- The lines for the fields fit, up to the first one that is not accepted. -/
def LinesFit : List Field → List UInt8 → Prop
  | [], _ => True
  | f :: fs, inp => LineFits f (typedLine inp) ∧
      (NEWLINE ∈ cstr (typedLine inp) → LinesFit fs (inp.drop (typedLine inp).length))

/-! ## 2. One line -/

def ZeroFrom (off : Nat) (e : Priv) : Prop :=
  ∀ k, off ≤ k → k < sizeofPriv → e.bytes[k]? = some NUL

theorem put_eq_ok {bs : List UInt8} (h : put e off bs = .ok e') : e.write off bs = some e' := by
  unfold put at h
  split at h
  · cases h
  · rename_i hwrite
    cases h
    exact hwrite

theorem SameBeside.trans {e₂ : Priv} (h : SameBeside f e e₁) (h' : SameBeside f e₁ e₂) :
    SameBeside f e e₂ :=
  fun k hk => (h' k hk).trans (h k hk)

theorem sameBeside_refl (f : Field) (e : Priv) : SameBeside f e e := fun _ _ => rfl

/-- A store inside the field. -/
theorem sameBeside_put {bs : List UInt8} (h : put e off bs = .ok e') (hlo : f.offset ≤ off)
    (hhi : off + bs.length ≤ f.offset + f.size) : SameBeside f e e' := by
  intro k hk
  exact Block.getElem?_write_beside (put_eq_ok h) (by omega)

theorem drop_put {bs : List UInt8} (h : put e off bs = .ok e') :
    e'.bytes.drop off = bs ++ e.bytes.drop (off + bs.length) := by
  obtain ⟨hle, hbytes⟩ := Block.write_bytes (put_eq_ok h)
  have hsize := e.size_eq
  have htake : (e.bytes.take off).length = off := by
    rw [List.length_take]
    omega
  rw [hbytes, List.append_assoc, List.drop_left' htake]

theorem fgets_typedLine (h : inp ≠ []) :
    fgets BUFSIZE inp = some (typedLine inp, inp.drop (typedLine inp).length) :=
  if_neg h

/-- A newline in the string that has been read ends the line. -/
theorem typedLine_of_mem (h : NEWLINE ∈ cstr (typedLine inp)) :
    ∃ l rest, NEWLINE ∉ l ∧ NUL ∉ l ∧ typedLine inp = l ++ [NEWLINE] ∧
      inp = l ++ NEWLINE :: rest ∧ inp.drop (typedLine inp).length = rest ∧
      memchr (cstr (typedLine inp)) NEWLINE = some l.length := by
  obtain ⟨l, rest, hl, hline, hinp⟩ :=
    takeLine_of_mem ((List.takeWhile_prefix _).subset h)
  have hline : typedLine inp = l ++ [NEWLINE] := hline
  have hnul : NUL ∉ l := by
    intro hm
    obtain ⟨us, vs, rfl⟩ := List.append_of_mem hm
    rw [hline, List.append_assoc, List.cons_append, cstr_nul] at h
    exact hl (List.mem_append_left _ ((List.takeWhile_prefix _).subset h))
  have hcstr : cstr (typedLine inp) = l ++ [NEWLINE] := by
    rw [hline]
    refine cstr_eq_self fun hm => ?_
    rcases List.mem_append.mp hm with hm | hm
    · exact hnul hm
    · exact absurd (List.mem_singleton.mp hm) (by decide)
  refine ⟨l, rest, hl, hnul, hline, hinp, ?_, ?_⟩
  · have hsplit : inp = l ++ [NEWLINE] ++ rest := by rw [hinp, List.append_cons]
    rw [hline, hsplit, List.drop_left]
  · rw [hcstr, memchr, List.findIdx?_append, List.findIdx?_eq_none_iff.mpr]
    · simp
    · intro b hb
      exact beq_false_of_ne fun heq => hl (heq ▸ hb)

/-- `process_param` on a line: it is stored, and cut off at its newline if there is one. -/
theorem processParam_line (hinp : inp ≠ []) (h : put e off (typedLine inp ++ [NUL]) = .ok e₁) :
    (NEWLINE ∉ cstr (typedLine inp) ∧ processParam e off BUFSIZE .STRING inp =
        .ok (ERR, e₁, inp.drop (typedLine inp).length)) ∨
      ∃ l rest e₂, NEWLINE ∉ l ∧ NUL ∉ l ∧ typedLine inp = l ++ [NEWLINE] ∧
        inp = l ++ NEWLINE :: rest ∧ inp.drop (typedLine inp).length = rest ∧
        NEWLINE ∈ cstr (typedLine inp) ∧ put e₁ (off + l.length) [NUL] = .ok e₂ ∧
        processParam e off BUFSIZE .STRING inp = .ok (OK, e₂, rest) := by
  have hstring : cstr (e₁.bytes.drop off) = cstr (typedLine inp) := by
    rw [drop_put h, List.append_assoc]
    exact cstr_nul _ _
  have hnone (hk : memchr (cstr (typedLine inp)) NEWLINE = none) :
      processParam e off BUFSIZE .STRING inp =
        .ok (ERR, e₁, inp.drop (typedLine inp).length) := by
    rw [processParam, fgets_typedLine hinp]
    show (put e off (typedLine inp ++ [NUL]) >>= _) = _
    rw [bind_of_ok h, hstring, hk]
    rfl
  have hsome {k : Nat} (hk : memchr (cstr (typedLine inp)) NEWLINE = some k) :
      processParam e off BUFSIZE .STRING inp = put e₁ (off + k) [NUL] >>= fun e₂ =>
        .ok (OK, e₂, inp.drop (typedLine inp).length) := by
    rw [processParam, fgets_typedLine hinp]
    show (put e off (typedLine inp ++ [NUL]) >>= _) = _
    rw [bind_of_ok h, hstring, hk]
    rfl
  by_cases hmem : NEWLINE ∈ cstr (typedLine inp)
  · obtain ⟨l, rest, hl, hnul, hline, heq, hrest, hk⟩ := typedLine_of_mem hmem
    have hk' : memchr (cstr (e₁.bytes.drop off)) NEWLINE = some l.length := by rw [hstring, hk]
    obtain ⟨e₂, he₂⟩ := put_of_le e₁ (off + l.length) [NUL] (newline_inside hk')
    refine .inr ⟨l, rest, e₂, hl, hnul, hline, heq, hrest, hmem, he₂, ?_⟩
    rw [hsome hk, hrest]
    exact bind_of_ok he₂ _
  · refine .inl ⟨hmem, ?_⟩
    exact hnone (memchr_eq_none.mpr hmem)

theorem processParam_nothing (e : Priv) (off : Nat) :
    processParam e off BUFSIZE .STRING [] = .ok (ERR, e, []) := rfl

/-- A line that fits is shorter than its field. -/
theorem LineFits.length_lt (h : LineFits f (l ++ [NEWLINE])) : l.length < f.size := by
  by_contra hge
  have hmem : NEWLINE ∈ (l ++ [NEWLINE]).drop f.size := by
    rw [List.drop_append_of_le_length (not_lt.mp hge)]
    exact List.mem_append_right _ (List.mem_singleton_self _)
  exact absurd (h.2 NEWLINE hmem) (by decide)

/-- Behind zeros, a store changes nothing but the field if what does not fit are zeros. -/
theorem sameBeside_iff {line : List UInt8} (hz : ZeroFrom f.offset e)
    (hput : put e f.offset (line ++ [NUL]) = .ok e₁) :
    SameBeside f e e₁ ↔ ∀ b ∈ line.drop f.size, b = NUL := by
  have hwrite := put_eq_ok hput
  obtain ⟨hin, -⟩ := Block.write_bytes hwrite
  rw [List.length_append, List.length_singleton] at hin
  constructor
  · intro hsame b hb
    obtain ⟨j, hj⟩ := List.mem_iff_getElem?.mp hb
    rw [List.getElem?_drop] at hj
    have hlt : f.size + j < line.length := (List.getElem?_eq_some_iff.mp hj).1
    have hbyte : e₁.bytes[f.offset + (f.size + j)]? = some b := by
      rw [Block.getElem?_write hwrite (by rw [List.length_append]; omega),
        List.getElem?_append_left hlt, hj]
    rw [hsame _ (by omega), hz _ (by omega) (by omega)] at hbyte
    exact (Option.some.inj hbyte).symm
  · intro hzero k hk
    by_cases hin' : f.offset ≤ k ∧ k < f.offset + (line ++ [NUL]).length
    · obtain ⟨j, rfl⟩ := Nat.exists_eq_add_of_le hin'.1
      have hj : j < (line ++ [NUL]).length := by omega
      rw [List.length_append, List.length_singleton] at hj
      rw [Block.getElem?_write hwrite (by omega), hz _ (by omega) (by omega)]
      rcases Nat.lt_succ_iff_lt_or_eq.mp hj with hlt | rfl
      · have hget := List.getElem?_eq_getElem hlt
        have hmem : line.get ⟨j, hlt⟩ ∈ line.drop f.size := by
          rw [List.mem_iff_getElem?]
          refine ⟨j - f.size, ?_⟩
          rw [List.getElem?_drop, Nat.add_sub_cancel' (by omega)]
          exact hget
        rw [List.getElem?_append_left hlt, hget]
        exact congrArg some (hzero _ hmem)
      · exact List.getElem?_concat_length
    · exact Block.getElem?_write_beside hwrite (by omega)

/-- **What is typed for a field stays in it exactly when it fits.** -/
theorem paramKept_iff (hz : ZeroFrom f.offset e) (hpos : 0 < f.size) :
    ParamKept f .STRING e inp ↔ LineFits f (typedLine inp) := by
  have hin := f.inside
  by_cases hinp : inp = []
  · subst hinp
    refine ⟨fun _ => ⟨?_, fun b hb => ?_⟩, fun _ => ⟨fun bs hbs => ?_, fun r e' rest hcall => ?_⟩⟩
    · show f.offset + 0 + 1 ≤ sizeofPriv
      omega
    · have hnil : b ∈ ([] : List UInt8).drop f.size := hb
      rw [List.drop_nil] at hnil
      cases hnil
    · cases hbs
    · cases (processParam_nothing e f.offset).symm.trans hcall
      exact sameBeside_refl f e
  · have hstored : stored .STRING inp = some (typedLine inp ++ [NUL]) := by
      rw [stored, fgets_typedLine hinp]
      rfl
    constructor
    · intro hkept
      obtain ⟨e₁, hput, hsame⟩ := hkept.store _ hstored
      obtain ⟨hle, -⟩ := Block.write_bytes (put_eq_ok hput)
      rw [List.length_append, List.length_singleton] at hle
      exact ⟨by omega, (sameBeside_iff hz hput).mp hsame⟩
    · intro hfits
      obtain ⟨e₁, hput⟩ := put_of_le e f.offset (typedLine inp ++ [NUL])
        (by rw [List.length_append, List.length_singleton]; exact hfits.1)
      have hsame := (sameBeside_iff hz hput).mpr hfits.2
      refine ⟨fun bs hbs => ?_, fun r e' rest hcall => ?_⟩
      · cases hstored.symm.trans hbs
        exact ⟨e₁, hput, hsame⟩
      · rcases processParam_line hinp hput with
          ⟨-, herr⟩ | ⟨l, rest', e₂, -, -, hline, -, -, -, hcut, hok⟩
        · cases herr.symm.trans hcall
          exact hsame
        · cases hok.symm.trans hcall
          rw [hline] at hfits
          have hlt := hfits.length_lt
          refine hsame.trans (sameBeside_put hcut (Nat.le_add_right _ _) ?_)
          show f.offset + l.length + 1 ≤ _
          omega

/-! ## 3. All lines -/

/-- The fields follow one another from `off` on, up to the age. -/
def Adjacent : Nat → List Field → Prop
  | off, [] => off = Field.age.offset
  | off, f :: fs => f.offset = off ∧ 0 < f.size ∧ Adjacent (off + f.size) fs

theorem adjacent_typedFields : Adjacent 0 typedFields := by
  simp only [typedFields, Adjacent]
  decide

/-- The calls of `process_param` for the fields, and for the age behind them. -/
def callsOf (fs : List Field) : List (Field × TYPE) :=
  fs.map (fun f => (f, .STRING)) ++ [(.age, .INT)]

theorem zeroFrom_beside (hz : ZeroFrom f.offset e) (h : SameBeside f e e') :
    ZeroFrom (f.offset + f.size) e' := by
  intro k hlo hhi
  rw [h k (.inr hlo)]
  exact hz k (by omega) hhi

theorem paramKept_age (e : Priv) (inp : List UInt8) : ParamKept .age .INT e inp := by
  refine ⟨fun bs hbs => ?_, fun r e' rest hcall => ?_⟩
  · obtain ⟨x, -, rfl⟩ := Option.map_eq_some_iff.mp hbs
    obtain ⟨e₁, hput⟩ := put_of_le e Field.age.offset (encode32 (scannedInt x))
      (show Field.age.offset + 4 ≤ sizeofPriv by decide)
    exact ⟨e₁, hput, sameBeside_put hput (Nat.le_refl _) (Nat.le_refl _)⟩
  · rw [processParam] at hcall
    split at hcall
    · cases hcall
      exact sameBeside_refl _ e
    · rename_i x rest' _
      obtain ⟨e₁, hput, hcall⟩ := of_bind_eq_ok hcall
      have hsame : SameBeside .age e e₁ := sameBeside_put hput (Nat.le_refl _) (Nat.le_refl _)
      cases hskip : skipLine rest' with
      | none =>
        rw [hskip] at hcall
        cases hcall
      | some rest'' =>
        rw [hskip] at hcall
        cases hcall
        exact hsame

/-- **All that is typed stays where it belongs exactly when the lines fit.** -/
theorem paramsKept_iff (hfs : Adjacent off fs) (hz : ZeroFrom off e) :
    ParamsKept (callsOf fs) e inp ↔ LinesFit fs inp := by
  induction fs generalizing off e inp with
  | nil => exact ⟨fun _ => trivial, fun _ => ⟨paramKept_age e inp, fun _ _ _ => trivial⟩⟩
  | cons f fs ih =>
    obtain ⟨rfl, hpos, hfs⟩ := hfs
    show ParamKept f .STRING e inp ∧ (∀ e' rest, _ → ParamsKept (callsOf fs) e' rest) ↔ _
    rw [paramKept_iff hz hpos]
    refine and_congr_right fun hfits => ⟨fun hkept hmem => ?_, fun hlines e' rest hcall => ?_⟩
    · have hinp : inp ≠ [] := by
        rintro rfl
        cases hmem
      obtain ⟨e₁, hput⟩ := put_of_le e f.offset (typedLine inp ++ [NUL])
        (by rw [List.length_append, List.length_singleton]; exact hfits.1)
      rcases processParam_line hinp hput with ⟨hnot, -⟩ | ⟨l, rest, e₂, -, -, -, -, hrest, -, -, hok⟩
      · exact absurd hmem hnot
      · have hsame := ((paramKept_iff hz hpos).mpr hfits).call _ _ _ hok
        rw [hrest]
        exact (ih hfs (zeroFrom_beside hz hsame)).mp (hkept e₂ rest hok)
    · have hsame := ((paramKept_iff hz hpos).mpr hfits).call _ _ _ hcall
      have hinp : inp ≠ [] := by
        rintro rfl
        cases (processParam_nothing e f.offset).symm.trans hcall
      obtain ⟨e₁, hput⟩ := put_of_le e f.offset (typedLine inp ++ [NUL])
        (by rw [List.length_append, List.length_singleton]; exact hfits.1)
      rcases processParam_line hinp hput with
        ⟨-, herr⟩ | ⟨l, rest', e₂, -, -, -, -, hrest, hmem, -, hok⟩
      · cases herr.symm.trans hcall
      · cases hok.symm.trans hcall
        rw [← hrest]
        exact (ih hfs (zeroFrom_beside hz hsame)).mpr (hlines hmem)

/-- An accepted line is found in its field. -/
theorem holdsLine_of_cut (hz : ZeroFrom f.offset e) (hlt : l.length < f.size)
    (hput : put e f.offset (l ++ [NEWLINE] ++ [NUL]) = .ok e₁)
    (hcut : put e₁ (f.offset + l.length) [NUL] = .ok e') : HoldsLine e' f l := by
  have hin := f.inside
  have hsize := e'.size_eq
  refine ⟨hlt, List.ext_getElem? fun j => ?_⟩
  by_cases hj : j < f.size
  · have hread : (e'.read f.offset f.size)[j]? = e'.bytes[f.offset + j]? := by
      rw [Block.read, List.getElem?_take_of_lt hj, List.getElem?_drop]
    rw [hread]
    rcases lt_trichotomy j l.length with hlo | rfl | hhi
    · rw [Block.getElem?_write_beside (put_eq_ok hcut) (by omega),
        Block.getElem?_write (put_eq_ok hput) (by simp only [List.length_append]; omega),
        List.append_assoc, List.getElem?_append_left hlo, List.getElem?_append_left hlo]
    · have hbyte := Block.getElem?_write (k := 0) (put_eq_ok hcut) Nat.one_pos
      rw [Nat.add_zero] at hbyte
      rw [hbyte, List.getElem?_append_right (Nat.le_refl _), Nat.sub_self,
        List.getElem?_replicate_of_lt (by omega)]
      rfl
    · have hzero : e'.bytes[f.offset + j]? = some NUL := by
        rw [Block.getElem?_write_beside (put_eq_ok hcut)
          (.inr (show f.offset + l.length + 1 ≤ _ by omega))]
        by_cases hlast : j = l.length + 1
        · rw [hlast, Block.getElem?_write (put_eq_ok hput) (by simp)]
          simp
        · rw [Block.getElem?_write_beside (put_eq_ok hput)
            (.inr (by simp only [List.length_append, List.length_singleton]; omega))]
          exact hz _ (by omega) (by omega)
      rw [hzero, List.getElem?_append_right (by omega), List.getElem?_replicate_of_lt (by omega)]
  · rw [List.getElem?_eq_none (by rw [Block.length_read hin]; omega), List.getElem?_eq_none]
    rw [List.length_append, List.length_replicate]
    omega

theorem HoldsLine.congr (h : HoldsLine e f l)
    (hsame : ∀ k < f.offset + f.size, e'.bytes[k]? = e.bytes[k]?) : HoldsLine e' f l := by
  refine ⟨h.1, ?_⟩
  rw [← h.2]
  refine List.ext_getElem? fun j => ?_
  by_cases hj : j < f.size
  · rw [Block.read, Block.read, List.getElem?_take_of_lt hj, List.getElem?_take_of_lt hj,
      List.getElem?_drop, List.getElem?_drop, hsame _ (by omega)]
  · have hin := f.inside
    rw [List.getElem?_eq_none (by rw [Block.length_read hin]; omega),
      List.getElem?_eq_none (by rw [Block.length_read hin]; omega)]

/-- The fields have their lines after all calls, if these succeed; what stands in front of them is
    as before. -/
theorem params_typed (hfs : Adjacent off fs) (hz : ZeroFrom off e) (hlines : LinesFit fs inp)
    (h : processParams (callsOf fs) e inp = .ok (r, e', rest)) :
    r = ERR ∨ (∀ k < off, e'.bytes[k]? = e.bytes[k]?) ∧
      ∃ ls tail, inp = linesText ls ++ tail ∧ (∀ l ∈ ls, NEWLINE ∉ l) ∧
        List.Forall₂ (HoldsLine e') fs ls := by
  induction fs generalizing off e inp with
  | nil =>
    have hoff : off = Field.age.offset := hfs
    obtain ⟨⟨r₁, e₁, rest₁⟩, hcall, hnext⟩ := of_bind_eq_ok h
    have hsame := (paramKept_age e inp).call _ _ _ hcall
    by_cases hr : r₁ = ERR
    · have hnext : (if r₁ = ERR then _ else _) = _ := hnext
      rw [if_pos hr] at hnext
      cases hnext
      exact .inl rfl
    · have hnext : (if r₁ = ERR then _ else _) = _ := hnext
      rw [if_neg hr] at hnext
      cases hnext
      exact .inr ⟨fun k hk => hsame k (.inl (hoff ▸ hk)), [], inp, rfl, nofun, .nil⟩
  | cons f fs ih =>
    obtain ⟨rfl, hpos, hfs⟩ := hfs
    obtain ⟨hfits, hlines⟩ := hlines
    obtain ⟨⟨r₁, e₁, rest₁⟩, hcall, hnext⟩ := of_bind_eq_ok h
    have hsame := ((paramKept_iff hz hpos).mpr hfits).call _ _ _ hcall
    have hnext : (if r₁ = ERR then .ok (ERR, e₁, rest₁) else processParams (callsOf fs) e₁ rest₁) =
      Except.ok (r, e', rest) := hnext
    by_cases hinp : inp = []
    · subst hinp
      cases (processParam_nothing e f.offset).symm.trans hcall
      cases hnext
      exact .inl rfl
    · obtain ⟨e₀, hput⟩ := put_of_le e f.offset (typedLine inp ++ [NUL])
        (by rw [List.length_append, List.length_singleton]; exact hfits.1)
      rcases processParam_line hinp hput with
        ⟨-, herr⟩ | ⟨l, rest', e₂, hl, -, hline, heq, hrest, hmem, hcut, hok⟩
      · cases herr.symm.trans hcall
        cases hnext
        exact .inl rfl
      · cases hok.symm.trans hcall
        rw [hline] at hput hfits
        rw [hrest] at hlines
        have hheld := holdsLine_of_cut hz hfits.length_lt hput hcut
        refine (ih hfs (zeroFrom_beside hz hsame) (hlines hmem) hnext).imp id ?_
        rintro ⟨hbelow, ls, tail, rfl, hls, htyped⟩
        refine ⟨fun k hk => ?_, l :: ls, tail, ?_, ?_, .cons (hheld.congr hbelow) htyped⟩
        · rw [hbelow k (by omega), hsame k (.inl hk)]
        · rw [heq]
          simp [linesText]
        · exact List.forall_mem_cons.mpr ⟨hl, hls⟩

theorem zeroFrom_zero : ZeroFrom 0 (.zero _) := by
  intro k _ hk
  show (List.replicate sizeofPriv (0 : UInt8))[k]? = _
  rw [List.getElem?_replicate_of_lt hk]
  rfl

/-- **What is typed in for an entry stays in its fields, and is found in them unless the call
    fails, if and only if the lines fit.** -/
theorem lines_kept_iff (inp : List UInt8) : LinesKept inp ↔ LinesFit typedFields inp := by
  constructor
  · intro h
    exact (paramsKept_iff adjacent_typedFields zeroFrom_zero).mp h.kept
  · intro h
    refine ⟨(paramsKept_iff adjacent_typedFields zeroFrom_zero).mpr h, fun r e' rest hcall => ?_⟩
    refine (params_typed adjacent_typedFields zeroFrom_zero h hcall).imp id ?_
    rintro ⟨-, htyped⟩
    exact htyped

/-- A name of `70` letters, and one letter for each other field. -/
def seventyLetters : List UInt8 :=
  linesText [List.replicate 70 120, ascii "m", ascii "l", ascii "1", ascii "o", ascii "5"]

/-- The name fills its field without a terminator, and three of its letters stay in the middle
    name, behind the `m`. -/
theorem name_runs_over :
    (∃ e, processEntry (.zero _) .PRIV seventyLetters = .ok (OK, e, []) ∧
      e.read 0 64 = List.replicate 64 120 ∧
      e.read 64 8 = [109, NUL, NUL, 120, 120, 120, NUL, NUL]) ∧
    ¬ LinesKept seventyLetters := by
  have hrun : (processEntry (.zero _) .PRIV seventyLetters).map
      (fun r => (r.1, r.2.1.read 0 64, r.2.1.read 64 8, r.2.2)) =
        .ok (OK, List.replicate 64 120, [109, NUL, NUL, 120, 120, 120, NUL, NUL], []) := by
    decide +kernel
  cases hcall : processEntry (.zero _) .PRIV seventyLetters with
  | error s =>
    rw [hcall] at hrun
    cases hrun
  | ok r =>
    obtain ⟨r, e, rest⟩ := r
    rw [hcall] at hrun
    injection hrun with hrun
    injection hrun with hr hrun
    injection hrun with hname hrun
    injection hrun with hmname hrest
    have hr : r = OK := hr
    have hrest : rest = [] := hrest
    subst hr hrest
    refine ⟨⟨e, rfl, hname, hmname⟩, fun hkept => ?_⟩
    rcases hkept.typed _ _ _ hcall with hno | ⟨ls, tail, -, -, hheld⟩
    · cases hno
    · cases hheld with
      | cons hfirst _ =>
        obtain ⟨hlt, hread⟩ := hfirst
        have hmem : NUL ∈ e.read Field.name.offset Field.name.size := by
          rw [hread]
          exact List.mem_append_right _ (List.mem_replicate.mpr ⟨by omega, rfl⟩)
        rw [show e.read Field.name.offset Field.name.size = _ from hname] at hmem
        exact absurd (List.eq_of_mem_replicate hmem) (by decide)

end TaskLedger
end Labs
