import Labs.Lib.Block
import Labs.Lib.NodeHeap
import Labs.Lib.Stdio

/-!
# The entry of a ledger and how it is typed in

`struct priv` of `LAB_6/task_ledger/include/address_book_internals.h` is `292` bytes without
padding: four names of `NAMESIZ`, an occupation of `OCCUPSIZ` and an `int`. A field is an offset
and a size in it. The two functions of `src/ledger_funcs.c` that fill an entry from standard
input are here:

* `processParam` reads one field. `fgets` stores what it read at the field and does not know
  where the field ends: `size` is the caller's. A write that leaves the entry is the stop
  `outOfBounds`; one that stays inside it changes the fields behind.
* `processEntry` reads the six fields in the order of the prompts, all with `BUFSIZE`.

`remove_by` and `find_by` read their key with the size of the field, `processEntry` does not.
`clear_stdin_buffer` waits for a newline and never looks for the end of the input: `hang`.
-/

namespace Labs
namespace TaskLedger

open Lib

def NAMESIZ : Nat := 64
def OCCUPSIZ : Nat := 32
def BUFSIZE : Nat := 256
def OK : Int := 0
def ERR : Int := -1

/-- `sizeof(Priv)`. -/
def sizeofPriv : Nat := 292

abbrev Priv := Block sizeofPriv

/-- A member of `struct priv`, or the whole of it. -/
structure Field where
  offset : Nat
  size : Nat
  inside : offset + size ≤ sizeofPriv
deriving DecidableEq

namespace Field

def name : Field := ⟨0, NAMESIZ, by decide⟩
def mname : Field := ⟨64, NAMESIZ, by decide⟩
def lname : Field := ⟨128, NAMESIZ, by decide⟩
def number : Field := ⟨192, NAMESIZ, by decide⟩
def occup : Field := ⟨256, OCCUPSIZ, by decide⟩
def age : Field := ⟨288, 4, by decide⟩
def whole : Field := ⟨0, sizeofPriv, by decide⟩

end Field

/-- `*entry.field`: the first byte, for the tests `!*entry.field`. -/
def first (e : Priv) (f : Field) : UInt8 := (e.bytes.drop f.offset).headD NUL

/-- `entry.age`. -/
def ageOf (e : Priv) : Int := decode32 (e.read Field.age.offset Field.age.size)

/-- `cmp(obj1, obj2, size) == FOUND` at the field's offset in both entries. -/
def cmp (e₁ e₂ : Priv) (f : Field) : Bool := e₁.read f.offset f.size == e₂.read f.offset f.size

inductive TYPE
  | BYTE
  | INT
  | POINTER
  | STRING
  | PRIV
deriving DecidableEq

/-- What a function that fills an entry leaves: its result, the entry, the unread input. -/
abbrev Filled := Int × Priv × List UInt8

def put (e : Priv) (off : Nat) (bs : List UInt8) : Except Stop Priv :=
  match e.write off bs with
  | none => .error .outOfBounds
  | some e' => .ok e'

def processParam (e : Priv) (off size : Nat) (dataType : TYPE) (inp : List UInt8) :
    Except Stop Filled :=
  match dataType with
  | .STRING =>
    match fgets size inp with
    | none => .ok (ERR, e, inp)
    | some (line, rest) => do
      let e ← put e off (line ++ [NUL])
      match memchr (cstr (e.bytes.drop off)) NEWLINE with
      | none => return (ERR, e, rest)
      | some subStr => return (OK, ← put e (off + subStr) [NUL], rest)
  | .INT =>
    match scanInt inp with
    | (none, rest) => .ok (ERR, e, rest)
    | (some x, rest) => do
      let e ← put e off (encode32 (scannedInt x))
      match skipLine rest with
      | none => .error .hang
      | some rest => return (OK, e, rest)
  | _ => .ok (OK, e, inp)

/-- The calls of `process_param` in the case `PRIV`. -/
def params : List (Field × TYPE) :=
  [(.name, .STRING), (.mname, .STRING), (.lname, .STRING), (.number, .STRING),
    (.occup, .STRING), (.age, .INT)]

/-- Each `if (ERR == process_param(…)) goto fail;` in turn. -/
def processParams : List (Field × TYPE) → Priv → List UInt8 → Except Stop Filled
  | [], e, inp => .ok (OK, e, inp)
  | (f, t) :: fs, e, inp => do
    let (r, e, inp) ← processParam e f.offset BUFSIZE t inp
    if r = ERR then return (ERR, e, inp) else processParams fs e inp

def processEntry (e : Priv) (dataType : TYPE) (inp : List UInt8) : Except Stop Filled :=
  match dataType with
  | .PRIV => processParams params e inp
  | _ => .ok (OK, e, inp)

/-! ## Where a read can leave the entry -/

/-- What `process_param` stores at `off` ends inside the entry. -/
def ParamFits (off size : Nat) (dataType : TYPE) (inp : List UInt8) : Prop :=
  match dataType with
  | .STRING => ∀ line rest, fgets size inp = some (line, rest) → off + line.length + 1 ≤ sizeofPriv
  | .INT => off + 4 ≤ sizeofPriv
  | _ => True

theorem fgets_fits {off size : Nat} {inp : List UInt8} (hpos : 0 < size)
    (h : off + size ≤ sizeofPriv) : ParamFits off size .STRING inp := by
  intro line rest hline
  have := fgets_length hline
  omega

theorem put_of_le (e : Priv) (off : Nat) (bs : List UInt8) (h : off + bs.length ≤ sizeofPriv) :
    ∃ e', put e off bs = .ok e' := by
  obtain ⟨e', he⟩ := Block.write_of_le (b := e) h
  exact ⟨e', by rw [put, he]⟩

/-- The newline found in the string at `off` is inside the entry. -/
theorem newline_inside {e : Priv} {off k : Nat}
    (h : memchr (cstr (e.bytes.drop off)) NEWLINE = some k) : off + k + 1 ≤ sizeofPriv := by
  have hk : k < (cstr (e.bytes.drop off)).length := by
    obtain ⟨hlt, -⟩ := List.findIdx?_eq_some_iff_getElem.mp h
    exact hlt
  have hpre : (cstr (e.bytes.drop off)).length ≤ (e.bytes.drop off).length :=
    (List.takeWhile_prefix _).length_le
  have hsize := e.size_eq
  rw [List.length_drop] at hpre
  omega

theorem processParam_ends {e : Priv} {off size : Nat} {dataType : TYPE} {inp : List UInt8}
    (h : ParamFits off size dataType inp) :
    Ends (processParam e off size dataType inp) (· = .hang)
      fun (r, _, _) => r = OK ∨ r = ERR := by
  cases dataType with
  | STRING =>
    rw [processParam]
    cases hline : fgets size inp with
    | none => exact .inr rfl
    | some lr =>
      obtain ⟨line, rest⟩ := lr
      obtain ⟨e₁, he₁⟩ := put_of_le e off (line ++ [NUL])
        (by simpa [Nat.add_assoc] using h line rest hline)
      show Ends (put e off (line ++ [NUL]) >>= _) _ _
      rw [bind_of_ok he₁]
      cases hk : memchr (cstr (e₁.bytes.drop off)) NEWLINE with
      | none => exact .inr rfl
      | some k =>
        obtain ⟨e₂, he₂⟩ := put_of_le e₁ (off + k) [NUL] (newline_inside hk)
        show Ends (put e₁ (off + k) [NUL] >>= _) _ _
        rw [bind_of_ok he₂]
        exact .inl rfl
  | INT =>
    rw [processParam]
    cases hx : scanInt inp with
    | mk v rest =>
      cases v with
      | none => exact .inr rfl
      | some x =>
        obtain ⟨e₁, he₁⟩ := put_of_le e off (encode32 (scannedInt x)) h
        show Ends (put e off (encode32 (scannedInt x)) >>= _) _ _
        rw [bind_of_ok he₁]
        cases skipLine rest with
        | none => exact rfl
        | some rest => exact .inl rfl
  | _ => exact .inl rfl

/-- Every line that is read for the fields `fs` ends, with its terminator, inside the entry. -/
def ParamsFit : List (Field × TYPE) → Priv → List UInt8 → Prop
  | [], _, _ => True
  | (f, t) :: fs, e, inp => ParamFits f.offset BUFSIZE t inp ∧
      ∀ e' rest, processParam e f.offset BUFSIZE t inp = .ok (OK, e', rest) → ParamsFit fs e' rest

theorem processParams_ends {fs : List (Field × TYPE)} {e : Priv} {inp : List UInt8}
    (h : ParamsFit fs e inp) :
    Ends (processParams fs e inp) (· = .hang) fun (r, _, _) => r = OK ∨ r = ERR := by
  induction fs generalizing e inp with
  | nil => exact .inl rfl
  | cons ft fs ih =>
    obtain ⟨f, t⟩ := ft
    have hends := processParam_ends (e := e) h.1
    rw [processParams]
    cases hp : processParam e f.offset BUFSIZE t inp with
    | error s =>
      rw [hp] at hends
      exact hends
    | ok r =>
      obtain ⟨r, e', rest⟩ := r
      rcases hends.of_eq_ok hp with hr | hr
      · have hr' : r = OK := hr
        subst hr'
        exact ih (h.2 e' rest hp)
      · have hr' : r = ERR := hr
        subst hr'
        exact .inr rfl

/-- The lines typed for a whole entry fit into it. -/
def EntryFits (inp : List UInt8) : Prop := ParamsFit params (.zero _) inp

theorem processEntry_ends {inp : List UInt8} (h : EntryFits inp) :
    Ends (processEntry (.zero _) .PRIV inp) (· = .hang) fun (r, _, _) => r = OK ∨ r = ERR :=
  processParams_ends h

end TaskLedger
end Labs
