import Labs.Lib.Loops
import Labs.Lib.Stdio

/-!
# The address book with slots

`LAB_4/task_ledger`. The customers are kept in an array of `MAX_PRIV` slots; a slot is free if its
name is empty, and `remove_` makes it free again. What is typed is the bytes of standard input.

* A `CStr size` is a string with its terminator in `size` bytes; the members of a `Priv` are such.
* `add` takes the first free slot. `remove_` and `find` ask at each customer of the name, and a slot
  is left as it is unless the answer is `y`. `display` walks up to the first free slot.
* `Said` is what a turn of the loop has printed, less the prompts: `said` in the state is all of it,
  the last first.
* `clear_stdin_buffer` waits for a newline and never looks for the end of the input: `hang`.
-/

namespace Labs
namespace AddressBook

open Lib

def NAMESIZ : Nat := 64
def NUMSIZ : Nat := 64
def OCCUPSIZ : Nat := 32
def BUFSIZE : Nat := 256
def MAX_PRIV : Nat := 64
def OK : Int := 0
def ERR : Int := -1
def EXIT_SUCCESS : Int := 0
def EXIT_FAILURE : Int := 1

structure CStr (size : Nat) where
  text : List UInt8
  nulFree : NUL ∉ text
  fits : text.length < size
deriving DecidableEq

def CStr.empty (size : Nat) (h : 0 < size) : CStr size := ⟨[], List.not_mem_nil, h⟩

structure Priv where
  name : CStr NAMESIZ
  middleName : CStr NAMESIZ
  lastName : CStr NAMESIZ
  phoneNumber : CStr NUMSIZ
  occupation : CStr OCCUPSIZ
  age : Int
deriving DecidableEq

/-- A slot after `memset(…, 0, …)`. -/
def Priv.zero : Priv where
  name := .empty NAMESIZ (by decide)
  middleName := .empty NAMESIZ (by decide)
  lastName := .empty NAMESIZ (by decide)
  phoneNumber := .empty NUMSIZ (by decide)
  occupation := .empty OCCUPSIZ (by decide)
  age := 0

/-- `*name == '\0'`. -/
def Priv.free (p : Priv) : Bool := p.name.text.isEmpty

structure Slots where
  list : List Priv
  length_eq : list.length = MAX_PRIV

def Slots.zero : Slots := ⟨List.replicate MAX_PRIV .zero, List.length_replicate⟩

def Slots.set (slots : Slots) (i : Nat) (p : Priv) : Slots :=
  ⟨slots.list.set i p, by rw [List.length_set, slots.length_eq]⟩

/-! ## 1. `process_param` -/

theorem nul_notMem_take_cstr (bs : List UInt8) (k : Nat) : NUL ∉ (cstr bs).take k :=
  fun h => cstr_nul_free bs (List.mem_of_mem_take h)

theorem length_take_lt {size k : Nat} {inp line rest : List UInt8}
    (hline : fgets size inp = some (line, rest)) (hk : memchr (cstr line) NEWLINE = some k) :
    ((cstr line).take k).length < size := by
  have hlen := fgets_length hline
  have hlt : k < (cstr line).length := (List.findIdx?_eq_some_iff_getElem.mp hk).1
  have hcstr : (cstr line).length ≤ line.length := (List.takeWhile_prefix _).length_le
  rw [List.length_take]
  omega

/-- The case `STRING`. A line is refused if it is empty, or has no newline in the buffer. -/
def processString (size : Nat) (inp : List UInt8) : Option (CStr size) × List UInt8 :=
  match hline : fgets size inp with
  | none => (none, inp)
  | some (line, rest) =>
    match hk : memchr (cstr line) NEWLINE with
    | none => (none, rest)
    | some k =>
      if k = 0 then (none, rest)
      else
        (some ⟨(cstr line).take k, nul_notMem_take_cstr line k, length_take_lt hline hk⟩, rest)

/-- The case `INT`, with as many tries as there are. -/
def tryAgain : Nat → List UInt8 → Except Stop (Option Int × List UInt8)
  | 0, _ => .error .hang
  | tries + 1, inp =>
    match scanInt inp with
    | (none, rest) => .ok (none, rest)
    | (some x, rest) =>
      match skipLine rest with
      | none => .error .hang
      | some rest =>
        if scannedInt x ≤ 0 then tryAgain tries rest else .ok (some (scannedInt x), rest)

/-- Every try reads a newline. -/
def processInt (inp : List UInt8) : Except Stop (Option Int × List UInt8) :=
  tryAgain (inp.length + 1) inp

/-! ## 2. The commands -/

inductive Said
  /-- "Added the new customer!" -/
  | added (p : Priv)
  /-- "failed to add another customer: out of space", and "Added the new customer!" -/
  | outOfSpace (p : Priv)
  /-- the answer to "Delete?" was `y` -/
  | removed (p : Priv)
  /-- no slot has been made free -/
  | notRemoved
  | found (customers : List Priv)
  | displayed (customers : List Priv)
  | options
  | unknown
  /-- the call has failed -/
  | failed
deriving DecidableEq

structure Result where
  status : Int
  said : Said
  slots : Slots
  rest : List UInt8

/-- The calls of `process_param` in `add`, until one fails. -/
def readPriv (inp : List UInt8) : Except Stop (Option Priv × List UInt8) :=
  match processString NAMESIZ inp with
  | (none, inp) => .ok (none, inp)
  | (some name, inp) =>
    match processString NAMESIZ inp with
    | (none, inp) => .ok (none, inp)
    | (some middleName, inp) =>
      match processString NAMESIZ inp with
      | (none, inp) => .ok (none, inp)
      | (some lastName, inp) =>
        match processString NUMSIZ inp with
        | (none, inp) => .ok (none, inp)
        | (some phoneNumber, inp) =>
          match processString OCCUPSIZ inp with
          | (none, inp) => .ok (none, inp)
          | (some occupation, inp) => do
            let (age, inp) ← processInt inp
            return (age.map fun age =>
              ⟨name, middleName, lastName, phoneNumber, occupation, age⟩, inp)

def Slots.firstFree (slots : Slots) : Option Nat := slots.list.findIdx? Priv.free

def add (slots : Slots) (inp : List UInt8) : Except Stop Result := do
  let (newPriv, inp) ← readPriv inp
  match newPriv with
  | none => return ⟨ERR, .failed, slots, inp⟩
  | some newPriv =>
    match slots.firstFree with
    | none => return ⟨OK, .outOfSpace newPriv, slots, inp⟩
    | some i => return ⟨OK, .added newPriv, slots.set i newPriv, inp⟩

def tolower (c : UInt8) : UInt8 := if 65 ≤ c ∧ c ≤ 90 then c + 32 else c

def CHAR_y : UInt8 := 121
def CHAR_n : UInt8 := 110

/-- The loop of `remove_`, from slot `i` on: the slot that is to be freed. -/
def removeLoop (buf : List UInt8) : List Priv → Nat → List UInt8 →
    Except Stop (Option Nat × List UInt8)
  | [], _, inp => .ok (none, inp)
  | p :: ps, i, inp =>
    if buf = p.name.text then
      match inp with
      | [] => .ok (none, [])
      | c :: inp =>
        match skipLine inp with
        | none => .error .hang
        | some inp =>
          if tolower c ≠ CHAR_y then removeLoop buf ps (i + 1) inp else .ok (some i, inp)
    else removeLoop buf ps (i + 1) inp

def remove_ (slots : Slots) (inp : List UInt8) : Except Stop Result :=
  match processString BUFSIZE inp with
  | (none, inp) => .ok ⟨ERR, .failed, slots, inp⟩
  | (some buf, inp) => do
    let (freed, inp) ← removeLoop buf.text slots.list 0 inp
    match freed with
    | none => return ⟨OK, .notRemoved, slots, inp⟩
    | some i => return ⟨OK, .removed (slots.list.getD i .zero), slots.set i .zero, inp⟩

/-- The loop of `find`, from a slot on: the customers that are shown. -/
def findLoop (buf : List UInt8) : List Priv → List UInt8 → Except Stop (List Priv × List UInt8)
  | [], inp => .ok ([], inp)
  | p :: ps, inp =>
    if p.name.text = buf then
      match inp with
      | [] => .ok ([p], [])
      | c :: inp =>
        match skipLine inp with
        | none => .error .hang
        | some inp =>
          if tolower c ≠ CHAR_n then do
            let (found, inp) ← findLoop buf ps inp
            return (p :: found, inp)
          else .ok ([p], inp)
    else findLoop buf ps inp

def find (slots : Slots) (inp : List UInt8) : Except Stop Result :=
  match processString BUFSIZE inp with
  | (none, inp) => .ok ⟨ERR, .failed, slots, inp⟩
  | (some buf, inp) => do
    let (found, inp) ← findLoop buf.text slots.list inp
    return ⟨OK, .found found, slots, inp⟩

def display (slots : Slots) : List Priv := slots.list.takeWhile fun p => !p.free

/-! ## 3. `address_book` -/

structure Book where
  slots : Slots
  input : List UInt8
  said : List Said

/-- `c - '0'`, or zero for what is no positive digit. -/
def digitOf (c : UInt8) : Nat := c.toNat - 48

/-- `if (!isspace(c)) clear_stdin_buffer();` -/
def clearBehind (c : UInt8) (inp : List UInt8) : Except Stop (List UInt8) :=
  if isspace c then .ok inp
  else
    match skipLine inp with
    | none => .error .hang
    | some inp => .ok inp

/-- The `switch (c - '0')`, but for `EXIT`. -/
def perform (slots : Slots) (inp : List UInt8) : Nat → Except Stop Result
  | 1 => add slots inp
  | 2 => remove_ slots inp
  | 3 => find slots inp
  | 4 => .ok ⟨OK, .displayed (display slots), slots, inp⟩
  | 5 => .ok ⟨OK, .options, slots, inp⟩
  | _ => .ok ⟨OK, .unknown, slots, inp⟩

/-- A turn ends with the `status` that is there at `end`, or goes on. -/
def Book.next (b : Book) : Except Stop (Int ⊕ Book) :=
  match b.input with
  | [] => .ok (.inl EXIT_SUCCESS)
  | c :: inp => do
    let inp ← clearBehind c inp
    if digitOf c = 6 then return .inl EXIT_SUCCESS
    else
      let r ← perform b.slots inp (digitOf c)
      if r.status = ERR then return .inl EXIT_FAILURE
      else return .inr ⟨r.slots, r.rest, r.said :: b.said⟩

/-- The ledger and the input at the start of `address_book`. -/
def start (inp : List UInt8) : Book := ⟨.zero, inp, []⟩

/-! ## 4. What is typed -/

/-- There are tries enough. -/
theorem tryAgain_eq_processInt {tries : Nat} {inp : List UInt8} (h : inp.length < tries) :
    tryAgain tries inp = processInt inp := by
  have hsame : ∀ n m (inp : List UInt8), inp.length < n → inp.length < m →
      tryAgain n inp = tryAgain m inp := by
    intro n
    induction n with
    | zero => exact fun m inp hn => absurd hn (Nat.not_lt_zero _)
    | succ n ih =>
      intro m inp hn hm
      obtain ⟨m, rfl⟩ := Nat.exists_eq_add_one.mpr (Nat.zero_lt_of_lt hm)
      unfold tryAgain
      split
      · rfl
      · rename_i x rest hx
        have hscan : (scanInt inp).2.length ≤ inp.length := scanInt_length inp
        simp only [hx] at hscan
        cases hskip : skipLine rest with
        | none => rfl
        | some rest' =>
          have hlt := skipLine_length_lt hskip
          simp only
          rw [ih m rest' (by omega) (by omega)]
  exact hsame tries (inp.length + 1) inp h (Nat.lt_succ_self _)

theorem text_ne_nil_of_processString {size : Nat} {inp rest : List UInt8} {s : CStr size}
    (h : processString size inp = (some s, rest)) : s.text ≠ [] := by
  unfold processString at h
  split at h
  · cases h
  · split at h
    · cases h
    · rename_i hk
      split at h
      · cases h
      · rename_i hpos
        cases h
        have hlt := (List.findIdx?_eq_some_iff_getElem.mp hk).1
        intro hnil
        have hlen := congrArg List.length hnil
        rw [List.length_take, List.length_nil] at hlen
        omega

/-- The name of a customer that has been typed in is not empty. -/
theorem free_of_readPriv {inp rest : List UInt8} {p : Priv}
    (h : readPriv inp = .ok (some p, rest)) : p.free = false := by
  unfold readPriv at h
  split at h
  · cases h
  · rename_i name inp₁ hname
    have hne := text_ne_nil_of_processString hname
    have hnamed : p.name = name := by
      split at h
      · cases h
      · split at h
        · cases h
        · split at h
          · cases h
          · split at h
            · cases h
            · obtain ⟨⟨age, inp'⟩, -, hage⟩ := of_bind_eq_ok h
              cases age with
              | none => cases hage
              | some age =>
                cases hage
                rfl
    rw [Priv.free, hnamed]
    exact List.isEmpty_eq_false_iff.mpr hne

end AddressBook
end Labs
