import Labs.Lib.Loops
import Labs.TaskLedger.Count

/-!
# The address book

`address_book` of `LAB_6/task_ledger/src/address_book.c`, `destructor` and `free_all` of
`constr_destr_init.c`, and `main`. A turn of the loop reads a command with `getchar` and `fgets`, and
does it. What is typed is the bytes of standard input; what the system answers to `malloc`, `calloc`
and to the calls on a file is the `World`, which may answer differently in each turn.

* The digit of a command is the first byte of a line, and the rest of the line is thrown away. So is
  the line of the digit that `DECIDE` reads; at the end of the input `clear_stdin_buffer` goes round
  for ever.
* A file name is what `fgets` has read, less its last byte.
* `load_from` closes descriptor 0 when it finds a file empty, since its `fd` is still zero then. From
  there on nothing more comes than what `stdio` has read ahead (`World.unread`), and then `read` fails:
  `fgets` returns `NULL` for a part of a line (`World.readFails`). In `process_param` that is the same
  as a line without a newline. A file that is opened as descriptor 0 later on, and left open, has been
  read to its end.
* `status` is zero when a turn begins.

`display` and the texts that are printed are left out, but for the walk of `display` over the list.
-/

namespace Labs
namespace TaskLedger

open Lib

def EXIT_SUCCESS : Int := 0
def EXIT_FAILURE : Int := 1

structure World where
  /-- what `malloc` returns in `constructor`: `NULL`, or an object with this behind `entry_total` -/
  object : Option Int
  callocNode : Nat → Bool
  file : Nat → List UInt8 → FileAnswers
  jsmn : List UInt8 → Parsed
  /-- how many bytes `stdio` has read ahead where the `turn`-th turn calls `load_from` -/
  ahead : Nat → Nat
  /-- whether `read` fails behind the input of the `turn`-th turn, and does not find its end -/
  readFails : Nat → Bool

/-! ## 1. Commands -/

inductive Command
  | add (pos : Pos)
  | removeBy (opt : Opt)
  | findBy (opt : Opt)
  | loadFrom (filename : List UInt8)
  /-- `fgets` has read no file name -/
  | noFilename
  | display
  /-- the options are displayed, a complaint is printed, or nothing is done -/
  | nothing
  /-- `EXIT`, or the end of the input -/
  | leave
deriving DecidableEq

/-- `c - '0'`, or zero for what is no positive digit. -/
def digitOf (c : UInt8) : Nat := c.toNat - 48

/-- `if (!isspace(c)) clear_stdin_buffer();` -/
def clearBehind (c : UInt8) (inp : List UInt8) : Except Stop (List UInt8) :=
  if isspace c then .ok inp
  else
    match skipLine inp with
    | none => .error .hang
    | some inp => .ok inp

/-- `DECIDE` and the line behind it. `EOF` is not a space. -/
def decideOption : List UInt8 → Except Stop (Nat × List UInt8)
  | [] => .error .hang
  | c :: inp => do
    let inp ← clearBehind c inp
    return (digitOf c, inp)

def posOf : Nat → Command
  | 1 => .add .BEGIN
  | 2 => .add .MIDDLE
  | 3 => .add .END
  | _ => .nothing

def optOf (command : Opt → Command) : Nat → Command
  | 1 => command .BY_ENTRY
  | 2 => command .BY_NAME
  | 3 => command .BY_MIDDLE_NAME
  | 4 => command .BY_LAST_NAME
  | 5 => command .BY_NUMBER
  | 6 => command .BY_OCCUPATION
  | 7 => command .BY_AGE
  | _ => .nothing

/-- `!*filename || isspace(*filename)`, and the last byte cut off. -/
def filenameOf (line : List UInt8) : Command :=
  if first = NUL ∨ isspace first = true then .nothing else .loadFrom (cstr line).dropLast
where
  first : UInt8 := line.headD NUL

/-- `fgets` needs more than there is, and `read` fails. -/
def CutShort (fails : Bool) (line : List UInt8) : Prop :=
  fails = true ∧ NEWLINE ∉ line ∧ line.length < NAMESIZ * 2 - 1
deriving Decidable

def readFilename (fails : Bool) (inp : List UInt8) : Command × List UInt8 :=
  match fgets (NAMESIZ * 2) inp with
  | none => (.noFilename, inp)
  | some (line, inp) => if CutShort fails line then (.noFilename, inp) else (filenameOf line, inp)

/-- The `switch (c - '0')` up to the call. -/
def readOption (fails : Bool) (inp : List UInt8) : Nat → Except Stop (Command × List UInt8)
  | 1 => do
    let (c, inp) ← decideOption inp
    return (posOf c, inp)
  | 2 => do
    let (c, inp) ← decideOption inp
    return (optOf .removeBy c, inp)
  | 3 => do
    let (c, inp) ← decideOption inp
    return (optOf .findBy c, inp)
  | 4 => .ok (.display, inp)
  | 5 => .ok (readFilename fails inp)
  | 7 => .ok (.leave, inp)
  | _ => .ok (.nothing, inp)

def readCommand (fails : Bool) : List UInt8 → Except Stop (Command × List UInt8)
  | [] => .ok (.leave, [])
  | c :: inp => do
    let inp ← clearBehind c inp
    readOption fails inp (digitOf c)

/-! ## 2. The loop -/

def display (L : Ledger) : Except Stop (List Priv) :=
  findLoop false (fun _ => true) L.heap (L.heap.brk + 1) L.head

/-- What the system says about the file in the `turn`-th turn. The name is not `NULL`. -/
def World.answers (w : World) (turn : Nat) (filename : List UInt8) : FileAnswers :=
  { w.file turn filename with filename := true }

def STDIN_FILENO : Int := 0

/-- The input that is left behind a call which has closed the descriptors `fds`. -/
def World.unread (w : World) (turn : Nat) (fds : List Int) (inp : List UInt8) : List UInt8 :=
  if STDIN_FILENO ∈ fds then inp.take (w.ahead turn) else inp

/-- The `status`, the ledger and the unread input after the command. -/
def perform (w : World) (turn : Nat) (L : Ledger) (inp : List UInt8) :
    Command → Except Stop Result
  | .add pos => add (w.callocNode turn) L none pos inp
  | .removeBy opt => removeBy L opt inp
  | .findBy opt => do
    let (status, _, inp) ← findBy L opt inp
    return (status, L, inp)
  | .loadFrom filename => do
    let (status, L, fds) ← loadFrom w.jsmn (w.answers turn filename) L
    return (status, L, w.unread turn fds inp)
  | .noFilename => .ok (ERR, L, inp)
  | .display => do
    let _ ← display L
    return (OK, L, inp)
  | .nothing | .leave => .ok (OK, L, inp)

/-- The address book at the top of its loop. -/
structure Book where
  turn : Nat
  ledger : Ledger
  input : List UInt8

/-- The command of this turn, and the input behind it. -/
def Book.command (w : World) (b : Book) : Except Stop (Command × List UInt8) :=
  readCommand (w.readFails b.turn) b.input

/-- A turn ends with the `status` and the ledger that are there at `end`, or goes on. -/
def Book.next (w : World) (b : Book) : Except Stop ((Int × Ledger) ⊕ Book) := do
  let (command, inp) ← b.command w
  if command = .leave then return .inl (OK, b.ledger)
  else
    let (status, L, inp) ← perform w b.turn b.ledger inp command
    if status ≠ OK then return .inl (status, L) else return .inr ⟨b.turn + 1, L, inp⟩

/-! ## 3. Every turn reads something -/

variable {w : World} {L : Ledger} {inp : List UInt8}

/-- The call stops, or leaves no more to read than there was. -/
def Consumes {α : Type} (rest : α → List UInt8) (inp : List UInt8) (x : Except Stop α) : Prop :=
  Ends x (fun _ => True) fun a => (rest a).length ≤ inp.length

theorem Consumes.bind {α β : Type} {rest : α → List UInt8} {rest' : β → List UInt8}
    {x : Except Stop α} {f : α → Except Stop β} (hx : Consumes rest inp x)
    (hf : ∀ a, Consumes rest' (rest a) (f a)) : Consumes rest' inp (x >>= f) :=
  Ends.bind hx fun a ha => (hf a).mono (fun _ _ => trivial) fun _ hb => hb.trans ha

theorem clearBehind_consumes (c : UInt8) : Consumes id inp (clearBehind c inp) := by
  unfold clearBehind
  split
  · exact Nat.le_refl _
  · split
    · exact trivial
    · rename_i rest hskip
      exact skipLine_length hskip

theorem processParam_consumes (e : Priv) (off size : Nat) (dataType : TYPE) :
    Consumes (·.2.2) inp (processParam e off size dataType inp) := by
  cases dataType with
  | STRING =>
    rw [processParam]
    split
    · exact Nat.le_refl _
    · rename_i line rest hline
      have hrest := fgets_rest_length hline
      refine Ends.skip _ fun e => ?_
      split
      · exact hrest
      · exact Ends.skip _ fun e => hrest
  | INT =>
    rw [processParam]
    have hrest := scanInt_length inp
    split
    · rename_i rest hscan
      rw [hscan] at hrest
      exact hrest
    · rename_i x rest hscan
      rw [hscan] at hrest
      refine Ends.skip _ fun e => ?_
      split
      · exact trivial
      · rename_i rest' hskip
        exact (skipLine_length hskip).trans hrest
  | BYTE | POINTER | PRIV => exact Nat.le_refl _

theorem processParams_consumes (fs : List (Field × TYPE)) (e : Priv) :
    Consumes (·.2.2) inp (processParams fs e inp) := by
  induction fs generalizing e inp with
  | nil => exact Nat.le_refl _
  | cons ft fs ih =>
    obtain ⟨f, t⟩ := ft
    rw [processParams]
    refine (processParam_consumes e f.offset BUFSIZE t).bind ?_
    rintro ⟨r, e, rest⟩
    show Consumes _ rest (if r = ERR then _ else _)
    split
    · exact Nat.le_refl _
    · exact ih e

theorem processEntry_consumes (e : Priv) (dataType : TYPE) :
    Consumes (·.2.2) inp (processEntry e dataType inp) := by
  cases dataType with
  | PRIV => exact processParams_consumes params e
  | _ => exact Nat.le_refl _

theorem add_consumes (callocOk : Bool) (L : Ledger) (entry : Option Priv) (pos : Pos) :
    Consumes (·.2.2) inp (add callocOk L entry pos inp) := by
  unfold add
  split
  · exact Nat.le_refl _
  · have hfill : Consumes (·.2.2) inp (obtainEntry entry inp) := by
      cases entry with
      | none => exact processEntry_consumes _ .PRIV
      | some e => exact Nat.le_refl _
    refine hfill.bind ?_
    rintro ⟨r, e, rest⟩
    show Consumes _ rest (if r = ERR then _ else _)
    split
    · exact Nat.le_refl _
    · split
      · exact Nat.le_refl _
      · exact Ends.skip _ fun _ => Nat.le_refl _

theorem readKey_consumes (opt : Opt) (f : Field) :
    Consumes (·.2.2) inp (readKey opt f inp) := by
  cases opt with
  | BY_ENTRY => exact processEntry_consumes (.zero _) .PRIV
  | BY_AGE => exact processParam_consumes (.zero _) f.offset f.size .INT
  | _ => exact processParam_consumes (.zero _) f.offset f.size .STRING

theorem removeBy_consumes (L : Ledger) (opt : Opt) :
    Consumes (·.2.2) inp (removeBy L opt inp) := by
  unfold removeBy
  split
  · exact Nat.le_refl _
  · refine (readKey_consumes opt _).bind ?_
    rintro ⟨r, key, rest⟩
    show Consumes _ rest (if r = ERR then _ else _)
    split
    · exact Nat.le_refl _
    · exact Ends.skip _ fun _ => Nat.le_refl _

theorem findBy_consumes (L : Ledger) (opt : Opt) :
    Consumes (·.2.2) inp (findBy L opt inp) := by
  unfold findBy
  split
  · exact Nat.le_refl _
  · refine (readKey_consumes opt _).bind ?_
    rintro ⟨r, key, rest⟩
    show Consumes _ rest (if r = ERR then _ else _)
    split
    · exact Nat.le_refl _
    · exact Ends.skip _ fun _ => Nat.le_refl _

theorem unread_length_le (w : World) (turn : Nat) (fds : List Int) (inp : List UInt8) :
    (w.unread turn fds inp).length ≤ inp.length := by
  unfold World.unread
  split
  · exact List.length_take_le' _ _
  · exact Nat.le_refl _

theorem perform_consumes (turn : Nat) (command : Command) :
    Consumes (·.2.2) inp (perform w turn L inp command) := by
  cases command with
  | add pos => exact add_consumes _ _ _ _
  | removeBy opt => exact removeBy_consumes _ _
  | findBy opt => exact (findBy_consumes L opt).bind fun _ => Nat.le_refl _
  | loadFrom filename => exact Ends.skip _ fun _ => unread_length_le w turn _ inp
  | display => exact Ends.skip _ fun _ => Nat.le_refl _
  | noFilename | nothing | leave => exact Nat.le_refl _

theorem readOption_consumes (fails : Bool) (c : Nat) :
    Consumes Prod.snd inp (readOption fails inp c) := by
  have hdecide : Consumes Prod.snd inp (decideOption inp) := by
    cases inp with
    | nil => exact trivial
    | cons c inp =>
      have hline : Consumes Prod.snd inp (decideOption (c :: inp)) :=
        (clearBehind_consumes c).bind fun _ => Ends.ok (Nat.le_refl _)
      exact Ends.mono hline (fun _ h => h) fun _ hle => hle.trans (Nat.le_succ _)
  unfold readOption
  split
  case h_1 | h_2 | h_3 => exact hdecide.bind fun _ => Nat.le_refl _
  case h_5 =>
    unfold readFilename
    split
    · exact Nat.le_refl _
    · rename_i hline
      have hrest := fgets_rest_length hline
      split
      · exact hrest
      · exact hrest
  all_goals exact Nat.le_refl _

/-- A turn that goes on has read the byte of its command at least. -/
theorem next_shrinks (w : World) : Shrinking (Book.next w) fun b => b.input.length := by
  intro b b' hnext
  obtain ⟨turn, L, inp⟩ := b
  cases inp with
  | nil => cases hnext
  | cons c inp =>
    have hread : Consumes Prod.snd inp (readCommand (w.readFails turn) (c :: inp)) :=
      (clearBehind_consumes c).bind fun _ => readOption_consumes _ _
    have hturn : Ends (Book.next w ⟨turn, L, c :: inp⟩) (fun _ => True) fun r =>
        ∀ b', r = .inr b' → b'.input.length ≤ inp.length := by
      refine Ends.bind hread ?_
      rintro ⟨command, rest⟩ hrest
      show Ends (if command = .leave then _ else _) _ _
      split
      · exact nofun
      · refine Ends.bind (perform_consumes turn command) ?_
        rintro ⟨status, L, rest'⟩ hrest'
        show Ends (if status ≠ OK then _ else _) _ _
        split
        · exact nofun
        · intro b' hb'
          cases hb'
          exact hrest'.trans hrest
    exact Nat.lt_succ_of_le (hturn.of_eq_ok hnext b' rfl)

/-! ## 4. `address_book` and `main` -/

/-- The loop of `free_all`. -/
def freeAll : Nat → Heap Priv → Link → Except Stop (Heap Priv)
  | 0, _, _ => .error .hang
  | _ + 1, h, none => .ok h
  | fuel + 1, h, some p => do
    let n ← h.load (some p)
    let h ← h.free (some p)
    freeAll fuel h n.next

def destructor (L : Ledger) : Except Stop (Heap Priv) := freeAll (L.heap.brk + 1) L.heap L.head

def addressBook (w : World) (inp : List UInt8) : Except Stop Int :=
  match w.object with
  | none => .ok EXIT_FAILURE
  | some garbage => do
    let (status, L) ← loop (Book.next w) (fun b => b.input.length) (next_shrinks w)
      ⟨0, initObj garbage, inp⟩
    let _ ← destructor L
    return status

/-- `main`. -/
def mainProgram (w : World) (inp : List UInt8) : Except Stop Int := do
  let status ← addressBook w inp
  if status = -1 then return EXIT_FAILURE else return EXIT_SUCCESS

end TaskLedger
end Labs
