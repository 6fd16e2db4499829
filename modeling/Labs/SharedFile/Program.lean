import Labs.Lib.CString

/-!
# A file through shared memory

The writer and the reader of `LAB_16/task_system_v_shmem_1/src` and of
`LAB_16/task_posix_shmem_1/src`. A run of the writer copies a file to a segment that it leaves
behind, a run of the reader prints the segment and removes it. The runs come one after another and
in any order, and each call of a run can fail.

The options are given: all runs use the one key or name. What `stat` says of the file need not be
what `read` finds later, which is at most as much.
-/

namespace Labs
namespace SharedFile

open Lib

inductive Version
  | systemV
  | posix
deriving DecidableEq

def EXIT_SUCCESS : Nat := 0
def EXIT_FAILURE : Nat := 1
def SHMMIN : Nat := 1

/-- `attach` is `shmat` or `mmap`, `detach` is `shmdt` or `munmap`, `size` is `shmctl` with
    `IPC_STAT` or `fstat`, and `remove` is `shmctl` with `IPC_RMID` or `shm_unlink`. -/
inductive Call
  | statKey
  | stat
  | getpagesize
  | calloc
  | openFile
  | read
  | ftok
  | shmget
  | shmOpen
  | ftruncate
  | attach
  | detach
  | size
  | remove
deriving DecidableEq

/-- What a run of the writer is given. -/
structure Writing where
  fails : Call → Bool
  regular : Bool
  stSize : Nat
  bytes : List UInt8
  bytes_le : bytes.length ≤ stSize

/-- What a run of the reader is given. -/
structure Reading where
  fails : Call → Bool

inductive Run
  | write (w : Writing)
  | read (r : Reading)

/-- The bytes of the segment, if there is one. -/
abbrev Store : Type := Option (List UInt8)

inductive Ending
  | returned (status : Nat)
  | outOfBounds
deriving DecidableEq

structure Outcome where
  ending : Ending
  printed : Option (List UInt8)
deriving DecidableEq

def Outcome.success : Outcome := ⟨.returned EXIT_SUCCESS, none⟩
def Outcome.failure : Outcome := ⟨.returned EXIT_FAILURE, none⟩

/-- The status after a last call. -/
def Outcome.ofCall (failed : Bool) : Outcome := if failed then .failure else .success

def Outcome.printing (o : Outcome) (text : List UInt8) : Outcome := { o with printed := some text }

/-! ## 1. The writers -/

/-- What both writers do before they look for the segment: the bytes they read, or how they end. -/
def payload (pageSize : Nat) (w : Writing) : Except Outcome (List UInt8) :=
  if w.fails .stat then .error .failure
  else if w.regular = false then .error .success
  else if w.fails .getpagesize then .error .failure
  else if w.stSize < SHMMIN then .error .failure
  else if pageSize * 4 < w.stSize then .error .failure
  else if w.fails .calloc then .error .failure
  else if w.fails .openFile then .error .failure
  else if w.fails .read then .error .failure
  else .ok w.bytes

/-- `shmget(key, size, IPC_CREAT | PERMS)`. -/
def shmget (size : Nat) : Store → Store
  | none => some (List.replicate size 0)
  | some seg => if size ≤ seg.length then some seg else none

/-- `ftruncate(shmfd, size)`. -/
def ftruncate (size : Nat) (seg : List UInt8) : List UInt8 :=
  seg.take size ++ List.replicate (size - seg.length) 0

def memcpy (seg src : List UInt8) : Option (List UInt8) :=
  if src.length ≤ seg.length then some (src ++ seg.drop src.length) else none

def systemVWriter (pageSize : Nat) (w : Writing) (s : Store) : Outcome × Store :=
  if w.fails .statKey then (.failure, s)
  else
    match payload pageSize w with
    | .error o => (o, s)
    | .ok bytes =>
      if w.fails .ftok then (.failure, s)
      else if w.fails .shmget then (.failure, s)
      else
        match shmget (w.stSize + 1) s with
        | none => (.failure, s)
        | some seg =>
          if w.fails .attach then (.failure, some seg)
          else
            -- the terminator is the one that `calloc` left behind the payload
            match memcpy seg (bytes ++ [NUL]) with
            | none => (⟨.outOfBounds, none⟩, some seg)
            | some seg' => (.ofCall (w.fails .detach), some seg')

def posixWriter (pageSize : Nat) (w : Writing) (s : Store) : Outcome × Store :=
  match payload pageSize w with
  | .error o => (o, s)
  | .ok bytes =>
    if w.fails .shmOpen then (.failure, s)
    else
      -- a new object is empty
      let seg := s.getD []
      if w.fails .ftruncate then (.failure, some seg)
      else
        let seg' := ftruncate (bytes.length + 1) seg
        if w.fails .attach then (.failure, some seg')
        else
          match memcpy seg' bytes with
          | none => (⟨.outOfBounds, none⟩, some seg')
          | some seg'' => (.ofCall (w.fails .detach), some seg'')

/-! ## 2. The readers -/

def systemVReader (r : Reading) (s : Store) : Outcome × Store :=
  if r.fails .statKey then (.failure, s)
  else if r.fails .ftok then (.failure, s)
  -- `ret` is still zero
  else if r.fails .shmget then (.success, s)
  else
    match s with
    | none => (.success, s)
    | some seg =>
      if r.fails .size then (.failure, s)
      else if r.fails .calloc then (.failure, s)
      else if r.fails .attach then (.failure, s)
      else
        -- the copy has a terminator of its own
        let text := cstr (seg ++ [NUL])
        if r.fails .detach then (Outcome.failure.printing text, s)
        else if r.fails .remove then (Outcome.failure.printing text, s)
        else (Outcome.success.printing text, none)

/-- What `printf("%s")` finds in a mapping: the rest of its last page is zero. -/
def mappedText (pageSize : Nat) (seg : List UInt8) : Option (List UInt8) :=
  if NUL ∈ seg ∨ seg.length % pageSize ≠ 0 then some (cstr seg) else none

def posixReader (pageSize : Nat) (r : Reading) (s : Store) : Outcome × Store :=
  if r.fails .shmOpen then (.failure, s)
  else
    match s with
    | none => (.failure, s)
    | some seg =>
      if r.fails .size then (.failure, s)
      -- nothing can be mapped of an empty object
      else if r.fails .attach ∨ seg = [] then (.failure, s)
      else
        match mappedText pageSize seg with
        | none => (⟨.outOfBounds, none⟩, s)
        | some text =>
          if r.fails .detach then (Outcome.failure.printing text, s)
          else if r.fails .remove then (Outcome.failure.printing text, s)
          else (Outcome.success.printing text, none)

/-! ## 3. One run after another -/

def exec (v : Version) (pageSize : Nat) : Run → Store → Outcome × Store
  | .write w, s =>
    match v with
    | .systemV => systemVWriter pageSize w s
    | .posix => posixWriter pageSize w s
  | .read r, s =>
    match v with
    | .systemV => systemVReader r s
    | .posix => posixReader pageSize r s

/-- What the runs leave behind, the last one being in front. -/
def after (v : Version) (pageSize : Nat) : List Run → Store
  | [] => none
  | run :: runs => (exec v pageSize run (after v pageSize runs)).2

end SharedFile
end Labs
