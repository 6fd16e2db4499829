import Mathlib.Data.List.Basic

/-!
# A file that is open

The bytes of the file, and the offset at which the next `read` or `write` begins. What is read or
written moves the offset on (`seek` sets it), so bytes that were read are not read again until then:
behind the last byte `read` returns nothing (`read_at_end`).
-/

namespace Labs
namespace Lib

structure OpenFile where
  bytes : List UInt8
  offset : Nat
deriving DecidableEq

namespace OpenFile

variable {f : OpenFile} {bs : List UInt8} {n : Nat}

/-- `O_CREAT | O_TRUNC`, `"w+"`. -/
def create : OpenFile := ⟨[], 0⟩

/-- What is at the offset is overwritten. -/
def write (f : OpenFile) (bs : List UInt8) : OpenFile :=
  ⟨f.bytes.take f.offset ++ bs ++ f.bytes.drop (f.offset + bs.length), f.offset + bs.length⟩

def seek (f : OpenFile) (offset : Nat) : OpenFile := { f with offset := offset }

/-- The `n` bytes at the offset, or as many as there are. -/
def read (f : OpenFile) (n : Nat) : List UInt8 × OpenFile :=
  let bs := (f.bytes.drop f.offset).take n
  (bs, { f with offset := f.offset + bs.length })

@[simp] theorem create_write (bs : List UInt8) : create.write bs = ⟨bs, bs.length⟩ := by
  simp [create, write]

@[simp] theorem seek_mk (bs : List UInt8) (m offset : Nat) :
    seek ⟨bs, m⟩ offset = ⟨bs, offset⟩ := rfl

/-- From the beginning, the whole file is read. -/
theorem read_whole (h : bs.length ≤ n) : read ⟨bs, 0⟩ n = (bs, ⟨bs, bs.length⟩) := by
  simp [read, List.take_of_length_le h]

theorem read_at_end (h : f.bytes.length ≤ f.offset) : f.read n = ([], f) := by
  simp [read, List.drop_eq_nil_of_le h]

end OpenFile

end Lib
end Labs
