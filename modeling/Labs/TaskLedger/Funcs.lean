import Labs.TaskLedger.Entry

/-!
# The operations of the ledger

`add`, `remove_by` and `find_by` of `LAB_6/task_ledger/src/ledger_funcs.c`, and `constructor` with
`init_obj` of `constr_destr_init.c`. `load_from` has a module of its own.

A `Ledger` is the object's two data members and the heap of its nodes. The result of a function
is its `int`, the ledger and the unread input, or the reason why it stops. The loops over the
list follow `next` in the heap and know nothing of a list of entries; each has a fuel of one
more than the addresses ever used, so a loop that exhausts it has met a node twice and goes
round for ever.

* In `add` the new node belongs to the function until it is linked; the heap gets it there. A
  node that is freed on the way to `fail` never enters it.
* `removeLoop` is the `for` over `curNode` and `prevNode`. The branch of a match inside the list
  falls through to `prevNode = curNode; curNode = curNode->next` after `free(curNode)`.
* `constructor` leaves what `malloc` returned in the object and `init_obj` sets `head` only.
-/

namespace Labs
namespace TaskLedger

open Lib

structure Ledger where
  heap : Heap Priv
  head : Link
  entryTotal : Int

abbrev Result := Int × Ledger × List UInt8

/-- `init_obj` on what `constructor` returned; `garbage` is the object's memory behind
    `entry_total`. -/
def initObj (garbage : Int) : Ledger := { heap := .empty, head := none, entryTotal := garbage }

/-! ## 1. `add` -/

inductive Pos
  | BEGIN
  | MIDDLE
  | END
  | other
deriving DecidableEq

/-- `i` passes of the walk to the middle: `tmpNode` and `prevNode` after them. -/
def walk (h : Heap Priv) : Nat → Link → Link → Except Stop (Link × Link)
  | 0, tmpNode, prevNode => .ok (tmpNode, prevNode)
  | i + 1, tmpNode, _ => do
    let n ← h.load tmpNode
    walk h i n.next tmpNode

/-- `for (…; tmpNode->next; tmpNode = tmpNode->next);` -/
def lastNode (h : Heap Priv) : Nat → Link → Except Stop Link
  | 0, _ => .error .hang
  | fuel + 1, tmpNode => do
    let n ← h.load tmpNode
    match n.next with
    | none => return tmpNode
    | some _ => lastNode h fuel n.next

def Ledger.newNode (L : Ledger) : Link := some L.heap.brk

/-- The label `insert_begin`. -/
def insertBegin (L : Ledger) (entry : Priv) : Ledger :=
  { heap := L.heap.alloc ⟨entry, L.head⟩
    head := L.newNode
    entryTotal := wrap32 (L.entryTotal + 1) }

def insertMiddle (L : Ledger) (entry : Priv) : Except Stop Ledger := do
  let middle := (L.entryTotal / 2).toNat
  let (tmpNode, prevNode) ← walk L.heap middle L.head L.head
  let heap ← (L.heap.alloc ⟨entry, tmpNode⟩).setNext prevNode L.newNode
  return { L with heap, entryTotal := wrap32 (L.entryTotal + 1) }

def insertEnd (L : Ledger) (entry : Priv) : Except Stop Ledger := do
  let tmpNode ← lastNode L.heap (L.heap.brk + 1) L.head
  let heap ← (L.heap.alloc ⟨entry, none⟩).setNext tmpNode L.newNode
  return { L with heap, entryTotal := wrap32 (L.entryTotal + 1) }

def insert (L : Ledger) (entry : Priv) (pos : Pos) : Except Stop Ledger :=
  match pos with
  | .MIDDLE => if L.entryTotal > 2 then insertMiddle L entry else .ok (insertBegin L entry)
  | .END => if L.entryTotal > 1 then insertEnd L entry else .ok (insertBegin L entry)
  | .BEGIN | .other => .ok (insertBegin L entry)

/-- `!*newNode->priv.name && !*newNode->priv.number`. -/
def unnamed (e : Priv) : Bool := first e .name == NUL && first e .number == NUL

/-- The entry of the new node: the caller's, or one typed into zeroed memory. -/
def obtainEntry (entry : Option Priv) (inp : List UInt8) : Except Stop Filled :=
  match entry with
  | none => processEntry (.zero _) .PRIV inp
  | some e => .ok (OK, e, inp)

def add (callocOk : Bool) (L : Ledger) (entry : Option Priv) (pos : Pos) (inp : List UInt8) :
    Except Stop Result :=
  if callocOk = false then .ok (ERR, L, inp)
  else do
    let (r, e, inp) ← obtainEntry entry inp
    if r = ERR then return (ERR, L, inp)
    else if unnamed e then return (ERR, L, inp)
    else return (OK, ← insert L e pos, inp)

/-! ## 2. The key of `remove_by` and `find_by` -/

inductive Opt
  | BY_ENTRY
  | BY_NAME
  | BY_MIDDLE_NAME
  | BY_LAST_NAME
  | BY_NUMBER
  | BY_OCCUPATION
  | BY_AGE
  | other
deriving DecidableEq

/-- `offset` and `size` after the `switch`; `none` in its `default`. -/
def Opt.field : Opt → Option Field
  | .BY_ENTRY => some .whole
  | .BY_NAME => some .name
  | .BY_MIDDLE_NAME => some .mname
  | .BY_LAST_NAME => some .lname
  | .BY_NUMBER => some .number
  | .BY_OCCUPATION => some .occup
  | .BY_AGE => some .age
  | .other => none

/-- `opt == BY_ENTRY || opt == BY_NUMBER`: the first match is the only one. -/
def Opt.unique : Opt → Bool
  | .BY_ENTRY | .BY_NUMBER => true
  | _ => false

/-- The `switch (opt)`: the key is read into a zeroed entry. -/
def readKey (opt : Opt) (f : Field) (inp : List UInt8) : Except Stop Filled :=
  match opt with
  | .BY_ENTRY => processEntry (.zero _) .PRIV inp
  | .BY_AGE => processParam (.zero _) f.offset f.size .INT inp
  | _ => processParam (.zero _) f.offset f.size .STRING inp

/-! ## 3. `remove_by` -/

def removeLoop (unique : Bool) (hit : Priv → Bool) : Nat → Ledger → Link → Link →
    Except Stop Ledger
  | 0, _, _, _ => .error .hang
  | _ + 1, L, none, _ => .ok L
  | fuel + 1, L, some cur, prevNode => do
    let n ← L.heap.load (some cur)
    if hit n.val then
      if some cur = L.head then
        let heap ← L.heap.free (some cur)
        let L := { heap, head := n.next, entryTotal := wrap32 (L.entryTotal - 1) }
        -- `curr_node = self->head; continue`
        if unique then return L else removeLoop unique hit fuel L L.head prevNode
      else
        let heap ← L.heap.setNext prevNode n.next
        let heap ← heap.free (some cur)
        let L := { L with heap, entryTotal := wrap32 (L.entryTotal - 1) }
        if unique then return L
        else
          -- the loop goes on at the node that was freed
          let n ← L.heap.load (some cur)
          removeLoop unique hit fuel L n.next (some cur)
    else removeLoop unique hit fuel L n.next (some cur)

def removeBy (L : Ledger) (opt : Opt) (inp : List UInt8) : Except Stop Result :=
  match opt.field with
  | none => .ok (OK, L, inp)
  | some f => do
    let (r, key, inp) ← readKey opt f inp
    if r = ERR then return (ERR, L, inp)
    else
      let L ← removeLoop opt.unique (cmp key · f) (L.heap.brk + 1) L L.head none
      return (OK, L, inp)

/-! ## 4. `find_by` -/

/-- The entries reported as found. -/
def findLoop (unique : Bool) (hit : Priv → Bool) (h : Heap Priv) : Nat → Link →
    Except Stop (List Priv)
  | 0, _ => .error .hang
  | _ + 1, none => .ok []
  | fuel + 1, some cur => do
    let n ← h.load (some cur)
    if hit n.val then
      if unique then return [n.val]
      else return n.val :: (← findLoop unique hit h fuel n.next)
    else findLoop unique hit h fuel n.next

/-- The result of the call, what it reported and the unread input. -/
def findBy (L : Ledger) (opt : Opt) (inp : List UInt8) :
    Except Stop (Int × List Priv × List UInt8) :=
  match opt.field with
  | none => .ok (OK, [], inp)
  | some f => do
    let (r, key, inp) ← readKey opt f inp
    if r = ERR then return (ERR, [], inp)
    else return (OK, ← findLoop opt.unique (cmp key · f) L.heap (L.heap.brk + 1) L.head, inp)

end TaskLedger
end Labs
