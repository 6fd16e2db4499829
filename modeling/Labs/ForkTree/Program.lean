import Labs.Lib.Processes

/-!
# A loop that forks

`main` of `LAB_12/task_wait_fork/src/fork_wait.c` and of `LAB_12/task_forked_zombies/src/zombies.c`,
for any number `NUM` of turns. Each turn forks; parent and child go on with the same loop. In the
first program the parent waits for a child before it goes on, in the second it sleeps.

A place stands before one call. The processes are numbered in the order of their creation; the first
is 1, and `next` is the number of the next one. `getppid` tells the process that has forked, until
that has gone. In the second program a child asks for it twice, and the process may go between the
two calls; the later argument is taken first. What is printed goes to a terminal, so each line is
written at once: in the step that takes its first argument, the last line in the step that leaves.
The calls of `fork` succeed.
-/

namespace Labs
namespace ForkTree

open Lib

inductive Version
  | waiting
  | sleeping
deriving DecidableEq

inductive Place
  | loop
  | fork
  | parent (child : Nat)
  | wait
  | child
  | word (orphaned : Bool)
  | post
  | exited
  | reaped
deriving DecidableEq

def Place.Gone (pc : Place) : Prop := pc = .exited ∨ pc = .reaped

instance (pc : Place) : Decidable pc.Gone := inferInstanceAs (Decidable (_ ∨ _))

/-- The process that runs the program was forked by the shell. -/
inductive Parent
  | shell
  | init
  | process (pid : Nat)
deriving DecidableEq

/-- `i` is the variable of the loop. -/
structure Process where
  ppid : Parent
  i : Nat
  place : Place
deriving DecidableEq

/-- What a process prints. The version that waits does not print the process before a fork, and it
    does not say whether a child is an orphan. -/
inductive Line
  | begins
  | pre (i : Nat) (pid : Option Nat)
  | parent (pid : Nat) (ppid : Parent) (child : Nat)
  | child (pid : Nat) (ppid : Parent) (orphaned : Option Bool)
  | post (i pid : Nat)
  | done (pid i : Nat)
deriving DecidableEq

structure Machine where
  process : Nat → Process
  next : Nat
  out : List Line

def Machine.move (m : Machine) (p : Nat) (r : Process) : Machine :=
  { m with process := Function.update m.process p r }

/-- A line reaches the terminal at once. To a file or a pipe it would stay in a buffer that `fork`
    copies, and be written by each of the processes. -/
def Machine.print (m : Machine) (line : Line) : Machine := { m with out := m.out ++ [line] }

def Machine.getppid (m : Machine) (p : Nat) : Parent :=
  match (m.process p).ppid with
  | .process q => if (m.process q).place.Gone then .init else .process q
  | q => q

/-- `fork`, which returns in both processes. (Where it fails, `n` is -1 and the one process goes on
    as a parent; that is left out.) -/
def Machine.fork (m : Machine) (p : Nat) (r : Process) : Machine where
  process := Function.update (Function.update m.process p { r with place := .parent m.next }) m.next
    { r with ppid := .process p, place := .child }
  next := m.next + 1
  out := m.out

/-- A child that has exited and that no `wait` has returned yet. -/
def Machine.IsZombie (m : Machine) (p z : Nat) : Prop :=
  (m.process z).ppid = .process p ∧ (m.process z).place = .exited

instance (m : Machine) (p z : Nat) : Decidable (m.IsZombie p z) :=
  inferInstanceAs (Decidable (_ ∧ _))

def Machine.HasChild (m : Machine) (p : Nat) : Prop :=
  ∃ q < m.next, (m.process q).ppid = .process p ∧ (m.process q).place ≠ .reaped

instance (m : Machine) (p : Nat) : Decidable (m.HasChild p) :=
  inferInstanceAs (Decidable (∃ q < m.next, _))

/-- Which child `wait` returns, or that there is none. -/
abbrev Event : Type := Option Nat

/-- One call of the process `p`. -/
def main (v : Version) (num : Nat) (m : Machine) (p : Nat) (e : Event) : Option Machine :=
  let r := m.process p
  match r.place with
  | .loop =>
    if r.i < num then
      some ((m.move p { r with place := .fork }).print
        (.pre r.i (if v = .waiting then none else some p)))
    else some ((m.move p { r with place := .exited }).print (.done p r.i))
  | .fork => some (m.fork p r)
  | .parent q => some ((m.move p { r with place := .wait }).print (.parent p (m.getppid p) q))
  | .wait =>
    if v = .waiting then
      match e with
      | none => if m.HasChild p then none else some (m.move p { r with place := .post })
      | some z =>
        if m.IsZombie p z then
          some ((m.move z { m.process z with place := .reaped }).move p { r with place := .post })
        else none
    else some (m.move p { r with place := .post })
  | .child =>
    if v = .waiting then
      some ((m.move p { r with place := .post }).print (.child p (m.getppid p) none))
    else some (m.move p { r with place := .word (m.getppid p = .init) })
  | .word orphaned =>
    some ((m.move p { r with place := .post }).print (.child p (m.getppid p) (some orphaned)))
  | .post => some ((m.move p { r with i := r.i + 1, place := .loop }).print (.post r.i p))
  | .exited | .reaped => none

def step (v : Version) (num : Nat) (m : Machine) (a : Nat × Event) : Option Machine :=
  if a.1 < m.next then main v num m a.1 a.2 else none

/-- In front of the loop. No process has the number 0. -/
def start : Machine where
  process p := ⟨.shell, 0, if p = 1 then .loop else .reaped⟩
  next := 2
  out := [.begins]

variable {m : Machine} {p q : Nat} {r : Process} {line : Line}

@[simp] theorem print_process : (m.print line).process = m.process := rfl

@[simp] theorem print_next : (m.print line).next = m.next := rfl

@[simp] theorem print_out : (m.print line).out = m.out ++ [line] := rfl

@[simp] theorem move_next : (m.move p r).next = m.next := rfl

@[simp] theorem move_out : (m.move p r).out = m.out := rfl

@[simp] theorem fork_next : (m.fork p r).next = m.next + 1 := rfl

@[simp] theorem fork_out : (m.fork p r).out = m.out := rfl

@[simp] theorem move_self : (m.move p r).process p = r := Function.update_self ..

theorem move_of_ne (h : q ≠ p) : (m.move p r).process q = m.process q := Function.update_of_ne h ..

@[simp] theorem fork_new :
    (m.fork p r).process m.next = { r with ppid := .process p, place := .child } :=
  Function.update_self ..

theorem fork_self (h : p < m.next) :
    (m.fork p r).process p = { r with place := .parent m.next } :=
  (Function.update_of_ne (Nat.ne_of_lt h) ..).trans (Function.update_self ..)

theorem fork_of_ne (h : q ≠ p) (hnew : q ≠ m.next) : (m.fork p r).process q = m.process q :=
  (Function.update_of_ne hnew ..).trans (Function.update_of_ne h ..)

end ForkTree
end Labs
