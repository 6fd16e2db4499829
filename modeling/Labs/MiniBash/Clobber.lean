import Labs.MiniBash.ParseCmd

/-!
# The mini shell against the mini bash

Both loops are runs over the tokens of the line. `LAB_12` takes the tokens one by one
(`loop12_eq`). `LAB_14` takes them one by one up to the first external command; there the inner
loop leaves the saved place at the end of the command, so the outer loop finds nothing more
(`loop14_eq`). The two do the same when that command is the last token of the line, and its words
fill their array (`LastExternal`), and only then.

## What is compared with what

`strtok` has one saved place for everybody who calls it without a string. In `run12` and `run14` it
is gone: they are two recursions over the same list of tokens, which differ at an external command
only. There `run14` is done, whatever is left.

So the equivalence goes along the list. At a `cd` both do the same and go on (`before_inj`), at
`exit` and at a home that is missing both stop. At an external command `run12` must have nothing
left, since any token makes it do something or fail (`run12_cons_ne`), and the two children must do
the same with its words.
-/

namespace Labs
namespace MiniBash

open Lib

/-- A line without `|`, `<`, `>` and tab. -/
structure Line where
  bytes : List UInt8
  plain : ∀ b ∈ bytes, b ∉ [NUL, PIPE, REDIR_INPUT, REDIR_OUTPUT, TAB]

/-- The tokens of the outer loop. -/
def Line.commands (line : Line) : List (List UInt8) := (tokens DELIMS line.bytes).1

/-- The first external command that is reached stands at the end of the line, and has as many
    words, split at spaces, as `arg_count` makes room for. -/
def LastExternal (home : Bool) : List (List UInt8) → Prop
  | [] => True
  | tok :: toks =>
    match builtin home tok with
    | .exit | .homeMissing => True
    | .cd _ => LastExternal home toks
    | .external cmd => toks = [] ∧ (tokens SPACE cmd).1.length = argCount cmd + 1

/-! ## 1. The loops over the tokens -/

def run12 (home : Bool) : List (List UInt8) → Run
  | [] => ([], .finished)
  | tok :: toks =>
    match builtin home tok with
    | .exit => ([.exit], .quit)
    | .homeMissing => ([], .fail)
    | .cd target => (run12 home toks).before (.cd target)
    | .external cmd => (run12 home toks).before (childEvent cmd)

def run14 (home : Bool) : List (List UInt8) → Run
  | [] => ([], .finished)
  | tok :: toks =>
    match builtin home tok with
    | .exit => ([.exit], .quit)
    | .homeMissing => ([], .fail)
    | .cd target => (run14 home toks).before (.cd target)
    | .external cmd =>
      if (tokens SPACE cmd).1.length = argCount cmd + 1 then
        ([commandOf (tokens SPACE cmd).1], .finished)
      else ([], .crashed)

theorem loop12_eq (home : Bool) (fuel : Nat) (saved : List UInt8) :
    loop12 home fuel saved = run12 home (strtokAll DELIMS fuel saved).1 := by
  induction fuel generalizing saved with
  | zero => rfl
  | succ fuel ih =>
    rw [loop12, strtokAll]
    cases strtok DELIMS saved with
    | mk tok saved =>
      cases tok with
      | none => rfl
      | some tok =>
        dsimp only
        rw [run12]
        cases builtin home tok with
        | exit => rfl
        | homeMissing => rfl
        | cd target =>
          dsimp only
          rw [ih]
        | external cmd =>
          dsimp only
          rw [ih]

theorem loop14_nil (home : Bool) (fuel : Nat) : loop14 home fuel [] = ([], .finished) := by
  cases fuel with
  | zero => rfl
  | succ fuel => rfl

theorem loop14_eq (home : Bool) (fuel : Nat) (saved : List UInt8) :
    loop14 home fuel saved = run14 home (strtokAll DELIMS fuel saved).1 := by
  induction fuel generalizing saved with
  | zero => rfl
  | succ fuel ih =>
    rw [loop14, strtokAll]
    cases strtok DELIMS saved with
    | mk tok saved =>
      cases tok with
      | none => rfl
      | some tok =>
        dsimp only
        rw [run14]
        cases builtin home tok with
        | exit => rfl
        | homeMissing => rfl
        | cd target =>
          dsimp only
          rw [ih]
        | external cmd =>
          dsimp only
          -- the outer loop goes on from the end of the command
          rw [tokens_saved, loop14_nil]
          rfl

/-! ## 2. Where they agree -/

theorem before_ne_of_events {e : Event} {r : Run} {ending : Ending} :
    r.before e ≠ ([], ending) := fun h => List.cons_ne_nil _ _ (congrArg Prod.fst h)

/-- With a token left, the mini bash does something more or fails. -/
theorem run12_cons_ne (home : Bool) (tok : List UInt8) (toks : List (List UInt8)) :
    run12 home (tok :: toks) ≠ ([], .finished) := by
  rw [run12]
  cases builtin home tok with
  | exit => exact fun h => List.cons_ne_nil _ _ (congrArg Prod.fst h)
  | homeMissing => exact fun h => Ending.noConfusion (congrArg Prod.snd h)
  | cd target => exact before_ne_of_events
  | external cmd => exact before_ne_of_events

theorem before_inj {e e' : Event} {r r' : Run} :
    r.before e = r'.before e' ↔ e = e' ∧ r = r' := by
  constructor
  · intro h
    have hlist := congrArg Prod.fst h
    have hend := congrArg Prod.snd h
    injection hlist with he hr
    exact ⟨he, Prod.ext hr hend⟩
  · rintro ⟨rfl, rfl⟩
    rfl

/-- No word of the command starts with an operator. -/
def NoOperator (tok : List UInt8) : Prop :=
  ∀ b ∈ tok, b ∉ [PIPE, REDIR_INPUT, REDIR_OUTPUT]

theorem isOperator_of_plain {word : List UInt8} (h : NoOperator word) :
    isOperator word = false := by
  cases word with
  | nil => rfl
  | cons b word =>
    have hb := h b List.mem_cons_self
    simp only [List.mem_cons, List.not_mem_nil, or_false, not_or] at hb
    simp [isOperator, hb.1, hb.2.1, hb.2.2]

theorem commandOf_of_plain {cmd : List UInt8} (h : NoOperator cmd) :
    commandOf (tokens SPACE cmd).1 = .exec (tokens SPACE cmd).1 := by
  refine if_neg ?_
  rw [Bool.not_eq_true, List.any_eq_false]
  intro word hword
  rw [isOperator_of_plain fun b hb => h b (mem_of_strtokAll hword b hb)]
  exact Bool.false_ne_true

/-- A command whose text is not `exit` and does not start with `cd` is started as it is. -/
theorem builtin_external_iff {home : Bool} {tok cmd : List UInt8} :
    builtin home tok = .external cmd ↔
      cmd = tok.dropWhile isspace ∧ cmd ≠ ascii "exit" ∧ cmd.take 2 ≠ ascii "cd" := by
  unfold builtin goHome
  dsimp only
  constructor
  · intro h
    split at h
    · exact Builtin.noConfusion h
    · rename_i hexit
      split at h
      · split at h
        · split at h <;> exact Builtin.noConfusion h
        · split at h
          · split at h <;> exact Builtin.noConfusion h
          · exact Builtin.noConfusion h
      · rename_i hcd
        cases h
        exact ⟨rfl, hexit, hcd⟩
  · rintro ⟨rfl, hexit, hcd⟩
    rw [if_neg hexit, if_neg hcd]

theorem mem_of_external {home : Bool} {tok cmd : List UInt8}
    (h : builtin home tok = .external cmd) : ∀ b ∈ cmd, b ∈ tok := by
  rw [(builtin_external_iff.mp h).1]
  exact (List.dropWhile_suffix _).subset

theorem childEvent_of_count {cmd : List UInt8}
    (h : (tokens SPACE cmd).1.length = argCount cmd + 1) :
    childEvent cmd = .exec (tokens SPACE cmd).1 := by
  refine if_pos ?_
  rw [h]
  exact Nat.lt_succ_self _

theorem run14_eq_run12_iff (home : Bool) {toks : List (List UInt8)}
    (hplain : ∀ tok ∈ toks, NoOperator tok) :
    run14 home toks = run12 home toks ↔ LastExternal home toks := by
  induction toks with
  | nil => exact ⟨fun _ => trivial, fun _ => rfl⟩
  | cons tok toks ih =>
    have ih := ih fun tok htok => hplain tok (List.mem_cons_of_mem _ htok)
    rw [run14, run12, LastExternal]
    cases hb : builtin home tok with
    | exit => exact ⟨fun _ => trivial, fun _ => rfl⟩
    | homeMissing => exact ⟨fun _ => trivial, fun _ => rfl⟩
    | cd target =>
      dsimp only
      rw [before_inj, ih]
      exact ⟨fun h => h.2, fun h => ⟨rfl, h⟩⟩
    | external cmd =>
      dsimp only
      have hcmd : NoOperator cmd := fun b hb' =>
        hplain tok List.mem_cons_self b (mem_of_external hb b hb')
      by_cases hc : (tokens SPACE cmd).1.length = argCount cmd + 1
      · rw [if_pos hc, commandOf_of_plain hcmd, childEvent_of_count hc]
        have hone : (([.exec (tokens SPACE cmd).1], .finished) : Run) =
            Run.before (.exec (tokens SPACE cmd).1) ([], .finished) := rfl
        rw [hone, before_inj]
        refine ⟨fun h => ⟨?_, hc⟩, fun h => ⟨rfl, by rw [h.1]; rfl⟩⟩
        cases toks with
        | nil => rfl
        | cons tok' toks => exact absurd h.2.symm (run12_cons_ne home tok' toks)
      · rw [if_neg hc]
        exact ⟨fun h => absurd h.symm before_ne_of_events, fun h => absurd h.2 hc⟩

/-- **The mini shell starts the same commands as the mini bash exactly on the lines whose first
    external command is their last command**, and fills its array of words. -/
theorem parse_cmd_same_iff (home : Bool) (line : Line) :
    parseCmd14 home line.bytes = parseCmd12 home line.bytes ↔ LastExternal home line.commands := by
  rw [parseCmd14, parseCmd12, loop14_eq, loop12_eq]
  refine run14_eq_run12_iff home fun tok htok b hb hop => ?_
  refine line.plain b (mem_of_strtokAll htok b hb) (List.mem_cons_of_mem _ ?_)
  exact List.mem_append_left [TAB] hop

/-- `a;b`: the second command is skipped. -/
def twoCommands : Line := ⟨ascii "a;b", by decide +kernel⟩

theorem second_command_skipped :
    parseCmd14 true twoCommands.bytes = ([.exec [ascii "a"]], .finished) ∧
      parseCmd12 true twoCommands.bytes = ([.exec [ascii "a"], .exec [ascii "b"]], .finished) ∧
      parseCmd14 true twoCommands.bytes ≠ parseCmd12 true twoCommands.bytes := by
  decide

end MiniBash
end Labs
