import Labs.MiniBash.Session

/-!
# What the mini bash returns

`parse_cmd` of `LAB_12/task_mini_bash/src/mini_bash.c` with its code. `ret` holds what the last `cd` has
left there, or `OK`; how a child ends is printed, and not returned. So `QUIT` comes from `exit` only
(`ret12_quit_iff`), and what the line does is what `run12` has (`events_of_parse12`).

The system answers to the `chdir` of turn `n` whether it succeeds, and in which directory the shell then
is. `fork` does not fail.
-/

namespace Labs
namespace MiniBash

open Lib

structure Returned12 where
  ret : Int
  cwd : List UInt8
  events : List Event
deriving DecidableEq

/-- The outer loop, from what `strtok` has saved on; `n` turns are done. -/
def parseLoop12 (home : Bool) (chdir : Nat → Target → Option (List UInt8)) :
    Nat → Nat → List UInt8 → Returned12 → Returned12
  | 0, _, _, r => r
  | fuel + 1, n, saved, r =>
    match strtok DELIMS saved with
    | (none, _) => r
    | (some tok, saved) =>
      match builtin home tok with
      | .exit => { r with ret := QUIT, events := r.events ++ [.exit] }
      | .homeMissing => { r with ret := FAIL }
      | .cd target =>
        match chdir n target with
        | none =>
          parseLoop12 home chdir fuel (n + 1) saved
            { r with ret := FAIL, events := r.events ++ [.cd target] }
        | some cwd =>
          parseLoop12 home chdir fuel (n + 1) saved ⟨CHDIR, cwd, r.events ++ [.cd target]⟩
      | .external cmd =>
        parseLoop12 home chdir fuel (n + 1) saved { r with events := r.events ++ [childEvent cmd] }

/-- `parse_cmd`. -/
def parseCmdRet12 (home : Bool) (chdir : Nat → Target → Option (List UInt8)) (buf : List UInt8)
    (cwd : List UInt8) : Returned12 :=
  parseLoop12 home chdir (buf.length + 1) 0 buf ⟨OK, cwd, []⟩

section

variable {home : Bool} {chdir : Nat → Target → Option (List UInt8)}

theorem parseLoop12_spec (fuel n : Nat) (saved : List UInt8) (r : Returned12) :
    (parseLoop12 home chdir fuel n saved r).events = r.events ++ (loop12 home fuel saved).1 ∧
      (r.ret ≠ QUIT →
        ((parseLoop12 home chdir fuel n saved r).ret = QUIT ↔ (loop12 home fuel saved).2 = .quit)) := by
  induction fuel generalizing n saved r with
  | zero =>
    refine ⟨(List.append_nil _).symm, fun hret => ?_⟩
    exact ⟨fun h => absurd h hret, fun h => Ending.noConfusion h⟩
  | succ fuel ih =>
    rw [parseLoop12, loop12]
    cases strtok DELIMS saved with
    | mk tok saved =>
      cases tok with
      | none =>
        refine ⟨(List.append_nil _).symm, fun hret => ?_⟩
        exact ⟨fun h => absurd h hret, fun h => Ending.noConfusion h⟩
      | some tok =>
        dsimp only
        cases builtin home tok with
        | exit => exact ⟨rfl, fun _ => ⟨fun _ => rfl, fun _ => rfl⟩⟩
        | homeMissing =>
          refine ⟨(List.append_nil _).symm, fun _ => ?_⟩
          exact ⟨fun h => absurd h (show FAIL ≠ QUIT by decide), fun h => Ending.noConfusion h⟩
        | cd target =>
          dsimp only
          cases chdir n target with
          | none =>
            have h := ih (n + 1) saved { r with ret := FAIL, events := r.events ++ [.cd target] }
            rw [List.append_assoc] at h
            exact ⟨h.1, fun _ => h.2 (show FAIL ≠ QUIT by decide)⟩
          | some cwd =>
            have h := ih (n + 1) saved ⟨CHDIR, cwd, r.events ++ [.cd target]⟩
            rw [List.append_assoc] at h
            exact ⟨h.1, fun _ => h.2 (show CHDIR ≠ QUIT by decide)⟩
        | external cmd =>
          have h := ih (n + 1) saved { r with events := r.events ++ [childEvent cmd] }
          rw [List.append_assoc] at h
          exact ⟨h.1, h.2⟩

theorem events_of_parse12 (buf cwd : List UInt8) :
    (parseCmdRet12 home chdir buf cwd).events = (parseCmd12 home buf).1 :=
  (parseLoop12_spec _ 0 buf ⟨OK, cwd, []⟩).1

theorem ret12_quit_iff (buf cwd : List UInt8) :
    (parseCmdRet12 home chdir buf cwd).ret = QUIT ↔ (parseCmd12 home buf).2 = .quit :=
  (parseLoop12_spec _ 0 buf ⟨OK, cwd, []⟩).2 (show OK ≠ QUIT by decide)

end

end MiniBash
end Labs
