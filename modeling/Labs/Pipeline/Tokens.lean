import Labs.Pipeline.RoundTrip
import Labs.Pipeline.Status

/-!
# The parser on any tokens

The two checks look at the last `|` and at the last redirection only. So `a > f b` and `| a | b`
pass them, and the second pass goes on behind whatever ended a turn: the word behind a file name is
skipped as if it were a `|`, a turn that finds an operator leaves its command `NULL`, and a turn
that finds none starts the next one a word further on, or where it started itself.

`Safe` is what the rest of the program relies on. The tokens of which it holds are those that are
written as the messages of the checks say, each `|` with a command on both sides and each
redirection with an argument (`Formed`). One turn takes words, pairs of an operator and the next
token, and one token more (`turn_cases`). If all redirections are recorded, no argument is one; if
then no word is lost, the token behind the pairs is a `|` (`Covers.tail`); and as there are as many
turns as there are `|`, no argument is one either (`formed_of_turns`).

## How the equivalence goes

Both directions are inductions over the turns, not over the tokens. A turn may stay where it is, so
the tokens behind the cursor do not grow fewer; the number of turns is what the counting pass fixes
beforehand.

* From formed tokens to a complete result (`turns_formed`) a turn takes one command and ends at its
  `|`. The induction is over `Formed`, and `Covers.cons` puts the command in front of what the other
  turns make of the rest.
* From a complete result to formed tokens (`formed_of_turns`) nothing is known of the tokens but
  what a turn has done to them. `Covers` makes that enough: the commands and entries that are still
  to come are filled, have all redirections from `start` on, and have each word from there on in one
  place. A turn keeps it (`Covers.tail`), and the last turn is alone with the last command
  (`formed_of_turn`).

Words are told from each other by their place in `argv`, never by their bytes: `holds` and
`IsTarget` are about indices. Otherwise a word that is typed twice, once for a file and once for an
argument, would count as found when one of the two is lost.

What a refusal says is not looked at here, only that it is one. `.outOfBounds` is not: it stands for
a turn that looks behind `argv`, and `Safe` excludes it.
-/

namespace Labs
namespace Pipeline

open Lib
open MiniBash (PIPE REDIR_INPUT REDIR_OUTPUT)

variable {v : Variant} {argv : List (List UInt8)}

/-- Commands with a `|` between them. -/
inductive Formed (v : Variant) : List (List UInt8) → Prop
  | last (words : List (List UInt8)) (ds : List (List UInt8 × List UInt8)) (h : Parts v words ds) :
      Formed v (words ++ pairTokens ds)
  | piped (words : List (List UInt8)) (ds : List (List UInt8 × List UInt8)) (mark : List UInt8)
      (more : List (List UInt8)) (h : Parts v words ds) (hmark : isPipe mark = true)
      (hmore : Formed v more) : Formed v (words ++ (pairTokens ds ++ mark :: more))

/-- One of the checks refuses the tokens. -/
def Rejected (v : Variant) (argv : List (List UInt8)) : Prop :=
  Misplaced v argv.length (marks v argv).pipeIdx ∨ Misplaced v argv.length (marks v argv).redirIdx
deriving Decidable

def IsOper (b : UInt8) : Prop := b = PIPE ∨ IsRedir b
deriving Decidable

/-- The pointer is one of the words of the command. -/
def holds (ptr : Nat) (cmd : Option (List (Option Nat))) : Bool := (cmd.getD []).contains (some ptr)

/-- The token at `j` stands directly behind a redirection, of those from `start` on. -/
def IsTarget (argv : List (List UInt8)) (start j : Nat) : Prop :=
  start < j ∧ IsRedir (first argv (j - 1))

/-- Each token that is neither an operator nor the target of one is in one command. -/
def InOne (argv : List (List UInt8)) (start : Nat) (cmds : List (Option (List (Option Nat)))) :
    Prop :=
  ∀ j, start ≤ j → j < argv.length → ¬ IsOper (first argv j) → ¬ IsTarget argv start j →
    cmds.countP (holds j) = 1

/-- An entry has the token behind a redirection, and the first word of a command. -/
def IsEntry (argv : List (List UInt8)) (start : Nat) (cmds : List (Option (List (Option Nat))))
    (e : Entry) : Prop :=
  (∃ j, start ≤ j ∧ IsRedir (first argv j) ∧ argv[j + 1]? = some e.fileName) ∧
    ∃ c ∈ cmds, firstOf c = some e.cmd

/-- What `exec_cmd_list` and the end of `main` rely on. -/
structure Complete (v : Variant) (argv : List (List UInt8)) (p : Parsed) : Prop where
  cmds : ∀ i < p.cmdNum, (p.firstWord i).isSome
  redirs : p.toFrom.length = p.redirNum
  entries : ∀ e ∈ p.toFrom, IsEntry argv v.start p.cmds e
  words : InOne argv v.start p.cmds
  runs : ∀ calls, ∃ r, execCmdListRet calls p = .ok r

/-- The parser refuses the tokens with a message, or has built something complete. -/
def Safe (v : Variant) (argv : List (List UInt8)) : Prop :=
  match parse v argv with
  | .error r => r ≠ .outOfBounds
  | .ok p => Complete v argv p

/-! ## 1. Tokens and places -/

theorem isOper_iff {w : List UInt8} :
    IsOper (w.headD NUL) ↔ isPipe w = true ∨ isRedir w = true := by
  unfold IsOper isPipe isRedir
  rw [decide_eq_true_eq, decide_eq_true_eq]

theorem Plain.not_oper {w : List UInt8} (h : Plain v w) : ¬ IsOper (w.headD NUL) := by
  rintro (hpipe | hredir)
  · exact h.ne.1 hpipe
  · exact h.ne.2 hredir

theorem countP_pairTokens (p : List UInt8 → Bool) (ds : List (List UInt8 × List UInt8)) :
    (pairTokens ds).countP p = (ds.map Prod.fst).countP p + (ds.map Prod.snd).countP p := by
  induction ds with
  | nil => rfl
  | cons d ds ih =>
    have hcons : pairTokens (d :: ds) = d.1 :: d.2 :: pairTokens ds := rfl
    rw [hcons, List.countP_cons, List.countP_cons, ih, List.map_cons, List.map_cons,
      List.countP_cons, List.countP_cons]
    omega

theorem holds_command (j start n : Nat) :
    holds j (command start n) = true ↔ start ≤ j ∧ j < start + n := by
  unfold holds command
  split
  · show (((List.range' start n).map some ++ [none]).contains (some j)) = true ↔ _
    rw [List.contains_iff_mem, List.mem_append, List.mem_map]
    simp [List.mem_range'_1]
  · rename_i hn
    refine ⟨fun h => (nomatch h), fun h => ?_⟩
    omega

theorem holds_behind {j start n : Nat} (h : start + n ≤ j) : holds j (command start n) = false :=
  Bool.eq_false_iff.mpr fun hj => absurd ((holds_command j start n).mp hj).2 (Nat.not_lt_of_le h)

theorem isSome_firstOf (start n : Nat) : (firstOf (command start n)).isSome = true ↔ 0 < n := by
  refine ⟨fun h => ?_, fun hn => by rw [firstOf_words start hn]; rfl⟩
  by_contra hn
  rw [command, if_neg hn] at h
  cases h

/-! ## 2. One turn -/

theorem length_entriesAt (j : Nat) (ds : List (List UInt8 × List UInt8)) :
    (entriesAt v argv j ds).length = ds.length := by
  induction ds generalizing j with
  | nil => rfl
  | cons d ds ih => exact congrArg (· + 1) (ih (j + 2))

/-- `rest` begins with no redirection. -/
def NoRedir (rest : List (List UInt8)) : Prop := ∀ w ∈ rest.head?, isRedir w = false

theorem noRedir_drop {j : Nat} (h : ¬ (j < argv.length ∧ IsRedir (first argv j))) :
    NoRedir (argv.drop j) := by
  intro w hw
  cases hdrop : argv.drop j with
  | nil =>
    rw [hdrop] at hw
    cases hw
  | cons w' rest =>
    rw [hdrop] at hw
    cases hw
    refine decide_eq_false fun hredir => h ⟨lt_of_drop hdrop, ?_⟩
    rw [first_eq hdrop]
    exact hredir

/-- The loop over the redirections has taken pairs, until there was none. -/
theorem redirLoop_cases {redirNum fuel j j' : Nat} {toFrom toFrom' : List Entry}
    (hfuel : argv.length ≤ j + fuel)
    (h : redirLoop v argv redirNum fuel j toFrom = .ok (j', toFrom')) :
    ∃ ds rest, argv.drop j = pairTokens ds ++ rest ∧ (∀ d ∈ ds, isRedir d.1 = true) ∧
      NoRedir rest ∧ j' = j + 2 * ds.length ∧ toFrom' = toFrom ++ entriesAt v argv j ds := by
  induction fuel generalizing j toFrom with
  | zero =>
    obtain ⟨rfl, rfl⟩ := Prod.mk.inj (Except.ok.inj h)
    refine ⟨[], argv.drop j, rfl, nofun, noRedir_drop fun h => ?_, rfl, (List.append_nil _).symm⟩
    exact absurd h.1 (Nat.not_lt_of_le hfuel)
  | succ fuel ih =>
    rw [redirLoop] at h
    split at h
    · rename_i hredir
      split at h
      · cases h
      · rename_i fileName hfile
        split at h
        · obtain ⟨w, rest, hw⟩ := exists_drop hredir.1
          obtain ⟨ds, rest', hdrop, hmarks, hno, rfl, hto⟩ := ih (by omega) h
          have hpair : argv.drop j = w :: fileName :: argv.drop (j + 2) := by
            have hnext : argv.drop (j + 1) = rest :=
              drop_add (show argv.drop j = [w] ++ rest from hw) rfl
            rw [hw, ← hnext, List.drop_eq_getElem?_toList_append (i := j + 1), hfile]
            rfl
          have hfirst := first_eq hw
          refine ⟨(w, fileName) :: ds, rest', ?_, ?_, hno, ?_, ?_⟩
          · rw [hpair, hdrop]
            rfl
          · refine List.forall_mem_cons.mpr ⟨decide_eq_true ?_, hmarks⟩
            rw [← hfirst]
            exact hredir.2
          · rw [List.length_cons]
            omega
          · rw [hto, List.append_assoc, hfirst]
            rfl
        · cases h
    · rename_i hno
      obtain ⟨rfl, rfl⟩ := Prod.mk.inj (Except.ok.inj h)
      exact ⟨[], argv.drop j, rfl, nofun, noRedir_drop hno, rfl, (List.append_nil _).symm⟩

/-- What a turn from `start` on has done: it found no operator behind the words, or it took the
    redirections and one token more. -/
inductive TurnFrom (v : Variant) (argv : List (List UInt8)) (start : Nat) (s s' : Cursor) : Prop
  | stays (words rest : List (List UInt8)) (hdrop : argv.drop start = words ++ rest)
      (hwords : ∀ w ∈ words, Plain v w)
      (hrest : ∀ w ∈ rest.head?, ¬ Plain v w ∧ ¬ IsOper (w.headD NUL))
      (hcmds : s'.cmds = s.cmds ++ [command start words.length]) (hto : s'.toFrom = s.toFrom)
      (hnext : s'.nextCmdIdx = start)
  | moves (words rest : List (List UInt8)) (ds : List (List UInt8 × List UInt8))
      (hdrop : argv.drop start = words ++ (pairTokens ds ++ rest))
      (hwords : ∀ w ∈ words, Plain v w) (hmarks : ∀ d ∈ ds, isRedir d.1 = true)
      (hno : NoRedir rest) (hpipe : ds = [] → ∃ w ∈ rest.head?, isPipe w = true)
      (hcmds : s'.cmds = s.cmds ++ [command start words.length])
      (hto : s'.toFrom = s.toFrom ++ entriesAt v argv (start + words.length) ds)
      (hnext : v.cmdStart s'.nextCmdIdx = start + words.length + 2 * ds.length + 1)

theorem takeWhile_isWord (v : Variant) (ws : List (List UInt8)) : ∃ words rest,
    ws = words ++ rest ∧ ws.takeWhile (isWord v) = words ∧ (∀ w ∈ words, Plain v w) ∧
      ∀ w ∈ rest.head?, ¬ Plain v w := by
  refine ⟨ws.takeWhile (isWord v), ws.dropWhile (isWord v), List.takeWhile_append_dropWhile.symm,
    rfl, fun w hw => List.mem_takeWhile_imp hw, fun w hw hplain => ?_⟩
  have hhead := List.head?_dropWhile_not (isWord v) ws
  rw [Option.mem_def.mp hw] at hhead
  exact absurd (hplain.symm.trans (by simpa using hhead)) (by decide)

theorem turn_cases {redirNum : Nat} {s s' : Cursor} (h : turn v argv redirNum s = .ok s') :
    TurnFrom v argv (v.cmdStart s.nextCmdIdx) s s' := by
  unfold turn at h
  simp only at h
  generalize v.cmdStart s.nextCmdIdx = start at h ⊢
  obtain ⟨words, rest, hdrop, htake, hwords, hrest⟩ := takeWhile_isWord v (argv.drop start)
  have hnum : argNum v argv start = words.length := by rw [argNum, htake]
  have hbehind : argv.drop (start + words.length) = rest := drop_add hdrop rfl
  rw [hnum] at h
  split at h
  · rename_i hoper
    obtain ⟨hlt, hoper⟩ := hoper
    cases hloop : redirLoop v argv redirNum argv.length (start + words.length) s.toFrom with
    | error e =>
      rw [hloop] at h
      cases h
    | ok r =>
      obtain ⟨j, toFrom⟩ := r
      rw [hloop] at h
      obtain rfl := Except.ok.inj h
      obtain ⟨ds, rest', hpairs, hmarks, hno, hj, hto⟩ := redirLoop_cases (by omega) hloop
      rw [hbehind] at hpairs
      refine .moves words rest' ds (hpairs ▸ hdrop) hwords hmarks hno (fun hnil => ?_) rfl hto ?_
      · -- the operator is no redirection, so it is a `|`
        rw [hnil] at hpairs
        have hpairs : rest = rest' := hpairs
        obtain ⟨w, more, hw⟩ := exists_drop hlt
        rw [hbehind] at hw
        have hhead : w ∈ rest'.head? := by rw [← hpairs, hw]; rfl
        rw [first_eq (hbehind.trans hw)] at hoper
        exact ⟨w, hhead, (isOper_iff.mp hoper).resolve_right (by simp [hno w hhead])⟩
      · rw [← hj]
        cases v <;> rfl
  · rename_i hoper
    cases h
    refine .stays words rest hdrop hwords (fun w hw => ⟨hrest w hw, fun hop => hoper ?_⟩) rfl rfl rfl
    cases rest with
    | nil => cases hw
    | cons w' rest =>
      cases hw
      exact ⟨lt_of_drop hbehind, (first_eq hbehind).symm ▸ hop⟩

/-! ## 3. All turns -/

theorem redirLoop_error {redirNum fuel j : Nat} {toFrom : List Entry} {r : Refusal}
    (h : redirLoop v argv redirNum fuel j toFrom = .error r) : r = .outOfBounds := by
  induction fuel generalizing j toFrom with
  | zero => cases h
  | succ fuel ih =>
    rw [redirLoop] at h
    split at h
    · split at h
      · cases h
        rfl
      · split at h
        · exact ih h
        · cases h
          rfl
    · cases h

/-- A turn adds one command, or looks behind an array. -/
theorem turn_result (v : Variant) (argv : List (List UInt8)) (redirNum : Nat) (s : Cursor) :
    turn v argv redirNum s = .error .outOfBounds ∨
      ∃ s', turn v argv redirNum s = .ok s' ∧ s'.cmds = s.cmds ++
        [command (v.cmdStart s.nextCmdIdx) (argNum v argv (v.cmdStart s.nextCmdIdx))] := by
  unfold turn
  simp only
  split
  · cases hloop : redirLoop v argv redirNum argv.length
        (v.cmdStart s.nextCmdIdx + argNum v argv (v.cmdStart s.nextCmdIdx)) s.toFrom with
    | error r =>
      rw [redirLoop_error hloop]
      exact .inl rfl
    | ok r => exact .inr ⟨_, rfl, rfl⟩
  · exact .inr ⟨_, rfl, rfl⟩

variable {redirNum start m : Nat} {s s' : Cursor} {words rest : List (List UInt8)}
  {ds : List (List UInt8 × List UInt8)} {cs : List (Option (List (Option Nat)))} {es : List Entry}

theorem turn_cmds (h : turn v argv redirNum s = .ok s') : s'.cmds = s.cmds ++
    [command (v.cmdStart s.nextCmdIdx) (argNum v argv (v.cmdStart s.nextCmdIdx))] := by
  rcases turn_result v argv redirNum s with hturn | ⟨s₁, hturn, hcmds⟩
  · rw [hturn] at h
    cases h
  · rw [hturn] at h
    obtain rfl := Except.ok.inj h
    exact hcmds

theorem turns_succ (h : turns v argv redirNum (m + 1) s = .ok s') :
    ∃ s₁, turn v argv redirNum s = .ok s₁ ∧ turns v argv redirNum m s₁ = .ok s' := by
  rw [turns] at h
  cases hturn : turn v argv redirNum s with
  | error e =>
    rw [hturn] at h
    cases h
  | ok s₁ =>
    rw [hturn] at h
    exact ⟨s₁, rfl, h⟩

theorem turns_result (v : Variant) (argv : List (List UInt8)) (redirNum m : Nat) (s : Cursor) :
    turns v argv redirNum m s = .error .outOfBounds ∨
      ∃ s', turns v argv redirNum m s = .ok s' ∧ s'.cmds.length = s.cmds.length + m := by
  induction m generalizing s with
  | zero => exact .inr ⟨s, rfl, rfl⟩
  | succ m ih =>
    rw [turns]
    rcases turn_result v argv redirNum s with hturn | ⟨s₁, hturn, hcmds⟩
    · rw [hturn]
      exact .inl rfl
    · rw [hturn]
      rcases ih s₁ with herror | ⟨s', hs', hlen⟩
      · exact .inl herror
      refine .inr ⟨s', hs', ?_⟩
      rw [hlen, hcmds, List.length_append, List.length_singleton, Nat.add_assoc, Nat.add_comm 1]

theorem cmdStart_cases (v : Variant) (start : Nat) :
    v.cmdStart start = start ∨ v.cmdStart start = start + 1 := by
  cases v with
  | pipe7 => exact .inl rfl
  | pipe6 => exact .inr rfl
  | pipe5 => exact .inr rfl

theorem countP_drop_le (p : List UInt8 → Bool) {j k : Nat} (h : j ≤ k) :
    (argv.drop k).countP p ≤ (argv.drop j).countP p := by
  obtain ⟨n, rfl⟩ := Nat.exists_eq_add_of_le h
  rw [← List.drop_drop]
  exact (List.drop_sublist n _).countP_le

theorem countP_words (p : List UInt8 → Bool) (hp : ∀ w, Plain v w → p w = false)
    (hwords : ∀ w ∈ words, Plain v w) : words.countP p = 0 :=
  List.countP_eq_zero.mpr fun w hw => by simp [hp w (hwords w hw)]

theorem countP_marks (hmarks : ∀ d ∈ ds, isRedir d.1 = true) :
    (ds.map Prod.fst).countP isRedir = ds.length ∧ (ds.map Prod.fst).countP isPipe = 0 := by
  constructor
  · rw [← ds.length_map Prod.fst]
    exact List.countP_eq_length.mpr (List.forall_mem_map.mpr hmarks)
  · refine List.countP_eq_zero.mpr (List.forall_mem_map.mpr fun d hd => ?_)
    simp [isPipe_of_isRedir (hmarks d hd)]

/-- The redirections and the `|` in what a turn takes. -/
theorem countP_turn (hdrop : argv.drop start = words ++ (pairTokens ds ++ rest))
    (hwords : ∀ w ∈ words, Plain v w) (hmarks : ∀ d ∈ ds, isRedir d.1 = true) :
    (argv.drop start).countP isRedir =
        ds.length + (ds.map Prod.snd).countP isRedir + rest.countP isRedir ∧
      (argv.drop start).countP isPipe = (ds.map Prod.snd).countP isPipe + rest.countP isPipe := by
  obtain ⟨hredir, hpipe⟩ := countP_marks hmarks
  constructor
  · rw [hdrop, List.countP_append, List.countP_append, countP_pairTokens, hredir,
      countP_words isRedir (fun _ => Plain.not_redir) hwords, Nat.zero_add]
  · rw [hdrop, List.countP_append, List.countP_append, countP_pairTokens, hpipe,
      countP_words isPipe (fun _ => Plain.not_pipe) hwords, Nat.zero_add, Nat.zero_add]

theorem countP_tail (hno : NoRedir rest) : rest.countP isRedir = (rest.drop 1).countP isRedir := by
  cases rest with
  | nil => rfl
  | cons w rest =>
    rw [List.countP_cons, hno w rfl]
    rfl

theorem Parts.countP_arguments (h : Parts v words ds) :
    (ds.map Prod.snd).countP isPipe = 0 ∧ (ds.map Prod.snd).countP isRedir = 0 := by
  refine ⟨List.countP_eq_zero.mpr (List.forall_mem_map.mpr fun d hd => ?_),
    List.countP_eq_zero.mpr (List.forall_mem_map.mpr fun d hd => ?_)⟩
  · simp [(h.arguments d hd).1]
  · simp [(h.arguments d hd).2]

theorem drop_turn (hdrop : argv.drop start = words ++ (pairTokens ds ++ rest)) :
    argv.drop (start + words.length + 2 * ds.length) = rest := by
  rw [Nat.add_assoc]
  refine drop_add ((List.append_assoc ..).symm ▸ hdrop) ?_
  rw [List.length_append, length_pairTokens]

/-- What turns add: commands of the words from `start` on, and no more entries than there are
    redirections. -/
theorem turns_added (h : turns v argv redirNum m s = .ok s') :
    ∃ cs es, s'.cmds = s.cmds ++ cs ∧ s'.toFrom = s.toFrom ++ es ∧
      (∀ c ∈ cs, ∀ j, holds j c = true → v.cmdStart s.nextCmdIdx ≤ j) ∧
      es.length ≤ (argv.drop (v.cmdStart s.nextCmdIdx)).countP isRedir := by
  induction m generalizing s with
  | zero =>
    cases h
    exact ⟨[], [], (List.append_nil _).symm, (List.append_nil _).symm, nofun, Nat.zero_le _⟩
  | succ m ih =>
    obtain ⟨s₁, hturn, hrest⟩ := turns_succ h
    obtain ⟨cs, es, hcs, hes, hheld, hle⟩ := ih hrest
    have hfirst : ∀ n, v.cmdStart s.nextCmdIdx ≤ v.cmdStart s₁.nextCmdIdx →
        ∀ c ∈ command (v.cmdStart s.nextCmdIdx) n :: cs, ∀ j, holds j c = true →
          v.cmdStart s.nextCmdIdx ≤ j := by
      intro n hmono c hc j hj
      rcases List.mem_cons.mp hc with rfl | hc
      · exact ((holds_command _ _ _).mp hj).1
      · exact hmono.trans (hheld c hc j hj)
    cases turn_cases hturn with
    | stays words rest hdrop hwords hno hcmds hto hnext =>
      have hmono : v.cmdStart s.nextCmdIdx ≤ v.cmdStart s₁.nextCmdIdx := by
        rw [hnext]
        rcases cmdStart_cases v (v.cmdStart s.nextCmdIdx) with h | h <;> omega
      refine ⟨command (v.cmdStart s.nextCmdIdx) words.length :: cs, es, ?_, ?_, hfirst _ hmono,
        hle.trans (countP_drop_le _ hmono)⟩
      · rw [hcs, hcmds, List.append_assoc]
        rfl
      · rw [hes, hto]
    | moves words rest ds hdrop hwords hmarks hno hpipe hcmds hto hnext =>
      have hmono : v.cmdStart s.nextCmdIdx ≤ v.cmdStart s₁.nextCmdIdx := by omega
      refine ⟨command (v.cmdStart s.nextCmdIdx) words.length :: cs,
        entriesAt v argv (v.cmdStart s.nextCmdIdx + words.length) ds ++ es, ?_, ?_,
        hfirst _ hmono, ?_⟩
      · rw [hcs, hcmds, List.append_assoc]
        rfl
      · rw [hes, hto, List.append_assoc]
      · have hbehind : argv.drop (v.cmdStart s₁.nextCmdIdx) = rest.drop 1 := by
          rw [hnext, ← List.drop_drop, drop_turn hdrop]
        have hcount := (countP_turn hdrop hwords hmarks).1
        have htail : (rest.drop 1).countP isRedir ≤ rest.countP isRedir :=
          (List.drop_sublist 1 rest).countP_le
        rw [hbehind] at hle
        rw [List.length_append, length_entriesAt]
        omega

/-! ## 4. Complete tokens are formed -/

/-- The commands and entries that are made of the tokens from `start` on are complete. -/
structure Covers (argv : List (List UInt8)) (start : Nat) (cs : List (Option (List (Option Nat))))
    (es : List Entry) : Prop where
  filled : ∀ c ∈ cs, (firstOf c).isSome = true
  redirs : es.length = (argv.drop start).countP isRedir
  words : InOne argv start cs

/-- The token in front of `rest` is no redirection. -/
theorem last_of_turn (hne : words ≠ []) (hwords : ∀ w ∈ words, Plain v w)
    (hargs : ∀ d ∈ ds, isRedir d.2 = false) :
    ∃ w, (words ++ pairTokens ds).getLast? = some w ∧ isRedir w = false := by
  rcases List.eq_nil_or_concat ds with rfl | ⟨ds, d, rfl⟩
  · refine ⟨words.getLast hne, ?_, (hwords _ (List.getLast_mem hne)).not_redir⟩
    show (words ++ []).getLast? = _
    rw [List.append_nil, List.getLast?_eq_some_getLast]
  · refine ⟨d.2, ?_, hargs d (by simp)⟩
    simp [pairTokens]

/-- A token that is in no command, behind one that is no redirection, is an operator. -/
theorem isOper_of_inOne {front more : List (List UInt8)} {w : List UInt8}
    (hdrop : argv.drop start = front ++ w :: more)
    (hlast : ∃ w, front.getLast? = some w ∧ isRedir w = false) (hone : InOne argv start cs)
    (hheld : ∀ c ∈ cs, holds (start + front.length) c = false) : IsOper (w.headD NUL) := by
  by_contra hno
  have hat : argv.drop (start + front.length) = w :: more := drop_add hdrop rfl
  obtain ⟨last, hlast, hredir⟩ := hlast
  have hpos : 0 < front.length := by
    cases front with
    | nil => cases hlast
    | cons w front => exact Nat.succ_pos _
  have hbefore : first argv (start + front.length - 1) = last.headD NUL := by
    have hget : front[front.length - 1]? = some last := List.getLast?_eq_getElem? ▸ hlast
    have hfirst : first argv (start + (front.length - 1)) = _ := first_of_drop hdrop
    rw [List.getElem?_append_left (by omega), hget] at hfirst
    rw [Nat.add_sub_assoc hpos]
    exact hfirst
  have hcount := hone (start + front.length) (Nat.le_add_right _ _) (lt_of_drop hat)
    (first_eq hat ▸ hno) fun htarget => of_decide_eq_false hredir (hbefore ▸ htarget.2)
  have hzero : cs.countP (holds (start + front.length)) = 0 :=
    List.countP_eq_zero.mpr fun c hc => by simp [hheld c hc]
  omega

/-- The rest of the line is covered by the rest of the commands. -/
theorem InOne.tail {next : Nat} {c : Option (List (Option Nat))} (hone : InOne argv start (c :: cs))
    (hle : start ≤ next) (hc : ∀ j, next ≤ j → holds j c = false)
    (hpipe : ¬ IsRedir (first argv (next - 1))) : InOne argv next cs := by
  intro j hj hlt hoper htarget
  have hcount := hone j (hle.trans hj) hlt hoper ?_
  · rwa [List.countP_cons, hc j hj, if_neg Bool.false_ne_true, Nat.add_zero] at hcount
  · rintro ⟨-, hredir⟩
    rcases Nat.eq_or_lt_of_le hj with rfl | hlt
    · exact hpipe hredir
    · exact htarget ⟨hlt, hredir⟩

theorem word_at {k : Nat} (hdrop : argv.drop start = words ++ rest)
    (hwords : ∀ w ∈ words, Plain v w) (hk : k < words.length) :
    start + k < argv.length ∧ ¬ IsOper (first argv (start + k)) := by
  have hget : (words ++ rest)[k]? = some words[k] := by
    rw [List.getElem?_append_left hk, List.getElem?_eq_getElem hk]
  have hfirst : first argv (start + k) = _ := first_of_drop hdrop
  rw [hget] at hfirst
  refine ⟨?_, hfirst ▸ (hwords _ (List.getElem_mem hk)).not_oper⟩
  rw [← hdrop, List.getElem?_drop] at hget
  exact (List.getElem?_eq_some_iff.mp hget).1

/-- If a turn finds no operator behind its words, the next one finds some of them again, or none. -/
theorem not_stays {next : Nat} (hdrop : argv.drop start = words ++ rest)
    (hwords : ∀ w ∈ words, Plain v w) (hrest : ∀ w ∈ rest.head?, ¬ Plain v w) (hne : words ≠ [])
    (hnext : next = v.cmdStart start)
    (hfilled : (firstOf (command next (argNum v argv next))).isSome = true)
    (hone : InOne argv start
      (command start words.length :: command next (argNum v argv next) :: cs)) : False := by
  rw [isSome_firstOf] at hfilled
  have hpos := List.length_pos_iff.mpr hne
  -- the word that both commands have
  obtain ⟨k, rfl, hk, htarget⟩ : ∃ k, next = start + k ∧ k < words.length ∧
      ¬ IsTarget argv start (start + k) := by
    rcases cmdStart_cases v start with h | h
    · exact ⟨0, hnext.trans h, hpos, fun ht => absurd ht.1 (Nat.lt_irrefl _)⟩
    · refine ⟨1, hnext.trans h, ?_, fun ht => ?_⟩
      · obtain ⟨w, ws, rfl⟩ := List.exists_cons_of_ne_nil hne
        have hdrop' : argv.drop (start + 1) = ws ++ rest :=
          drop_add (show argv.drop start = [w] ++ (ws ++ rest) from hdrop) rfl
        have hnum := argNum_words hdrop' (fun w hw => hwords w (List.mem_cons_of_mem _ hw)) hrest
        rw [hnext, h, hnum] at hfilled
        exact Nat.succ_lt_succ hfilled
      · exact (word_at hdrop hwords hpos).2 (.inr ht.2)
  obtain ⟨hlt, hoper⟩ := word_at hdrop hwords hk
  have hcount := hone (start + k) (Nat.le_add_right _ _) hlt hoper htarget
  have hfirst : holds (start + k) (command start words.length) = true :=
    (holds_command _ _ _).mpr ⟨Nat.le_add_right _ _, by omega⟩
  have hsecond : holds (start + k) (command (start + k) (argNum v argv (start + k))) = true :=
    (holds_command _ _ _).mpr ⟨Nat.le_refl _, by omega⟩
  rw [List.countP_cons, List.countP_cons, hfirst, hsecond] at hcount
  simp only [if_true] at hcount
  omega

/-- The first of the commands that turns add. -/
theorem turns_first (h : turns v argv redirNum (m + 1) s = .ok s') :
    ∃ cs, s'.cmds = s.cmds ++ command (v.cmdStart s.nextCmdIdx)
      (argNum v argv (v.cmdStart s.nextCmdIdx)) :: cs := by
  obtain ⟨s₁, hturn, hrest⟩ := turns_succ h
  obtain ⟨cs, -, hcs, -⟩ := turns_added hrest
  exact ⟨cs, by rw [hcs, turn_cmds hturn, List.append_assoc]; rfl⟩

theorem args_of_countP {p : List UInt8 → Bool} (h : (ds.map Prod.snd).countP p = 0) :
    ∀ d ∈ ds, p d.2 = false := fun d hd => by
  simpa using List.countP_eq_zero.mp h d.2 (List.mem_map_of_mem hd)

/-- If all redirections are recorded, none of them is an argument, and those behind are recorded
    too. -/
theorem args_of_covers {j : Nat} (hdrop : argv.drop start = words ++ (pairTokens ds ++ rest))
    (hwords : ∀ w ∈ words, Plain v w) (hmarks : ∀ d ∈ ds, isRedir d.1 = true) (hno : NoRedir rest)
    (hredirs : (entriesAt v argv j ds ++ es).length = (argv.drop start).countP isRedir)
    (hle : es.length ≤ (rest.drop 1).countP isRedir) :
    (∀ d ∈ ds, isRedir d.2 = false) ∧ es.length = (rest.drop 1).countP isRedir := by
  have hcount := (countP_turn hdrop hwords hmarks).1
  have htail := countP_tail hno
  rw [List.length_append, length_entriesAt] at hredirs
  exact ⟨args_of_countP (by omega), by omega⟩

/-- If no word is lost, a turn ends at a `|`. -/
theorem pipe_of_covers {w : List UInt8} {more : List (List UInt8)}
    (hdrop : argv.drop start = words ++ (pairTokens ds ++ w :: more)) (hne : words ≠ [])
    (hwords : ∀ w ∈ words, Plain v w) (hargs : ∀ d ∈ ds, isRedir d.2 = false)
    (hw : isRedir w = false) (hone : InOne argv start (command start words.length :: cs))
    (hheld : ∀ c ∈ cs, ∀ j, holds j c = true → start + words.length + 2 * ds.length + 1 ≤ j) :
    isPipe w = true := by
  have hlen : (words ++ pairTokens ds).length = words.length + 2 * ds.length := by
    rw [List.length_append, length_pairTokens]
  have hoper : IsOper (w.headD NUL) := by
    refine isOper_of_inOne ((List.append_assoc ..).symm ▸ hdrop) (last_of_turn hne hwords hargs)
      hone ?_
    rw [hlen, ← Nat.add_assoc]
    refine List.forall_mem_cons.mpr ⟨holds_behind (Nat.le_add_right _ _), fun c hc => ?_⟩
    refine Bool.eq_false_iff.mpr fun h => ?_
    have := hheld c hc _ h
    omega
  exact (isOper_iff.mp hoper).resolve_right (by simp [hw])

theorem Covers.words_ne_nil
    (hcov : Covers argv start (command start words.length :: cs) es) : words ≠ [] :=
  List.length_pos_iff.mp ((isSome_firstOf _ _).mp (hcov.filled _ List.mem_cons_self))

/-- A turn that takes redirections ends at a `|`, and leaves what is behind it to the further
    commands. -/
theorem Covers.tail {next j : Nat} (hdrop : argv.drop start = words ++ (pairTokens ds ++ rest))
    (hwords : ∀ w ∈ words, Plain v w) (hmarks : ∀ d ∈ ds, isRedir d.1 = true) (hno : NoRedir rest)
    (hnext : next = start + words.length + 2 * ds.length + 1)
    (hcov : Covers argv start (command start words.length :: cs) (entriesAt v argv j ds ++ es))
    (hheld : ∀ c ∈ cs, ∀ j, holds j c = true → next ≤ j)
    (hle : es.length ≤ (rest.drop 1).countP isRedir) :
    (∀ d ∈ ds, isRedir d.2 = false) ∧ (∀ w ∈ rest.head?, isPipe w = true) ∧
      Covers argv next cs es := by
  obtain ⟨hargs, hredirs⟩ := args_of_covers hdrop hwords hmarks hno hcov.redirs hle
  have hat := drop_turn hdrop
  have hbehind : argv.drop next = rest.drop 1 := by rw [hnext, ← List.drop_drop, hat]
  have hpipe : ∀ w ∈ rest.head?, isPipe w = true := by
    intro w hw
    cases rest with
    | nil => cases hw
    | cons w' more =>
      cases hw
      exact pipe_of_covers hdrop hcov.words_ne_nil hwords hargs (hno w rfl) hcov.words
        fun c hc j hj => hnext ▸ hheld c hc j hj
  refine ⟨hargs, hpipe, fun c hc => hcov.filled c (List.mem_cons_of_mem _ hc), hbehind ▸ hredirs, ?_⟩
  intro j hj hlt
  -- the token in front of `next` is no redirection
  have hlast : ¬ IsRedir (first argv (next - 1)) := by
    obtain ⟨w, more, hrest⟩ := exists_drop (show next - 1 < argv.length by omega)
    have hw : rest = w :: more := by
      rw [← hat, ← hrest, hnext]
      rfl
    rw [first_eq hrest]
    exact of_decide_eq_false (hno w (hw ▸ rfl))
  exact hcov.words.tail (by omega) (fun j hj => holds_behind (by omega)) hlast j hj hlt

/-- What the last turn has made complete are the tokens of one command. -/
theorem formed_of_turn (hturn : TurnFrom v argv start s s')
    (hcs : s'.cmds = s.cmds ++ cs) (hes : s'.toFrom = s.toFrom ++ es)
    (hcov : Covers argv start cs es) (hpipes : (argv.drop start).countP isPipe = 0) :
    Formed v (argv.drop start) := by
  cases hturn with
  | stays words rest hdrop hwords hno hcmds hto hnext =>
    obtain rfl := List.append_cancel_left (hcs.symm.trans hcmds)
    have hne := hcov.words_ne_nil
    cases rest with
    | nil => exact hdrop ▸ .last words [] ⟨hne, hwords, nofun, nofun⟩
    | cons w rest =>
      refine absurd ?_ (hno w rfl).2
      have hlast : ∃ w, (words ++ pairTokens []).getLast? = some w ∧ isRedir w = false :=
        last_of_turn hne hwords nofun
      rw [pairTokens_nil, List.append_nil] at hlast
      exact isOper_of_inOne hdrop hlast hcov.words
        (List.forall_mem_singleton.mpr (holds_behind (Nat.le_refl _)))
  | moves words rest ds hdrop hwords hmarks hno hpipe hcmds hto hnext =>
    obtain rfl := List.append_cancel_left (hcs.symm.trans hcmds)
    obtain rfl := List.append_cancel_left (hes.symm.trans hto)
    rw [← List.append_nil (entriesAt v argv _ ds)] at hcov
    obtain ⟨hargs, hends, -⟩ := hcov.tail hdrop hwords hmarks hno rfl nofun (Nat.zero_le _)
    rw [(countP_turn hdrop hwords hmarks).2] at hpipes
    have hnone : ∀ d ∈ ds, isPipe d.2 = false := args_of_countP (by omega)
    cases rest with
    | nil =>
      rw [List.append_nil] at hdrop
      exact hdrop ▸ .last words ds
        ⟨hcov.words_ne_nil, hwords, hmarks, fun d hd => ⟨hnone d hd, hargs d hd⟩⟩
    | cons w more =>
      rw [List.countP_cons, hends w rfl] at hpipes
      simp at hpipes

/-- **What turns have made complete is formed**, if there are as many turns as there are commands. -/
theorem formed_of_turns (h : turns v argv redirNum (m + 1) s = .ok s')
    (hcs : s'.cmds = s.cmds ++ cs) (hes : s'.toFrom = s.toFrom ++ es)
    (hcov : Covers argv (v.cmdStart s.nextCmdIdx) cs es) :
    m ≤ (argv.drop (v.cmdStart s.nextCmdIdx)).countP isPipe ∧
      (m = (argv.drop (v.cmdStart s.nextCmdIdx)).countP isPipe →
        Formed v (argv.drop (v.cmdStart s.nextCmdIdx))) := by
  induction m generalizing s cs es with
  | zero =>
    obtain ⟨s₁, hturn, hrest⟩ := turns_succ h
    obtain rfl : s₁ = s' := Except.ok.inj hrest
    exact ⟨Nat.zero_le _, fun hpipes =>
      formed_of_turn (turn_cases hturn) hcs hes hcov hpipes.symm⟩
  | succ m ih =>
    obtain ⟨s₁, hturn, hrest⟩ := turns_succ h
    obtain ⟨cs₁, es₁, hcs₁, hes₁, hheld, hle⟩ := turns_added hrest
    obtain ⟨later, hlater⟩ := turns_first hrest
    have hfirst := List.append_cancel_left (hcs₁.symm.trans hlater)
    cases turn_cases hturn with
    | stays words rest hdrop hwords hno hcmds hto hnext =>
      rw [hcs₁, hcmds, List.append_assoc] at hcs
      obtain rfl := List.append_cancel_left hcs
      rw [hfirst] at hcov
      exact (not_stays hdrop hwords (fun w hw => (hno w hw).1) hcov.words_ne_nil
        (congrArg v.cmdStart hnext)
        (hcov.filled _ (List.mem_cons_of_mem _ List.mem_cons_self)) hcov.words).elim
    | moves words rest ds hdrop hwords hmarks hno hpipe hcmds hto hnext =>
      rw [hcs₁, hcmds, List.append_assoc] at hcs
      obtain rfl := List.append_cancel_left hcs
      rw [hes₁, hto, List.append_assoc] at hes
      obtain rfl := List.append_cancel_left hes
      have hbehind : argv.drop (v.cmdStart s₁.nextCmdIdx) = rest.drop 1 := by
        rw [hnext, ← List.drop_drop, drop_turn hdrop]
      rw [hbehind] at hle
      obtain ⟨hargs, hends, hcov₁⟩ := hcov.tail hdrop hwords hmarks hno hnext hheld hle
      -- the next command has a word
      obtain ⟨w, more, rfl⟩ : ∃ w more, rest = w :: more := by
        refine List.exists_cons_of_ne_nil fun hnil => ?_
        have hfilled := hcov₁.filled (command _ _) (hfirst ▸ List.mem_cons_self)
        rw [isSome_firstOf, argNum, hbehind, hnil] at hfilled
        exact absurd hfilled (Nat.lt_irrefl 0)
      obtain ⟨hm, hformed⟩ := ih hrest hcs₁ hes₁ hcov₁
      rw [hbehind] at hm hformed
      have hcount := (countP_turn hdrop hwords hmarks).2
      rw [List.countP_cons, hends w rfl, if_pos rfl] at hcount
      have hm : m ≤ more.countP isPipe := hm
      refine ⟨by omega, fun hpipes => ?_⟩
      have hnone : ∀ d ∈ ds, isPipe d.2 = false := args_of_countP (by omega)
      have hmore : Formed v more := hformed (show m = more.countP isPipe by omega)
      exact hdrop ▸ .piped words ds w more
        ⟨hcov.words_ne_nil, hwords, hmarks, fun d hd => ⟨hnone d hd, hargs d hd⟩⟩ (hends w rfl)
        hmore

/-! ## 5. Formed tokens are complete -/

theorem drop_pair {j k : Nat} {d : List UInt8 × List UInt8} (hdrop : argv.drop j = pairTokens ds ++ rest)
    (hk : ds[k]? = some d) : ∃ more, argv.drop (j + 2 * k) = d.1 :: d.2 :: more := by
  induction ds generalizing j k with
  | nil => cases hk
  | cons d' ds ih =>
    have hpair : argv.drop j = d'.1 :: d'.2 :: (pairTokens ds ++ rest) := hdrop
    cases k with
    | zero =>
      cases hk
      exact ⟨_, hpair⟩
    | succ k =>
      have hnext : argv.drop (j + 2) = pairTokens ds ++ rest :=
        drop_add (show argv.drop j = [d'.1, d'.2] ++ (pairTokens ds ++ rest) from hpair) rfl
      obtain ⟨more, hmore⟩ := ih hnext hk
      refine ⟨more, ?_⟩
      rw [← hmore, Nat.mul_add, ← Nat.add_assoc, Nat.add_right_comm]

/-- What stands behind the words of a command is an operator, or the target of one. -/
theorem lt_words {j : Nat} (hdrop : argv.drop start = words ++ (pairTokens ds ++ rest))
    (hmarks : ∀ d ∈ ds, isRedir d.1 = true) (hj : j < start + words.length + 2 * ds.length)
    (hoper : ¬ IsOper (first argv j)) (htarget : ¬ IsTarget argv start j) :
    j < start + words.length := by
  by_contra hle
  obtain ⟨n, rfl⟩ := Nat.exists_eq_add_of_le (Nat.le_of_not_lt hle)
  have hn : n / 2 < ds.length := by omega
  have hd := List.getElem?_eq_getElem hn
  obtain ⟨more, hmore⟩ := drop_pair (drop_add hdrop rfl) hd
  have hredir : IsRedir (first argv (start + words.length + 2 * (n / 2))) := by
    rw [first_eq hmore]
    exact of_decide_eq_true (hmarks _ (List.getElem_mem hn))
  rcases Nat.mod_two_eq_zero_or_one n with heven | hodd
  · have heq : 2 * (n / 2) = n := by omega
    rw [heq] at hredir
    exact hoper (.inr hredir)
  · have heq : start + words.length + 2 * (n / 2) = start + words.length + n - 1 := by omega
    rw [heq] at hredir
    exact htarget ⟨by omega, hredir⟩

/-- The entries of a command. -/
theorem isEntry_of_parts {e : Entry} (h : Parts v words ds)
    (hdrop : argv.drop start = words ++ (pairTokens ds ++ rest))
    (he : e ∈ ds.map (entryOf start)) :
    IsEntry argv start (command start words.length :: cs) e := by
  obtain ⟨d, hd, rfl⟩ := List.mem_map.mp he
  obtain ⟨k, hk⟩ := List.mem_iff_getElem?.mp hd
  obtain ⟨more, hmore⟩ := drop_pair (drop_add hdrop rfl) hk
  refine ⟨⟨start + words.length + 2 * k, by omega, ?_, ?_⟩, _, List.mem_cons_self, ?_⟩
  · rw [first_eq hmore]
    exact of_decide_eq_true (h.marks d hd)
  · rw [← List.getElem?_drop, hmore]
    rfl
  · exact firstOf_words start (List.length_pos_iff.mpr h.words_ne_nil)

theorem IsEntry.cons {next : Nat} {c : Option (List (Option Nat))} {e : Entry}
    (h : IsEntry argv next cs e) (hle : start ≤ next) : IsEntry argv start (c :: cs) e := by
  obtain ⟨⟨j, hj, hredir, hfile⟩, d, hd, hcmd⟩ := h
  exact ⟨⟨j, hle.trans hj, hredir, hfile⟩, d, List.mem_cons_of_mem _ hd, hcmd⟩

/-- A command and what is made of the tokens behind its `|`. -/
theorem Covers.cons {next : Nat} (h : Parts v words ds)
    (hdrop : argv.drop start = words ++ (pairTokens ds ++ rest))
    (hrest : ∀ w ∈ rest.head?, isPipe w = true)
    (hnext : next = start + words.length + 2 * ds.length + 1) (hcov : Covers argv next cs es)
    (hheld : ∀ c ∈ cs, ∀ j, holds j c = true → next ≤ j) :
    Covers argv start (command start words.length :: cs) (ds.map (entryOf start) ++ es) := by
  have hat := drop_turn hdrop
  have hbehind : argv.drop next = rest.drop 1 := by rw [hnext, ← List.drop_drop, hat]
  have hpos := List.length_pos_iff.mpr h.words_ne_nil
  refine ⟨List.forall_mem_cons.mpr ⟨(isSome_firstOf _ _).mpr hpos, hcov.filled⟩, ?_, ?_⟩
  · rw [(countP_turn hdrop h.words h.marks).1, h.countP_arguments.2,
      countP_tail fun w hw => isRedir_of_isPipe (hrest w hw), ← hbehind, ← hcov.redirs,
      List.length_append, List.length_map]
    rfl
  · intro j hj hlt hoper htarget
    rw [List.countP_cons]
    by_cases hin : j < start + words.length
    · have hzero : cs.countP (holds j) = 0 := by
        refine List.countP_eq_zero.mpr fun c hc hjc => ?_
        have hle := hheld c hc j hjc
        omega
      rw [hzero, (holds_command _ _ _).mpr ⟨hj, hin⟩]
      rfl
    · have hge : next ≤ j := by
        by_contra hno
        rcases Nat.lt_or_ge j (start + words.length + 2 * ds.length) with hpairs | hpairs
        · exact hin (lt_words hdrop h.marks hpairs hoper htarget)
        · -- the token behind the pairs
          obtain rfl : j = start + words.length + 2 * ds.length := by omega
          obtain ⟨w, more, hw⟩ := exists_drop hlt
          rw [first_eq hw] at hoper
          rw [hat] at hw
          exact hoper (isOper_iff.mpr (.inl (hrest w (hw ▸ rfl))))
      have hnot : holds j (command start words.length) = false := holds_behind (by omega)
      have hone := hcov.words j hge hlt hoper fun ht => htarget ⟨by have := ht.1; omega, ht.2⟩
      rw [hnot, hone]
      rfl

/-- The tokens of one command. -/
theorem Covers.last (h : Parts v words ds)
    (hdrop : argv.drop start = words ++ (pairTokens ds ++ [])) :
    Covers argv start [command start words.length] (ds.map (entryOf start)) := by
  have hnil := drop_turn hdrop
  rw [List.drop_eq_nil_iff] at hnil
  have hend : Covers argv (start + words.length + 2 * ds.length + 1) [] [] := by
    refine ⟨nofun, ?_, fun j hj hlt => absurd hlt (by omega)⟩
    rw [List.drop_eq_nil_of_le (by omega)]
    rfl
  have hcov := Covers.cons h hdrop nofun rfl hend nofun
  rwa [List.append_nil] at hcov

/-- **What turns make of formed tokens is complete.** -/
theorem turns_formed {toks : List (List UInt8)} (h : Formed v toks) (hs : Starts v argv start)
    (hstart : v.cmdStart s.nextCmdIdx = start) (hdrop : argv.drop start = toks)
    (hroom : s.toFrom.length + toks.countP isRedir ≤ redirNum) :
    ∃ s' cs es, turns v argv redirNum (toks.countP isPipe + 1) s = .ok s' ∧
      s'.cmds = s.cmds ++ cs ∧ s'.toFrom = s.toFrom ++ es ∧
      cs.length = toks.countP isPipe + 1 ∧ Covers argv start cs es ∧
      ∀ e ∈ es, IsEntry argv start cs e := by
  induction h generalizing start s with
  | last words ds hparts =>
    have hdrop' : argv.drop start = words ++ (pairTokens ds ++ []) := by
      rw [hdrop, List.append_nil]
    obtain ⟨hredirs, hpipes⟩ := countP_turn hdrop' hparts.words hparts.marks
    rw [hparts.countP_arguments.1] at hpipes
    rw [hparts.countP_arguments.2] at hredirs
    rw [← hdrop, hredirs] at hroom
    obtain ⟨next, hturn, -⟩ := turn_parts hparts hs hstart hdrop' nofun hroom
    refine ⟨⟨next, s.cmds ++ [command start words.length], s.toFrom ++ ds.map (entryOf start)⟩, _, _,
      ?_, rfl, rfl, ?_, .last hparts hdrop', fun e he => isEntry_of_parts hparts hdrop' he⟩
    · rw [← hdrop, hpipes, turns, hturn]
      rfl
    · rw [← hdrop, hpipes]
      rfl
  | piped words ds mark more hparts hmark hmore ih =>
    obtain ⟨hredirs, hpipes⟩ := countP_turn hdrop hparts.words hparts.marks
    rw [hparts.countP_arguments.1, List.countP_cons, hmark] at hpipes
    rw [hparts.countP_arguments.2, List.countP_cons, isRedir_of_isPipe hmark] at hredirs
    have hpipes : (argv.drop start).countP isPipe = more.countP isPipe + 1 := by simpa using hpipes
    have hredirs : (argv.drop start).countP isRedir = ds.length + more.countP isRedir := by
      simpa using hredirs
    have hhead : ∀ w ∈ (mark :: more).head?, isPipe w = true := by
      rintro w ⟨⟩
      exact hmark
    rw [← hdrop, hredirs] at hroom
    have hfits : s.toFrom.length + ds.length ≤ redirNum := by omega
    obtain ⟨next, hturn, hnext⟩ := turn_parts hparts hs hstart hdrop hhead hfits
    have hnext := hnext (List.cons_ne_nil _ _)
    have hat := drop_turn hdrop
    have hstarts : Starts v argv (start + words.length + 2 * ds.length + 1) := by
      refine .inr ⟨_, rfl, ?_⟩
      rw [first_eq hat]
      exact of_decide_eq_true hmark
    have hbehind : argv.drop (start + words.length + 2 * ds.length + 1) = more :=
      drop_add (show _ = [mark] ++ more from hat) rfl
    have hroom' : (s.toFrom ++ ds.map (entryOf start)).length + more.countP isRedir ≤ redirNum := by
      rw [List.length_append, List.length_map]
      omega
    obtain ⟨s', cs, es, hturns, hcs, hes, hlen, hcov, hentries⟩ :=
      ih (s := ⟨next, s.cmds ++ [command start words.length],
        s.toFrom ++ ds.map (entryOf start)⟩) hstarts hnext hbehind hroom'
    obtain ⟨cs', es', hcs', -, hheld, -⟩ := turns_added hturns
    obtain rfl := List.append_cancel_left (hcs.symm.trans hcs')
    rw [hnext] at hheld
    refine ⟨s', command start words.length :: cs, ds.map (entryOf start) ++ es, ?_, ?_, ?_, ?_,
      Covers.cons hparts hdrop hhead rfl hcov hheld, ?_⟩
    · rw [← hdrop, hpipes, turns, hturn]
      exact hturns
    · rw [hcs, List.append_assoc]
      rfl
    · rw [hes, List.append_assoc]
    · rw [← hdrop, hpipes, List.length_cons, hlen]
    · intro e he
      rcases List.mem_append.mp he with he | he
      · exact isEntry_of_parts hparts hdrop he
      · exact (hentries e he).cons (by omega)

/-! ## 6. The whole line -/

variable {prog : List UInt8} {toks : List (List UInt8)}

theorem drop_lead (v : Variant) (prog : List UInt8) (toks : List (List UInt8)) :
    (v.lead prog ++ toks).drop v.start = toks := by
  cases v <;> rfl

theorem cmdStart_zero (v : Variant) : v.cmdStart 0 = v.start := by
  cases v <;> rfl

/-- The parser behind its two checks. -/
theorem parse_eq (h : ¬ Rejected v (v.lead prog ++ toks)) :
    parse v (v.lead prog ++ toks) =
      (turns v (v.lead prog ++ toks) (toks.countP isRedir) (toks.countP isPipe + 1) ⟨0, [], []⟩).map
        fun s => ⟨s.cmds, s.toFrom, toks.countP isPipe, toks.countP isRedir⟩ := by
  obtain ⟨hpipe, hredir⟩ := not_or.mp h
  obtain ⟨hpipes, hredirs, -, -⟩ := count_spec toks v.start ⟨0, 0, v.noIdx, v.noIdx⟩
  rw [Nat.zero_add] at hpipes hredirs
  have hmarks : marks v (v.lead prog ++ toks) = count v.start toks ⟨0, 0, v.noIdx, v.noIdx⟩ := by
    rw [marks, drop_lead]
  unfold parse
  simp only
  rw [if_neg hpipe, if_neg hredir, hmarks, hpipes, hredirs]
  rfl

theorem parse_rejected (h : Rejected v argv) : ∃ r, parse v argv = .error r ∧ r ≠ .outOfBounds := by
  unfold parse
  simp only
  by_cases hpipe : Misplaced v argv.length (marks v argv).pipeIdx
  · rw [if_pos hpipe]
    exact ⟨_, rfl, nofun⟩
  · rw [if_neg hpipe, if_pos (h.resolve_left hpipe)]
    exact ⟨_, rfl, nofun⟩

theorem complete_of_formed (h : Formed v toks) (hno : ¬ Rejected v (v.lead prog ++ toks)) :
    ∃ p, parse v (v.lead prog ++ toks) = .ok p ∧ Complete v (v.lead prog ++ toks) p := by
  obtain ⟨s', cs, es, hturns, hcs, hes, hlen, hcov, hentries⟩ :=
    turns_formed (s := ⟨0, [], []⟩) h (.inl rfl) (cmdStart_zero v) (drop_lead v prog toks)
      (Nat.le_of_eq (Nat.zero_add _))
  obtain rfl : s'.cmds = cs := hcs
  obtain rfl : s'.toFrom = es := hes
  have hredirs := hcov.redirs
  rw [drop_lead] at hredirs
  have hfilled : ∀ i < toks.countP isPipe + 1, (firstOf s'.cmds[i]?.join).isSome := by
    intro i hi
    rw [List.getElem?_eq_getElem (hlen ▸ hi)]
    exact hcov.filled _ (List.getElem_mem _)
  refine ⟨⟨s'.cmds, s'.toFrom, toks.countP isPipe, toks.countP isRedir⟩, ?_, hfilled, hredirs,
    hentries, hcov.words, fun calls => execCmdListRet_ok calls hredirs hfilled⟩
  rw [parse_eq hno, hturns]
  rfl

theorem formed_of_safe (hno : ¬ Rejected v (v.lead prog ++ toks))
    (hsafe : Safe v (v.lead prog ++ toks)) : Formed v toks := by
  rw [Safe, parse_eq hno] at hsafe
  rcases turns_result v (v.lead prog ++ toks) (toks.countP isRedir) (toks.countP isPipe + 1)
    ⟨0, [], []⟩ with hturns | ⟨s', hturns, hlen⟩
  · rw [hturns] at hsafe
    exact absurd rfl hsafe
  · rw [hturns] at hsafe
    have hc : Complete v (v.lead prog ++ toks) ⟨s'.cmds, s'.toFrom, _, _⟩ := hsafe
    have hcov : Covers (v.lead prog ++ toks) (v.cmdStart 0) s'.cmds s'.toFrom := by
      rw [cmdStart_zero]
      refine ⟨fun c hmem => ?_, hc.redirs.trans (by rw [drop_lead]), hc.words⟩
      obtain ⟨i, hi⟩ := List.mem_iff_getElem?.mp hmem
      have hlt := (List.getElem?_eq_some_iff.mp hi).1
      rw [hlen, List.length_nil, Nat.zero_add] at hlt
      have hfilled := hc.cmds i hlt
      rw [Parsed.firstWord, hi] at hfilled
      exact hfilled
    have hformed := (formed_of_turns hturns rfl rfl hcov).2
    rw [cmdStart_zero, drop_lead] at hformed
    exact hformed rfl

/-- **When what is built can be run.** -/
theorem parse_safe_iff (v : Variant) (prog : List UInt8) (toks : List (List UInt8)) :
    Safe v (v.lead prog ++ toks) ↔ Rejected v (v.lead prog ++ toks) ∨ Formed v toks := by
  by_cases hrej : Rejected v (v.lead prog ++ toks)
  · obtain ⟨r, hparse, hne⟩ := parse_rejected hrej
    exact iff_of_true (by rw [Safe, hparse]; exact hne) (.inl hrej)
  · rw [or_iff_right hrej]
    refine ⟨formed_of_safe hrej, fun hformed => ?_⟩
    obtain ⟨p, hparse, hc⟩ := complete_of_formed hformed hrej
    rw [Safe, hparse]
    exact hc

/-- `a > f b`. -/
def wordBehindFile : List (List UInt8) := [ascii "a", ascii ">", ascii "f", ascii "b"]

/-- `| a | b > f`. -/
def pipeInFront : List (List UInt8) :=
  [ascii "|", ascii "a", ascii "|", ascii "b", ascii ">", ascii "f"]

/-- What the shell makes of the second: the first command is `NULL`. -/
def pipeInFrontParsed : Parsed where
  cmds := [none, some [some 1, none], some [some 3, none]]
  toFrom := [{ direct := .WRITE, fileName := ascii "f", cmd := 3 }]
  pipeNum := 2
  redirNum := 1

/-- The checks let both pass. A word of the first is in no command; of the second, the parent looks
    into a command that is `NULL`. -/
theorem tokens_without_place :
    (¬ Rejected .pipe6 ([] :: wordBehindFile) ∧ ¬ Safe .pipe6 ([] :: wordBehindFile)) ∧
      ¬ Rejected .pipe7 pipeInFront ∧ ¬ Safe .pipe7 pipeInFront ∧
        parse .pipe7 pipeInFront = .ok pipeInFrontParsed ∧
          ∀ calls : Calls, calls.pipeOk 0 = true → calls.forkOk 0 = true →
            execCmdListRet calls pipeInFrontParsed = .error .mk := by
  have hfile : parse .pipe6 ([] :: wordBehindFile) = .ok ⟨[some [some 1, none]],
      [{ direct := .WRITE, fileName := ascii "f", cmd := 1 }], 0, 1⟩ := by decide +kernel
  have hpipe : parse .pipe7 pipeInFront = .ok pipeInFrontParsed := by decide +kernel
  refine ⟨⟨by decide +kernel, fun hsafe => ?_⟩, by decide +kernel, fun hsafe => ?_, hpipe,
    fun calls hpipeOk hforkOk => ?_⟩
  · rw [Safe, hfile] at hsafe
    have hcount := hsafe.words 4 (by decide) (by decide) (by decide +kernel) ?_
    · exact absurd hcount (by decide)
    · rintro ⟨-, hredir⟩
      exact absurd hredir (by decide +kernel)
  · rw [Safe, hpipe] at hsafe
    have hfilled := hsafe.cmds 0 (by decide)
    exact absurd hfilled (by decide)
  · have hloop : forkLoop calls pipeInFrontParsed pipeInFrontParsed.cmdNum 0 0 = .error .mk := by
      show forkLoop calls pipeInFrontParsed 3 0 0 = _
      rw [forkLoop, if_neg (by simp [hpipeOk]), if_neg (by simp [hforkOk])]
      rfl
    unfold execCmdListRet
    rw [hloop]
    rfl

end Pipeline
end Labs
