import Labs.CommandLine.Program

/-!
# The numbers of the options

A numeric option is right about an argument when it accepts exactly the strings that denote a
positive `int`, and stores what they denote (`Faithful`). The code never asks what stands behind the
digits, and it compares a `long` with zero before it keeps an `int` of it. So it is right about the
strings that it refuses, and about those that have nothing behind their digits and a number that an
`int` can hold (`Plain`), and wrong about all others.

With plain arguments only, the sizes come out as they should unless the two counts together are more
than an `int` (`Shop.sizes_exact_iff`).

## Denoting a number

What a string denotes is said without the code (`Denotes`). An option is `Faithful` if it accepts
exactly what denotes a positive `int`. This is an equivalence for each string, so both refusing too
much and accepting too much are failures; the programs never do the former.

The options of the four programs differ in their names and in what they default to, and are one
family here. The condition on an argument is found once (`Plain`), and what is said about command
lines is about lists of arguments: the last one counts, and all of them are read.

The sizes are arithmetic on the accepted counts in the types of the source. They are exact unless
the sum of two counts leaves the `int`; sizes in bytes are unsigned and have room for that.
-/

namespace Labs
namespace CommandLine

open Lib

/-! ## 1. One argument -/

/-- The number at the front of a string. -/
def value (s : List UInt8) : Int := (scanInt s).1.getD 0

/-- What stands behind it. -/
def behind (s : List UInt8) : List UInt8 := (scanInt s).2

/-- The option refuses the argument. -/
def Refused (s : List UInt8) : Prop :=
  optionsBundled s = true ∨ value s ≤ 0 ∨ LONG_MAX < value s

def Plain (s : List UInt8) : Prop := Refused s ∨ behind s = [] ∧ value s ≤ INT_MAX

/-- The option takes a string for a positive `int` if and only if it denotes it. -/
def Faithful (read : List UInt8 → Except Complaint Int) (s : List UInt8) : Prop :=
  ∀ v, read s = .ok v ↔ 0 < v ∧ v ≤ INT_MAX ∧ Denotes s v

theorem strtol_of_in_range {s : List UInt8} (h0 : LONG_MIN ≤ value s) (hmax : value s ≤ LONG_MAX) :
    (strtol s).num = value s ∧ (strtol s).errno = 0 := by
  unfold strtol value at *
  cases hscan : scanInt s with
  | mk num rest =>
    cases num with
    | none => exact ⟨rfl, rfl⟩
    | some x =>
      rw [hscan] at h0 hmax
      have h0 : LONG_MIN ≤ x := h0
      have hmax : x ≤ LONG_MAX := hmax
      exact ⟨by simp [h0, hmax], by simp [h0, hmax]⟩

theorem strtol_of_out_of_range {s : List UInt8}
    (h : value s < LONG_MIN ∨ LONG_MAX < value s) : (strtol s).errno ≠ 0 := by
  unfold strtol value at *
  cases hscan : scanInt s with
  | mk num rest =>
    rw [hscan] at h
    cases num with
    | none =>
      have h : (0 : Int) < LONG_MIN ∨ LONG_MAX < 0 := h
      exact absurd h (by decide)
    | some x =>
      have h : x < LONG_MIN ∨ LONG_MAX < x := h
      have hnot : ¬ (LONG_MIN ≤ x ∧ x ≤ LONG_MAX) := fun hin =>
        h.elim (not_lt.mpr hin.1) (not_lt.mpr hin.2)
      simp [hnot, ERANGE]

/-- **What a numeric option stores.** -/
theorem numericOption_eq_ok_iff {opt : Char} {what : String} {s : List UInt8} {v : Int} :
    numericOption opt what s = .ok v ↔ ¬ Refused s ∧ v = wrap32 (value s) := by
  unfold numericOption Refused
  by_cases hb : optionsBundled s = true
  · simp [hb]
  · by_cases hrange : LONG_MIN ≤ value s ∧ value s ≤ LONG_MAX
    · obtain ⟨hnum, herrno⟩ := strtol_of_in_range hrange.1 hrange.2
      have hmax : ¬ LONG_MAX < value s := not_lt.mpr hrange.2
      by_cases hpos : value s ≤ 0
      · simp [hb, hnum, herrno, hpos]
      · simp [hb, hnum, herrno, hpos, hmax, eq_comm]
    · have hout : value s < LONG_MIN ∨ LONG_MAX < value s := by
        by_cases hlow : value s < LONG_MIN
        · exact .inl hlow
        · exact .inr (not_le.mp fun hmax => hrange ⟨not_lt.mp hlow, hmax⟩)
      have herrno := strtol_of_out_of_range hout
      have hrefused : value s ≤ 0 ∨ LONG_MAX < value s :=
        hout.imp_left fun hlow => le_trans (le_of_lt hlow) (by decide)
      simp [hb, herrno, hrefused]

theorem scanInt_of_pos {s : List UInt8} (h : 0 < value s) (hend : behind s = []) :
    scanInt s = (some (value s), []) := by
  unfold value behind at *
  cases hscan : scanInt s with
  | mk num rest =>
    rw [hscan] at h hend
    cases num with
    | none => exact absurd h (lt_irrefl 0)
    | some x => exact congrArg (Prod.mk (some x)) hend

theorem value_of_denotes {s : List UInt8} {v : Int} (h : Denotes s v) :
    value s = v ∧ behind s = [] := by
  have hscan := denotes_iff.mp h
  unfold value behind
  rw [hscan]
  exact ⟨rfl, rfl⟩

/-- What begins with a minus is no positive number. -/
theorem value_nonpos_of_bundled {s : List UInt8} (h : optionsBundled s = true) : value s ≤ 0 := by
  cases s with
  | nil => cases h
  | cons b s =>
    have hb : b = 45 := by simpa [optionsBundled] using h
    subst hb
    have hskip : (45 :: s).dropWhile isspace = 45 :: s := rfl
    unfold value scanInt
    rw [hskip, scanSigned_minus]
    split
    · exact le_refl 0
    · exact neg_nonpos.mpr (Int.natCast_nonneg _)

/-- **Which arguments an option is right about.** -/
theorem faithful_iff {opt : Char} {what : String} {s : List UInt8} :
    Faithful (numericOption opt what) s ↔ Plain s := by
  constructor
  · intro h
    by_cases hrefused : Refused s
    · exact .inl hrefused
    · obtain ⟨-, hmax, hdenotes⟩ :=
        (h (wrap32 (value s))).mp (numericOption_eq_ok_iff.mpr ⟨hrefused, rfl⟩)
      obtain ⟨hvalue, hend⟩ := value_of_denotes hdenotes
      exact .inr ⟨hend, hvalue ▸ hmax⟩
  · intro h v
    rw [numericOption_eq_ok_iff]
    constructor
    · rintro ⟨hrefused, rfl⟩
      obtain ⟨hend, hmax⟩ := h.resolve_left hrefused
      have hpos : 0 < value s := not_le.mp fun hle => hrefused (.inr (.inl hle))
      rw [wrap32_of_inRange ⟨le_trans (by decide) (le_of_lt hpos), hmax⟩]
      exact ⟨hpos, hmax, denotes_iff.mpr (scanInt_of_pos hpos hend)⟩
    · rintro ⟨hpos, hmax, hdenotes⟩
      obtain ⟨rfl, -⟩ := value_of_denotes hdenotes
      refine ⟨?_, ?_⟩
      · rintro (hb | hle | hlong)
        · exact absurd hpos (not_lt.mpr (value_nonpos_of_bundled hb))
        · exact absurd hpos (not_lt.mpr hle)
        · exact absurd (lt_of_lt_of_le hlong hmax) (by decide)
      · exact (wrap32_of_inRange ⟨le_trans (by decide) (le_of_lt hpos), hmax⟩).symm

/-! ## 2. `consumer_supplier` -/

/-- The last argument of the option. -/
def lastOf (o : ShopOption) : List ShopArg → Option (List UInt8)
  | [] => none
  | .numeric o' s :: args =>
    match lastOf o args with
    | some s' => some s'
    | none => if o' = o then some s else none
  | _ :: args => lastOf o args

/-- What the loop makes of an option is what it makes of its last argument. -/
theorem shopLoop_eq_ok {m m' : Shop} {args : List ShopArg} (h : shopLoop m args = .ok m')
    (o : ShopOption) :
    match lastOf o args with
    | some s => o.read s = .ok (m' o)
    | none => m' o = m o := by
  induction args generalizing m with
  | nil =>
    cases h
    rfl
  | cons a args ih =>
    cases a with
    | numeric o' s =>
      unfold shopLoop at h
      cases hread : o'.read s with
      | error complaint =>
        rw [hread] at h
        cases h
      | ok num =>
        rw [hread] at h
        have hrest := ih h
        unfold lastOf
        cases hlast : lastOf o args with
        | some s' =>
          rw [hlast] at hrest
          exact hrest
        | none =>
          rw [hlast] at hrest
          have hrest : m' o = m.set o' num o := hrest
          by_cases ho : o' = o
          · subst ho
            simp only [if_true]
            rw [hrest, hread, Shop.set_self]
          · simp only [ho, if_false]
            rw [hrest, Shop.set_of_ne fun e => ho e.symm]
    | help => cases h
    | missing optopt => cases h
    | unknown optopt => cases h

theorem mem_of_lastOf {o : ShopOption} {args : List ShopArg} {s : List UInt8}
    (h : lastOf o args = some s) : ShopArg.numeric o s ∈ args := by
  induction args with
  | nil => cases h
  | cons a args ih =>
    cases a with
    | numeric o' s' =>
      unfold lastOf at h
      cases hlast : lastOf o args with
      | some s'' =>
        rw [hlast] at h
        exact List.mem_cons_of_mem _ (ih (hlast.trans h))
      | none =>
        rw [hlast] at h
        dsimp only at h
        split at h
        · rename_i ho
          cases h
          subst ho
          exact List.mem_cons_self
        · cases h
    | _ => exact List.mem_cons_of_mem _ (ih h)

/-- Of the counts there is nothing but the arguments. -/
theorem Shop.complete_eq_ok {m m' : Shop} (h : m.complete = .ok m') :
    (m' .consumers = m .consumers ∧ m .consumers ≠ 0) ∧
      m' .suppliers = m .suppliers ∧ m .suppliers ≠ 0 := by
  unfold Shop.complete at h
  split at h
  · cases h
  · rename_i hcons
    split at h
    · cases h
    · rename_i hsup
      have hkeep : ∀ o, o ≠ .demand → o ≠ .supply →
          (m.orDefault .demand DEMAND_UNIT).orDefault .supply SUPPLY_UNIT o = m o := by
        intro o hdemand hsupply
        rw [Shop.orDefault_of_ne hsupply, Shop.orDefault_of_ne hdemand]
      cases h
      exact ⟨⟨hkeep _ (by decide) (by decide), hcons⟩, hkeep _ (by decide) (by decide), hsup⟩

/-- Where the counts of an accepted command line come from. -/
theorem consumerSupplier_eq_ok {args : List ShopArg} {m : Shop}
    (h : consumerSupplier args = .ok m) {o : ShopOption} (ho : o = .consumers ∨ o = .suppliers) :
    ∃ s, lastOf o args = some s ∧ o.read s = .ok (m o) := by
  unfold consumerSupplier at h
  cases hloop : shopLoop .empty args with
  | error complaint =>
    rw [hloop] at h
    cases h
  | ok m₀ =>
    rw [hloop] at h
    obtain ⟨⟨hcons, hcons0⟩, hsup, hsup0⟩ := Shop.complete_eq_ok h
    have hread := shopLoop_eq_ok hloop o
    have hm : m o = m₀ o ∧ m₀ o ≠ 0 := by
      rcases ho with rfl | rfl
      · exact ⟨hcons, hcons0⟩
      · exact ⟨hsup, hsup0⟩
    cases hlast : lastOf o args with
    | none =>
      rw [hlast] at hread
      exact absurd hread hm.2
    | some s =>
      rw [hlast] at hread
      exact ⟨s, rfl, hm.1 ▸ hread⟩

/-- Nothing that is computed from the counts overflows. -/
structure Shop.SizesExact (m : Shop) : Prop where
  procNum : m.sizes.procNum = m .consumers + m .suppliers
  consSize : (m.sizes.consSize : Int) = 4 * m .consumers
  supSize : (m.sizes.supSize : Int) = 4 * m .suppliers
  memsegSize : (m.sizes.memsegSize : Int) = 4 * m .consumers + 4 * m .suppliers + 4

theorem sizeT_of_range {x : Int} (h0 : 0 ≤ x) (hmax : x ≤ INT_MAX) : (sizeT x : Int) = x := by
  have hmax : x ≤ 2147483647 := hmax
  unfold sizeT
  omega

/-- **The sizes for two counts that are positive.** -/
theorem Shop.sizes_exact_iff {m : Shop} (hcons : 0 < m .consumers ∧ m .consumers ≤ INT_MAX)
    (hsup : 0 < m .suppliers ∧ m .suppliers ≤ INT_MAX) :
    m.SizesExact ↔ m .consumers + m .suppliers ≤ INT_MAX := by
  have hc := sizeT_of_range (le_of_lt hcons.1) hcons.2
  have hs := sizeT_of_range (le_of_lt hsup.1) hsup.2
  have hcmax : m .consumers ≤ 2147483647 := hcons.2
  have hsmax : m .suppliers ≤ 2147483647 := hsup.2
  constructor
  · intro h
    have hproc : wrap32 (m .consumers + m .suppliers) = m .consumers + m .suppliers := h.procNum
    rw [← hproc]
    exact (inRange_wrap32 _).2
  · intro hmax
    refine ⟨?_, ?_, ?_, ?_⟩
    · have h0 : 0 ≤ m .consumers + m .suppliers := by linarith
      exact wrap32_of_inRange ⟨le_trans (by decide) h0, hmax⟩
    · simp only [Shop.sizes]
      omega
    · simp only [Shop.sizes]
      omega
    · simp only [Shop.sizes]
      omega

/-- The options are right about every argument, and no size of an accepted command line
    overflows. -/
def ShopFaithful (args : List ShopArg) : Prop :=
  (∀ o s, ShopArg.numeric o s ∈ args → Faithful o.read s) ∧
    ∀ m, consumerSupplier args = .ok m → m.SizesExact

/-- Every argument is plain, and the last ones for the two counts come to no more than an `int`. -/
def ShopPlain (args : List ShopArg) : Prop :=
  (∀ o s, ShopArg.numeric o s ∈ args → Plain s) ∧
    ∀ m sc ss, consumerSupplier args = .ok m → lastOf .consumers args = some sc →
      lastOf .suppliers args = some ss → value sc + value ss ≤ INT_MAX

theorem read_of_plain {opt : Char} {what : String} {s : List UInt8} {x : Int}
    (hplain : Plain s) (h : numericOption opt what s = .ok x) :
    x = value s ∧ 0 < x ∧ x ≤ INT_MAX := by
  obtain ⟨hpos, hmax, hdenotes⟩ := (faithful_iff.mpr hplain x).mp h
  exact ⟨(value_of_denotes hdenotes).1.symm, hpos, hmax⟩

theorem shopFaithful_iff (args : List ShopArg) : ShopFaithful args ↔ ShopPlain args := by
  have hread : (∀ o s, ShopArg.numeric o s ∈ args → Faithful o.read s) ↔
      ∀ o s, ShopArg.numeric o s ∈ args → Plain s :=
    forall_congr' fun o => forall_congr' fun s => forall_congr' fun _ => faithful_iff
  unfold ShopFaithful ShopPlain
  rw [hread]
  refine and_congr_right fun hplain => ?_
  have hcounts : ∀ m, consumerSupplier args = .ok m → ∃ sc ss,
      (lastOf .consumers args = some sc ∧ lastOf .suppliers args = some ss) ∧
      (m.SizesExact ↔ value sc + value ss ≤ INT_MAX) := by
    intro m hm
    obtain ⟨sc, hsc, hreadc⟩ := consumerSupplier_eq_ok hm (.inl rfl)
    obtain ⟨ss, hss, hreads⟩ := consumerSupplier_eq_ok hm (.inr rfl)
    obtain ⟨hc, hcrange⟩ := read_of_plain (hplain _ _ (mem_of_lastOf hsc)) hreadc
    obtain ⟨hs, hsrange⟩ := read_of_plain (hplain _ _ (mem_of_lastOf hss)) hreads
    refine ⟨sc, ss, ⟨hsc, hss⟩, ?_⟩
    rw [Shop.sizes_exact_iff hcrange hsrange, hc, hs]
  constructor
  · intro h m sc ss hm hsc hss
    obtain ⟨sc', ss', ⟨hsc', hss'⟩, hiff⟩ := hcounts m hm
    cases hsc.symm.trans hsc'
    cases hss.symm.trans hss'
    exact hiff.mp (h m hm)
  · intro h m hm
    obtain ⟨sc, ss, ⟨hsc, hss⟩, hiff⟩ := hcounts m hm
    exact hiff.mpr (h m sc ss hm hsc hss)

/-! ## 3. `incr_prog` -/

/-- Where a number comes from. -/
theorem countLoop_eq_ok {v : Version} {m m' : Counts} {args : List CountArg}
    (h : countLoop v m args = .ok m') (o : CountOption) :
    m'.num o = m.num o ∨ ∃ s, CountArg.numeric o s ∈ args ∧ o.read s = .ok (m'.num o) := by
  induction args generalizing m with
  | nil =>
    cases h
    exact .inl rfl
  | cons a args ih =>
    have hlater : ∀ m₁ : Counts, countLoop v m₁ args = .ok m' → m'.num o = m₁.num o ∨
        ∃ s, CountArg.numeric o s ∈ a :: args ∧ o.read s = .ok (m'.num o) := by
      intro m₁ h₁
      rcases ih h₁ with heq | ⟨s, hs, hread⟩
      · exact .inl heq
      · exact .inr ⟨s, List.mem_cons_of_mem _ hs, hread⟩
    cases a with
    | file optarg =>
      unfold countLoop at h
      cases hfile : fileOption v optarg with
      | error complaint =>
        rw [hfile] at h
        cases h
      | ok file =>
        rw [hfile] at h
        exact hlater { m with file := some file } h
    | numeric o' s =>
      unfold countLoop at h
      cases hread : o'.read s with
      | error complaint =>
        rw [hread] at h
        cases h
      | ok num =>
        rw [hread] at h
        rcases hlater _ h with heq | hmem
        · by_cases ho : o' = o
          · subst ho
            have heq : m'.num o' = num := heq.trans (by simp)
            exact .inr ⟨s, List.mem_cons_self, heq ▸ hread⟩
          · refine .inl (heq.trans ?_)
            simp [Ne.symm ho]
        · exact .inr hmem
    | help => cases h
    | missing optopt => cases h
    | unknown optopt => cases h

theorem Counts.complete_eq_ok {v : Version} {m m' : Counts} (h : m.complete v = .ok m')
    (o : CountOption) : m'.num o = if m.num o = 0 then o.default else m.num o := by
  have hdefaults : m' = m.defaults := by
    unfold Counts.complete at h
    cases hfile : m.file with
    | none =>
      rw [hfile] at h
      cases v <;> cases h
    | some file =>
      rw [hfile] at h
      cases v with
      | systemV =>
        cases h
        rfl
      | posix =>
        dsimp only at h
        split at h <;> cases h
        rfl
  rw [hdefaults]
  rfl

/-- The options are right about every argument, and the number of processes is that of the
    elements of `pid_list`. -/
def CountFaithful (v : Version) (args : List CountArg) : Prop :=
  (∀ o s, CountArg.numeric o s ∈ args → Faithful o.read s) ∧
    ∀ m, incrProg v args = .ok m → (m.sizes.1 : Int) = m.num .processes

def CountPlain (args : List CountArg) : Prop := ∀ o s, CountArg.numeric o s ∈ args → Plain s

theorem countFaithful_iff (v : Version) (args : List CountArg) :
    CountFaithful v args ↔ CountPlain args := by
  have hread : (∀ o s, CountArg.numeric o s ∈ args → Faithful o.read s) ↔ CountPlain args :=
    forall_congr' fun o => forall_congr' fun s => forall_congr' fun _ => faithful_iff
  unfold CountFaithful
  rw [hread]
  refine and_iff_left_of_imp fun hplain m hm => ?_
  unfold incrProg at hm
  cases hloop : countLoop v .empty args with
  | error complaint =>
    rw [hloop] at hm
    cases hm
  | ok m₀ =>
    rw [hloop] at hm
    rw [Counts.sizes]
    rcases countLoop_eq_ok hloop .processes with hzero | ⟨s, hs, hnum⟩
    · -- the default
      have hzero : m₀.num .processes = 0 := hzero
      rw [Counts.complete_eq_ok hm, if_pos hzero]
      rfl
    · obtain ⟨-, hpos, hmax⟩ := read_of_plain (hplain _ _ hs) hnum
      rw [Counts.complete_eq_ok hm, if_neg (ne_of_gt hpos)]
      exact sizeT_of_range (le_of_lt hpos) hmax

/-! ## 4. All four programs -/

/-- **When the numbers of a command line are what it says**: if the argument of every numeric option
    is refused, or has nothing behind its digits and a number that an `int` can hold, and if the
    counts of consumers and suppliers that are accepted come to no more than an `int`. -/
theorem options_faithful_iff (shopArgs : List ShopArg) (v : Version) (countArgs : List CountArg) :
    (ShopFaithful shopArgs ↔ ShopPlain shopArgs) ∧
      (CountFaithful v countArgs ↔ CountPlain countArgs) :=
  ⟨shopFaithful_iff shopArgs, countFaithful_iff v countArgs⟩

/-- What is behind the digits is ignored (`5x` is 5), a `long` loses its upper half (1, and a negative
    number of processes), and two counts overflow. -/
theorem options_lossy :
    ¬ ShopFaithful [.numeric .consumers (ascii "5x")] ∧
      ¬ ShopFaithful [.numeric .supply (ascii "4294967297")] ∧
      ¬ ShopFaithful [.numeric .consumers (ascii "2147483647"), .numeric .suppliers (ascii "1")] ∧
      ∀ v, ¬ CountFaithful v [.numeric .processes (ascii "2147483648")] := by
  refine ⟨fun h => ?_, fun h => ?_, fun h => ?_, fun v h => ?_⟩
  · have hread : ShopOption.consumers.read (ascii "5x") = .ok 5 := rfl
    obtain ⟨-, -, hdenotes⟩ := (h.1 _ _ List.mem_cons_self 5).mp hread
    exact absurd (denotes_iff.mp hdenotes) (by decide)
  · have hread : ShopOption.supply.read (ascii "4294967297") = .ok 1 := rfl
    obtain ⟨-, -, hdenotes⟩ := (h.1 _ _ List.mem_cons_self 1).mp hread
    exact absurd (denotes_iff.mp hdenotes) (by decide)
  · have hread : ∃ m, consumerSupplier [.numeric .consumers (ascii "2147483647"),
        .numeric .suppliers (ascii "1")] = .ok m ∧
          m.sizes.procNum = -2147483648 ∧ m .consumers + m .suppliers = 2147483648 :=
      ⟨_, rfl, rfl, rfl⟩
    obtain ⟨m, hm, hnum, hsum⟩ := hread
    have hexact := (h.2 m hm).procNum
    omega
  · have hread : CountOption.processes.read (ascii "2147483648") = .ok (-2147483648) := rfl
    obtain ⟨hpos, -⟩ := (h.1 _ _ List.mem_cons_self (-2147483648)).mp hread
    exact absurd hpos (by decide)

end CommandLine
end Labs
