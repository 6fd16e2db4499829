import Labs.Lib.Strtol

/-!
# The command lines of the semaphore programs

The loop over the options, and what is made of them before anything is created, of
`consumer_supplier` in `LAB_16/task_system_v_semaphores_2/src/consumer_supplier.c` and
`LAB_16/task_posix_semaphores_2/src/consumer_supplier.c`, where it is the same text, and of `main`
in `LAB_16/task_system_v_semaphores_1/src/incr_prog.c` and
`LAB_16/task_posix_semaphores_1/src/incr_prog_posix.c`, which differ in the file that they are given.

The input is what `getopt` answers, one after the other: an option that takes an argument comes with
one, or as `:`. The bytes of an argument are those before its NUL. Whatever is complained about, the
usage is printed and the program ends.
-/

namespace Labs
namespace CommandLine

open Lib

/-! ## 1. A numeric option -/

inductive Complaint
  | bundled (opt : Char)
  | strtol (errno : Int)
  | notPositive (what : String) (num : Int)
  | noArgument (optopt : Char) (sample : String)
  | unknownOption (optopt : Char)
  | notSpecified (text : String)
  | nameTooLong (len : Nat)
  | noSlash
  | help

/-- What is printed on `stderr`. A failing `strtol` is put between the place and the reason. -/
def Complaint.text : Complaint → String
  | .bundled opt => "error: bundled options, i.e \"-" ++ opt.toString ++ "-\" are not allowed\n"
  | .strtol _ => "strtol"
  | .notPositive what num =>
    what ++ " must be a strictly positive integer. Your number is " ++ toString num ++ "\n"
  | .noArgument optopt sample =>
    "-" ++ optopt.toString ++ " requires an argument, e.g. " ++ sample ++ "\n"
  | .unknownOption optopt => "-" ++ optopt.toString ++ " is an unknown option\n"
  | .notSpecified text => text
  | .nameTooLong len =>
    "File name cannot be longer than 247 characters. Your number of characters is " ++
      toString len ++ "\n"
  | .noSlash =>
    "file name is missing an inital slash. Append to your file name, e.g. '/file_name'\n"
  | .help => ""

def EXIT_SUCCESS : Int := 0
def EXIT_FAILURE : Int := 1

/-- What the program returns behind the usage. -/
def Complaint.status : Complaint → Int
  | .strtol _ => EXIT_FAILURE
  | _ => EXIT_SUCCESS

/-- `options_bundled`. -/
def optionsBundled (optarg : List UInt8) : Bool := optarg.head? == some 45

/-- What every numeric option does with its argument. The result is stored. -/
def numericOption (opt : Char) (what : String) (optarg : List UInt8) : Except Complaint Int :=
  if optionsBundled optarg then .error (.bundled opt)
  else if (strtol optarg).errno ≠ 0 then .error (.strtol (strtol optarg).errno)
  else if (strtol optarg).num ≤ 0 then .error (.notPositive what (strtol optarg).num)
  else .ok (wrap32 (strtol optarg).num)

/-- An `int` that is converted to a `size_t`. -/
def sizeT (x : Int) : Nat := (x % 18446744073709551616).toNat

/-! ## 2. `consumer_supplier` -/

def SUPPLY_UNIT : Int := 500
def DEMAND_UNIT : Int := 5000

inductive ShopOption
  | consumers
  | suppliers
  | demand
  | supply
deriving DecidableEq

def ShopOption.letter : ShopOption → Char
  | .consumers => 'c'
  | .suppliers => 's'
  | .demand => 'D'
  | .supply => 'S'

def ShopOption.what : ShopOption → String
  | .consumers => "Number of consumers"
  | .suppliers => "Number of suppliers"
  | .demand => "Demand unit"
  | .supply => "Supply unit"

def ShopOption.read (o : ShopOption) : List UInt8 → Except Complaint Int :=
  numericOption o.letter o.what

inductive ShopArg
  | numeric (o : ShopOption) (optarg : List UInt8)
  | help
  | missing (optopt : Char)
  | unknown (optopt : Char)
deriving DecidableEq

/-- `cons_num`, `sup_num`, `demand_unit` and `supply_unit`. -/
abbrev Shop : Type := ShopOption → Int

def Shop.set (m : Shop) (o : ShopOption) (x : Int) : Shop := Function.update m o x

@[simp] theorem Shop.set_self (m : Shop) (o : ShopOption) (x : Int) : m.set o x o = x := by
  simp [Shop.set]

theorem Shop.set_of_ne {o o' : ShopOption} (h : o' ≠ o) (m : Shop) (x : Int) :
    m.set o x o' = m o' := by
  simp [Shop.set, h]

def Shop.empty : Shop := fun _ => 0

def shopLoop : Shop → List ShopArg → Except Complaint Shop
  | m, [] => .ok m
  | m, .numeric o optarg :: args =>
    match o.read optarg with
    | .ok num => shopLoop (m.set o num) args
    | .error complaint => .error complaint
  | _, .help :: _ => .error .help
  | _, .missing optopt :: _ => .error (.noArgument optopt "4")
  | _, .unknown optopt :: _ => .error (.unknownOption optopt)

/-- A unit that is not specified. -/
def Shop.orDefault (m : Shop) (o : ShopOption) (x : Int) : Shop :=
  if m o = 0 then m.set o x else m

theorem Shop.orDefault_of_ne {o o' : ShopOption} (h : o' ≠ o) (m : Shop) (x : Int) :
    m.orDefault o x o' = m o' := by
  unfold Shop.orDefault
  split
  · exact Shop.set_of_ne h m x
  · rfl

/-- The counts have to be given, the units have defaults. -/
def Shop.complete (m : Shop) : Except Complaint Shop :=
  if m .consumers = 0 then .error (.notSpecified
    "Number of consumers is not specified. Use '-c' option!\n")
  else if m .suppliers = 0 then .error (.notSpecified
    "Number of suppliers is not specified. Use '-s' option!\n")
  else .ok ((m.orDefault .demand DEMAND_UNIT).orDefault .supply SUPPLY_UNIT)

def consumerSupplier (args : List ShopArg) : Except Complaint Shop :=
  (shopLoop .empty args).bind Shop.complete

/-- `proc_num`, for `pid_list`, and the sizes of the two arrays and of the segment. -/
structure Sizes where
  procNum : Int
  consSize : Nat
  supSize : Nat
  memsegSize : Nat

/-- A `consumer_t` and a `supplier_t` are one `int` each, and so is what comes behind them. -/
def Shop.sizes (m : Shop) : Sizes where
  procNum := wrap32 (m .consumers + m .suppliers)
  consSize := sizeT (m .consumers) * 4 % 18446744073709551616
  supSize := sizeT (m .suppliers) * 4 % 18446744073709551616
  memsegSize :=
    (sizeT (m .consumers) * 4 + sizeT (m .suppliers) * 4 + 4) % 18446744073709551616

/-! ## 3. `incr_prog` -/

def DEFAULT_INCR_MAX_NUM : Int := 20
def DEFAULT_PROC_NUM : Int := 2

/-- `NAME_MAX - SEM_PREFIX_LEN - SUFFIX_LEN`. -/
def MAX_NAME : Int := 255 - 4 - 4

inductive Version
  | systemV
  | posix

inductive CountOption
  | increments
  | processes
deriving DecidableEq

def CountOption.letter : CountOption → Char
  | .increments => 'i'
  | .processes => 'p'

def CountOption.what : CountOption → String
  | .increments => "Number of increments"
  | .processes => "Number of processes"

def CountOption.read (o : CountOption) : List UInt8 → Except Complaint Int :=
  numericOption o.letter o.what

inductive CountArg
  | file (optarg : List UInt8)
  | numeric (o : CountOption) (optarg : List UInt8)
  | help
  | missing (optopt : Char)
  | unknown (optopt : Char)
deriving DecidableEq

/-- `shmem_file` or `file_name`, and `incr_num` and `proc_num`. -/
structure Counts where
  file : Option (List UInt8)
  num : CountOption → Int

def Counts.empty : Counts := ⟨none, fun _ => 0⟩

/-- `-m`, or `-f`. -/
def fileOption (v : Version) (optarg : List UInt8) : Except Complaint (List UInt8) :=
  match v with
  | .systemV => if optionsBundled optarg then .error (.bundled 'm') else .ok optarg
  | .posix =>
    if optionsBundled optarg then .error (.bundled 'f')
    else if MAX_NAME < wrap32 optarg.length then .error (.nameTooLong optarg.length)
    else .ok optarg

def Version.fileLetter : Version → Char
  | .systemV => 'm'
  | .posix => 'f'

def Version.sample : Version → String
  | .systemV => "/proc/meminfo"
  | .posix => "/file_name"

def countLoop (v : Version) : Counts → List CountArg → Except Complaint Counts
  | m, [] => .ok m
  | m, .file optarg :: args =>
    match fileOption v optarg with
    | .ok file => countLoop v { m with file := some file } args
    | .error complaint => .error complaint
  | m, .numeric o optarg :: args =>
    match o.read optarg with
    | .ok num => countLoop v { m with num := Function.update m.num o num } args
    | .error complaint => .error complaint
  | _, .help :: _ => .error .help
  | _, .missing optopt :: _ =>
    .error (.noArgument optopt (if optopt = v.fileLetter then v.sample else "4"))
  | _, .unknown optopt :: _ => .error (.unknownOption optopt)

def CountOption.default : CountOption → Int
  | .increments => DEFAULT_INCR_MAX_NUM
  | .processes => DEFAULT_PROC_NUM

def Counts.defaults (m : Counts) : Counts :=
  { m with num := fun o => if m.num o = 0 then o.default else m.num o }

/-- The numbers have defaults, the file has none. -/
def Counts.complete (v : Version) (m : Counts) : Except Complaint Counts :=
  match v, m.file with
  | .systemV, none => .error (.notSpecified ("file for shared memory is not specified! " ++
    "Please specify a real accessible file such as '/proc/meminfo'\n"))
  | .posix, none => .error (.notSpecified ("file for shared memory is not specified! " ++
    "Please specify a file name, e.g. '/file_name'\n"))
  | .posix, some file => if file.head? = some 47 then .ok m.defaults else .error .noSlash
  | .systemV, some _ => .ok m.defaults

def incrProg (v : Version) (args : List CountArg) : Except Complaint Counts :=
  (countLoop v .empty args).bind (Counts.complete v)

/-- The number of elements of `pid_list`, and the size of the segment. -/
def Counts.sizes (m : Counts) : Nat × Nat := (sizeT (m.num .processes), 4 + 4)

end CommandLine
end Labs
