import Labs.TaskLedger.LoadFrom

/-!
# Files of records

What `load_from` is meant to read: a JSON object with one array, `Employees`, of objects that have
the six keys of `LAB_6/task_ledger/src/ledger_funcs.c`, in any order and with any white space.

A `Document` is such a file before it is written down. `Document.text` is the file, and
`Document.tokens` the tokens of the file in the order of the text, each with the type, the place
and the size that `jsmn_parse` reports; a string token is what stands between the quotes.
Both are built from the front, so the parts behind a place are always a suffix of the whole:
`List.drop` of the text at an offset, and of the tokens at an index.
-/

namespace Labs
namespace TaskLedger

open Lib

def FIRST_NAME : List UInt8 := ascii "Firstname"
def MIDDLE_NAME : List UInt8 := ascii "Middlename"
def LAST_NAME : List UInt8 := ascii "Lastname"
def OCCUPATION : List UInt8 := ascii "Occupation"
def NUMBER : List UInt8 := ascii "Phonenumber"
def AGE : List UInt8 := ascii "Age"

inductive Key
  | firstName
  | middleName
  | lastName
  | occupation
  | number
  | age
deriving DecidableEq

namespace Key

def text : Key → List UInt8
  | .firstName => FIRST_NAME
  | .middleName => MIDDLE_NAME
  | .lastName => LAST_NAME
  | .occupation => OCCUPATION
  | .number => NUMBER
  | .age => AGE

def field : Key → Field
  | .firstName => .name
  | .middleName => .mname
  | .lastName => .lname
  | .occupation => .occup
  | .number => .number
  | .age => .age

/-- The keys whose values are strings, in the order of `textFields`. -/
def texts : List Key := [.firstName, .middleName, .lastName, .occupation, .number]

def all : List Key := texts ++ [.age]

end Key

/-! ## 1. The values -/

def QUOTE : UInt8 := 34
def BACKSLASH : UInt8 := 92
def BRACE : UInt8 := 123
def BRACE_END : UInt8 := 125
def BRACKET : UInt8 := 91
def BRACKET_END : UInt8 := 93
def COLON : UInt8 := 58
def COMMA : UInt8 := 44

def isHex (b : UInt8) : Bool := isdigit b || (65 ≤ b && b ≤ 70) || (97 ≤ b && b ≤ 102)

/-- What may stand between two quotes. -/
def quotable : List UInt8 → Bool
  | [] => true
  | [b] => 32 ≤ b && b != QUOTE && b != BACKSLASH
  | b :: c :: bs =>
    if b = BACKSLASH then
      if c = 117 then (bs.take 4).length == 4 && (bs.take 4).all isHex && quotable bs
      else (ascii "\"\\/bfnrt").contains c && quotable bs
    else 32 ≤ b && b != QUOTE && quotable (c :: bs)

/-- A non-negative integer. -/
def isNumber (ds : List UInt8) : Bool :=
  ds != [] && ds.all isdigit && (ds.head? != some 48 || ds.length == 1)

/-- A value of the key, which fits the field if it is a string. -/
def Key.accepts (k : Key) (v : List UInt8) : Bool :=
  if k = .age then isNumber v else quotable v && v.length < k.field.size

/-- White space. -/
abbrev Blank := {bs : List UInt8 // ∀ b ∈ bs, b ∈ ascii " \t\n\r"}

def noBlank : Blank := ⟨[], fun _ h => absurd h List.not_mem_nil⟩

/-! ## 2. The text -/

/-- A key and its value. -/
structure Member where
  key : Key
  value : List UInt8
  accepted : key.accepts value
  beforeKey : Blank
  afterKey : Blank
  beforeValue : Blank
  afterValue : Blank

structure Record where
  members : List Member
  keys : (members.map Member.key).Perm Key.all
  beforeObject : Blank
  afterObject : Blank

structure Document where
  records : List Record
  beforeObject : Blank
  beforeName : Blank
  afterName : Blank
  beforeArray : Blank
  insideArray : Blank
  afterArray : Blank
  afterObject : Blank

/-- The quotes of a value. -/
def Key.quotes (k : Key) : List UInt8 := if k = .age then [] else [QUOTE]

/-- What stands in front of the value. -/
def Member.front (m : Member) : List UInt8 :=
  m.beforeKey.val ++ QUOTE :: m.key.text ++ QUOTE :: m.afterKey.val ++ COLON :: m.beforeValue.val ++
    m.key.quotes

def Member.text (m : Member) : List UInt8 :=
  m.front ++ m.value ++ m.key.quotes ++ m.afterValue.val

/-- What separates an element from those that follow it. -/
def commas {α : Type} (rest : List α) : List UInt8 := if rest.isEmpty then [] else [COMMA]

def membersText : List Member → List UInt8
  | [] => [BRACE_END]
  | m :: ms => m.text ++ commas ms ++ membersText ms

def Record.text (r : Record) : List UInt8 :=
  r.beforeObject.val ++ BRACE :: membersText r.members ++ r.afterObject.val

def recordsText : List Record → List UInt8
  | [] => [BRACKET_END]
  | r :: rs => r.text ++ commas rs ++ recordsText rs

/-- What stands in front of the name of the array, and of the array. -/
def Document.frontName (doc : Document) : List UInt8 :=
  doc.beforeObject.val ++ BRACE :: doc.beforeName.val ++ [QUOTE]

def Document.frontArray (doc : Document) : List UInt8 :=
  QUOTE :: doc.afterName.val ++ COLON :: doc.beforeArray.val

def Document.arrayText (doc : Document) : List UInt8 :=
  BRACKET :: doc.insideArray.val ++ recordsText doc.records

def Document.text (doc : Document) : List UInt8 :=
  doc.frontName ++ ascii "Employees" ++ doc.frontArray ++ doc.arrayText ++ doc.afterArray.val ++
    BRACE_END :: doc.afterObject.val

/-! ## 3. The tokens -/

/-- A token of `len` bytes. -/
def tok (type : JsmnType) (start len size : Nat) : Tok :=
  ⟨type, start, start + len, size, Nat.le_add_right start len⟩

def Key.type (k : Key) : JsmnType := if k = .age then .JSMN_PRIMITIVE else .JSMN_STRING

def Member.keyTok (m : Member) (off : Nat) : Tok :=
  tok .JSMN_STRING (off + (m.beforeKey.val.length + 1)) m.key.text.length 1

def Member.valueTok (m : Member) (off : Nat) : Tok :=
  tok m.key.type (off + m.front.length) m.value.length 0

def membersTokens : Nat → List Member → List Tok
  | _, [] => []
  | off, m :: ms =>
    m.keyTok off :: m.valueTok off :: membersTokens (off + m.text.length + (commas ms).length) ms

/-- Where the members of a record begin. -/
def Record.inside (r : Record) (off : Nat) : Nat := off + r.beforeObject.val.length + 1

def Record.tokens (r : Record) (off : Nat) : List Tok :=
  tok .JSMN_OBJECT (off + r.beforeObject.val.length) (membersText r.members).length.succ
    r.members.length :: membersTokens (r.inside off) r.members

def recordsTokens : Nat → List Record → List Tok
  | _, [] => []
  | off, r :: rs =>
    r.tokens off ++ recordsTokens (off + r.text.length + (commas rs).length) rs

/-- Where the array begins. -/
def Document.atArray (doc : Document) : Nat :=
  doc.frontName.length + (ascii "Employees").length + doc.frontArray.length

def Document.tokens (doc : Document) : List Tok :=
  tok .JSMN_OBJECT doc.beforeObject.val.length
      (doc.text.length - doc.beforeObject.val.length - doc.afterObject.val.length) 1 ::
    tok .JSMN_STRING doc.frontName.length (ascii "Employees").length 1 ::
    tok .JSMN_ARRAY doc.atArray doc.arrayText.length doc.records.length ::
    recordsTokens (doc.atArray + 1 + doc.insideArray.val.length) doc.records

/-- `jsmn_parse` finds the tokens of the document, and refuses more of them than it has room
    for. -/
structure Tokenizes (jsmn : List UInt8 → Parsed) (doc : Document) : Prop where
  parsed : doc.tokens.length ≤ MAX_TOKENS → jsmn doc.text = ⟨doc.tokens.length, doc.tokens⟩
  refused : MAX_TOKENS < doc.tokens.length → (jsmn doc.text).ret < 0

end TaskLedger
end Labs
