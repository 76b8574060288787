import SegregatedFit.Text.Blank
import SegregatedFit.Trace

/-!
The text format of traces. Empty lines are skipped and the others trimmed. The first four hold one
number each: the suggested heap size, the number of ids, the number of operations and a weight.
Every other line is an operation, `a id size`, `r id size` or `f id`; more fields are ignored.
-/

namespace SegregatedFit.Trace

-- Numbers are 64 bits wide.
def numberBound : Nat := 18446744073709551616

def digit? (c : Char) : Option Nat :=
  if '0' ≤ c ∧ c ≤ '9' then some (c.toNat - 48) else none

-- Reads digits from the left on; `value` is what those before stand for. The first character that
-- is not a digit, or that makes the number too large, decides the error.
def readDigits (value : Nat) : List Char → Except NumberError Nat
  | [] => .ok value
  | c :: rest =>
    match digit? c with
    | none => .error .invalidDigit
    | some d =>
      let value := 10 * value + d
      if value < numberBound then readDigits value rest else .error .tooLarge

-- A number is an optional plus sign and at least one digit.
def readNumber : List Char → Except NumberError Nat
  | [] => .error .empty
  | ['+'] => .error .invalidDigit
  | '+' :: digits => readDigits 0 digits
  | digits => readDigits 0 digits

def number (line : Nat) (text : List Char) : Except TraceError Nat :=
  match readNumber text with
  | .ok n => .ok n
  | .error cause => .error (.invalidNumber line (String.ofList text) cause)

-- The number in the first of the fields.
def firstNumber (line : Nat) (what : TraceField) : List (List Char) → Except TraceError Nat
  | [] => .error (.missing line what)
  | text :: _ => number line text

-- One operation. The id comes first and is checked before the kind of operation is.
def readOp (numIds : Nat) : Nat × List Char → Except TraceError Op
  | (line, text) => do
    let fields := Text.fields text
    let kind := fields.headD []
    let id ← firstNumber line .id (fields.drop 1)
    if numIds ≤ id then throw (.idOutOfRange line id numIds)
    match kind with
    | ['a'] => return .alloc id (← firstNumber line .size (fields.drop 2))
    | ['r'] => return .realloc id (← firstNumber line .size (fields.drop 2))
    | ['f'] => return .free id
    | _ => throw (.unknownOp line (String.ofList kind))

-- One header line, and the lines after it.
def readHeader (what : TraceField) :
    List (Nat × List Char) → Except TraceError (Nat × List (Nat × List Char))
  | [] => .error (.missing 0 what)
  | (line, text) :: rest => return (← number line text, rest)

def parseChars (text : List Char) : Except TraceError Trace := do
  let (suggestedHeap, lines) ← readHeader .heapSize (Text.numberedLines text)
  let (numIds, lines) ← readHeader .idCount lines
  let (numOps, lines) ← readHeader .opCount lines
  let (weight, lines) ← readHeader .weight lines
  let ops ← lines.mapM (readOp numIds)
  if ops.length ≠ numOps then throw (.opCount numOps ops.length)
  return ⟨suggestedHeap, numIds, weight, ops⟩

def parse (text : String) : Except TraceError Trace := parseChars text.toList

end SegregatedFit.Trace
