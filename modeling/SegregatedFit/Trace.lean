import SegregatedFit.Corruption
import SegregatedFit.Decimal
import SegregatedFit.Text.Quoted

/-!
Allocation traces: lists of requests on numbered blocks, the ways in which the text of one can be
wrong, and what comes of running one against an allocator.
-/

namespace SegregatedFit

inductive Op where
  | alloc (id size : Nat)
  | free (id : Nat)
  | realloc (id size : Nat)
deriving DecidableEq, Repr, Inhabited

structure Trace where
  suggestedHeap : Nat
  numIds : Nat
  weight : Nat
  ops : List Op
deriving DecidableEq, Repr, Inhabited

inductive NumberError where
  | empty
  | invalidDigit
  | tooLarge
deriving DecidableEq, Repr, Inhabited

def NumberError.message : NumberError → String
  | empty => "cannot parse integer from empty string"
  | invalidDigit => "invalid digit found in string"
  | tooLarge => "number too large to fit in target type"

-- What a number in a trace stands for.
inductive TraceField where
  | heapSize
  | idCount
  | opCount
  | weight
  | id
  | size
deriving DecidableEq, Repr, Inhabited

def TraceField.name : TraceField → String
  | heapSize => "heap size"
  | idCount => "id count"
  | opCount => "op count"
  | weight => "weight"
  | id => "id"
  | size => "size"

-- Lines are counted from one; a header line that is not there at all has number zero.
inductive TraceError where
  | missing (line : Nat) (what : TraceField)
  | invalidNumber (line : Nat) (value : String) (cause : NumberError)
  | unknownOp (line : Nat) (op : String)
  | idOutOfRange (line id numIds : Nat)
  | opCount (expected found : Nat)
deriving DecidableEq, Repr, Inhabited

open Text in
def TraceError.message : TraceError → String
  | missing line what => s!"line {line}: missing {what.name}"
  | invalidNumber line value _ => s!"line {line}: invalid number {quoted value}"
  | unknownOp line op => s!"line {line}: unknown operation {quoted op}"
  | idOutOfRange line id numIds =>
    s!"line {line}: id {id} is outside the {numIds} declared ids"
  | opCount expected found => s!"header declares {expected} operations, found {found}"

-- What can go wrong in operation number `op` of a replay.
inductive ReplayError where
  | outOfMemory (op : Nat)
  | notLive (op id : Nat)
  | misaligned (op id address : Nat)
  | overlap (op id : Nat)
  | contentLost (op id : Nat)
  | corrupted (op : Nat) (cause : Corruption)
deriving DecidableEq, Repr, Inhabited

open Text in
def ReplayError.message : ReplayError → String
  | outOfMemory op => s!"op {op}: out of memory"
  | notLive op id => s!"op {op}: id {id} is not allocated"
  | misaligned op id address =>
    s!"op {op}: block for id {id} at {hex address} is misaligned"
  | overlap op id => s!"op {op}: block for id {id} overlaps a live block"
  | contentLost op id => s!"op {op}: payload of id {id} was overwritten"
  | corrupted op cause => s!"op {op}: {cause.message}"

-- The outcome of a replay: the operations run, the largest sum of requested sizes that was live at
-- one time, and the size of the heap at the end.
structure ReplayStats where
  ops : Nat
  peakLiveBytes : Nat
  heapBytes : Nat
deriving DecidableEq, Repr, Inhabited

namespace ReplayStats

-- Peak payload over heap size.
def utilization (s : ReplayStats) : Float :=
  if s.heapBytes = 0 then 0
  else s.peakLiveBytes.toUInt64.toFloat / s.heapBytes.toUInt64.toFloat

-- The utilization in percent, with one decimal place.
def percentText (s : ReplayStats) : String := Decimal.oneDecimal (s.utilization * 100)

end ReplayStats

end SegregatedFit
