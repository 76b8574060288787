import SegregatedFit.GrowError
import SegregatedFit.Heap.Walk
import SegregatedFit.Log
import SegregatedFit.Trace

/-!
What a heap and its users report while they work. Every event has a level, the part of the library
that it comes from, and one wording.
-/

namespace SegregatedFit

inductive Event where
  -- a reservation handed out more of its bytes
  | arenaGrew (old new : Nat)
  -- the end of the data segment was moved
  | breakMoved (old new : Nat)
  | heapInitialized (base size chunk : Nat)
  | heapGrew (size : Nat) (block : Nat)
  | allocationTooLarge (size : Nat)
  | allocationFailed (size : Nat) (cause : GrowError)
  | reallocationTooLarge (size : Nat)
  | reallocationFailed (size : Nat) (cause : GrowError)
  -- a block took in its free successor
  | grewInPlace (block size : Nat)
  -- the last block was extended together with the region
  | extendedTail (block size : Nat)
  | heapSpan (lo hi : Nat)
  | blockSeen (block : BlockInfo)
  | listCounted (list count : Nat)
  | checkFailed (cause : Corruption)
  | replayed (stats : ReplayStats)
deriving DecidableEq, Repr, Inhabited

namespace Event

def level : Event → Level
  | checkFailed _ => .error
  | allocationTooLarge _ | allocationFailed .. | reallocationTooLarge _ | reallocationFailed .. => .warn
  | heapInitialized .. | replayed _ => .debug
  | _ => .trace

def target : Event → String
  | arenaGrew .. => "segalloc::heap"
  | breakMoved .. => "segalloc::sbrk"
  | checkFailed _ => "segalloc::check"
  | replayed _ => "segalloc::trace"
  | _ => "segalloc::allocator"

open Text in
def message : Event → String
  | arenaGrew old new => s!"arena break {hex old} -> {hex new}"
  | breakMoved old new => s!"program break {hex old} -> {hex new}"
  | heapInitialized base size chunk =>
    s!"heap initialized at {hex base}: {size} bytes, chunk size {chunk}"
  | heapGrew size b => s!"heap grew by {size} bytes at {hex b}"
  | allocationTooLarge size => s!"allocation of {size} bytes exceeds the largest block"
  | allocationFailed size cause => s!"allocation of {size} bytes failed: {cause.message}"
  | reallocationTooLarge size => s!"reallocation to {size} bytes exceeds the largest block"
  | reallocationFailed size cause => s!"reallocation to {size} bytes failed: {cause.message}"
  | grewInPlace b size => s!"grew {hex b} in place to {size} bytes"
  | extendedTail b size => s!"extended tail block {hex b} to {size} bytes"
  | heapSpan lo hi => s!"heap {hex lo}..{hex hi}"
  | blockSeen b =>
    let kind := if b.allocated then "a" else "f"
    s!"{hexPadded 8 b.offset}: [{b.size}:{kind}]"
  | listCounted list count => s!"list {list}: {count} blocks"
  | checkFailed cause => s!"heap check failed: {cause.message}"
  | replayed stats => s!"replayed {stats.ops} ops, utilization {stats.percentText}%"

def record (e : Event) : Record := ⟨e.level, e.target, e.message⟩

end Event

end SegregatedFit
