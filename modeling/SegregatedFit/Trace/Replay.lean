import SegregatedFit.Allocator
import Std.Data.TreeMap

/-!
Replaying a trace. Every block handed out is checked for alignment and for overlap with the live
ones, filled with bytes that tell its id, and read again before it is freed or resized.
-/

namespace SegregatedFit

-- A live id: its block and the size that was asked for.
structure Live where
  block : Block
  size : Nat
deriving DecidableEq, Repr, Inhabited

-- `ranges` takes the start of every live block to the end of the bytes that were asked for.
structure Replay (ρ : Type) where
  allocator : Allocator ρ
  live : Std.TreeMap Nat Live
  ranges : Std.TreeMap Nat Nat
  liveBytes : Nat
  peakLiveBytes : Nat

namespace Replay

variable {ρ : Type}

-- The byte expected at position `i` of a block of `id`.
def pattern (id i : Nat) : UInt8 := .ofNat id * 31 + .ofNat i

def start (allocator : Allocator ρ) : Replay ρ := ⟨allocator, ∅, ∅, 0, 0⟩

-- The entry with the greatest key below `bound`.
def lastBelow (ranges : Std.TreeMap Nat Nat) (bound : Nat) : Option (Nat × Nat) :=
  ranges.foldl (fun last key value => if key < bound then some (key, value) else last) none

-- Whether the bytes from `first` up to `stop` meet a live range. Live ranges do not meet each other,
-- so the last one that starts before `stop` also ends last.
def overlaps (ranges : Std.TreeMap Nat Nat) (first stop : Nat) : Bool :=
  match lastBelow ranges stop with
  | some (_, last) => first < last
  | none => false

-- Takes an id out of the live ones.
def release (r : Replay ρ) (id : Nat) : Option (Live × Replay ρ) :=
  match r.live[id]? with
  | none => none
  | some live => some (live,
      { r with
        live := r.live.erase id
        ranges := r.ranges.erase live.block
        liveBytes := r.liveBytes - live.size })

-- Makes `b` the live block of `id`.
def enter (r : Replay ρ) (id : Nat) (b : Block) (size : Nat) : Replay ρ :=
  let liveBytes := r.liveBytes + size
  { r with
    ranges := r.ranges.insert b (b + size)
    live := r.live.insert id ⟨b, size⟩
    liveBytes
    peakLiveBytes := max r.peakLiveBytes liveBytes }

-- Whether the first `count` bytes of the payload of `b` are those written for `id`.
def intact (r : Replay ρ) (id : Nat) (b : Block) (count : Nat) : Except Fault Bool :=
  r.allocator.heap.holds b count (pattern id)

def update : Replay ρ → (Allocator ρ → Run (Allocator ρ)) → Run (Replay ρ)
  | ⟨allocator, live, ranges, liveBytes, peakLiveBytes⟩, step =>
    return ⟨← step allocator, live, ranges, liveBytes, peakLiveBytes⟩

-- Writes the bytes of `id` into the payload of `b`.
def fill (r : Replay ρ) (id : Nat) (b : Block) (size : Nat) : Run (Replay ρ) :=
  r.update (·.update (·.fill b (tabulate size (pattern id))))

-- Ends the life of an id whose block is to be freed.
def retire (r : Replay ρ) (op id : Nat) : Run (Except ReplayError Unit × Replay ρ) :=
  match r.release id with
  | none => return (.error (.notLive op id), r)
  | some (live, r) => do
    if ← r.intact id live.block live.size then
      return (.ok (), ← r.update (·.free (some live.block)))
    else
      return (.error (.contentLost op id), r)

variable [Reserve ρ]

-- Checks a block that was handed out for `id`, and makes it live.
def claim (r : Replay ρ) (op id : Nat) (b : Block) (size : Nat) :
    Except ReplayError Unit × Replay ρ :=
  let address := r.allocator.address b
  if address % alignment ≠ 0 then (.error (.misaligned op id address), r)
  else if overlaps r.ranges b (b + size) then (.error (.overlap op id), r)
  else (.ok (), r.enter id b size)

def allocate : Replay ρ → Nat → Run (Option Block × Replay ρ)
  | ⟨allocator, live, ranges, liveBytes, peakLiveBytes⟩, size => do
    let (block, allocator) ← allocator.allocate size
    return (block, ⟨allocator, live, ranges, liveBytes, peakLiveBytes⟩)

def reallocate : Replay ρ → Block → Nat → Run (Option Block × Replay ρ)
  | ⟨allocator, live, ranges, liveBytes, peakLiveBytes⟩, b, size => do
    let (block, allocator) ← allocator.reallocate (some b) size
    return (block, ⟨allocator, live, ranges, liveBytes, peakLiveBytes⟩)

-- A fresh block for an id that is not live.
def obtain (r : Replay ρ) (op id size : Nat) : Run (Except ReplayError Unit × Replay ρ) := do
  if size = 0 then return (.ok (), r)
  match ← r.allocate size with
  | (none, r) => return (.error (.outOfMemory op), r)
  | (some b, r) =>
    match r.claim op id b size with
    | (.error error, r) => return (.error error, r)
    | (.ok (), r) => return (.ok (), ← r.fill id b size)

-- Operation number `op`. To allocate for a live id drops the block it named.
def step (r : Replay ρ) (op : Nat) : Op → Run (Except ReplayError Unit × Replay ρ)
  | .alloc id size => do
    if r.live.contains id then
      match ← r.retire op id with
      | (.error error, r) => return (.error error, r)
      | (.ok (), r) => r.obtain op id size
    else r.obtain op id size
  | .free id => r.retire op id
  | .realloc id size =>
    match r.release id with
    | none => return (.error (.notLive op id), r)
    | some (live, r) => do
      if !(← r.intact id live.block live.size) then
        return (.error (.contentLost op id), r)
      match ← r.reallocate live.block size with
      | (none, r) =>
        if size = 0 then return (.ok (), r)
        return (.error (.outOfMemory op), r)
      | (some b, r) =>
        match r.claim op id b size with
        | (.error error, r) => return (.error error, r)
        | (.ok (), r) =>
          if !(← r.intact id b (min live.size size)) then
            return (.error (.contentLost op id), r)
          return (.ok (), ← r.fill id b size)

-- As `step`, with a check of the heap after it when that is asked for.
def checkedStep (r : Replay ρ) (checked : Bool) (op : Nat) (entry : Op) :
    Run (Except ReplayError Unit × Replay ρ) := do
  match ← r.step op entry with
  | (.error error, r) => return (.error error, r)
  | (.ok (), r) =>
    if !checked then return (.ok (), r)
    match ← r.allocator.check with
    | .ok () => return (.ok (), r)
    | .error corruption => return (.error (.corrupted op corruption), r)

-- The operations from number `op` on, up to the first that goes wrong; `log` holds the events so far.
def steps (checked : Bool) : (r : Replay ρ) → (op : Nat) → (log : Array Event) → List Op →
    Run (Except ReplayError Unit × Replay ρ)
  | r, _, log, [] => ⟨.ok (.ok (), r), log⟩
  | r, op, log, entry :: rest =>
    match r.checkedStep checked op entry with
    | ⟨.ok (.ok (), r), more⟩ => steps checked r (op + 1) (log ++ more) rest
    | ⟨result, more⟩ => ⟨result, log ++ more⟩

end Replay

-- Runs every operation against the allocator, which keeps what the trace leaves live.
def Trace.replay {ρ : Type} [Reserve ρ] (t : Trace) (allocator : Allocator ρ) (checked : Bool) :
    Run (Except ReplayError ReplayStats × Allocator ρ) := do
  match ← Replay.steps checked (.start allocator) 0 #[] t.ops with
  | (.error error, r) => return (.error error, r.allocator)
  | (.ok (), r) =>
    let stats : ReplayStats := ⟨t.ops.length, r.peakLiveBytes, r.allocator.heap.memory.size⟩
    Run.emit (.replayed stats)
    return (.ok stats, r.allocator)

end SegregatedFit
