import SegregatedFit.Proofs.Client.Safety
import SegregatedFit.Proofs.Trace.Shadow

/-!
The replay on a machine. It stops where the allocator does, and where its own sums and differences leave
the words. The operations are counted by the list that holds them, so the count is not in question.
-/

namespace SegregatedFit.Machine

variable {ρ : Type}

def holds (h : Heap) (b : Block) (count : Nat) (f : Nat → UInt8) : Option Bool := do
  let usable ← usableSize h.memory b
  let stop ← add b usable
  if usable < count ∨ h.memory.size < stop then none
  return h.memory.agrees b f count

theorem holds_of {h : Heap} {b count : Nat} {f : Nat → UInt8} {verdict : Bool} (hm : Spacious h.memory)
    (hholds : h.holds b count f = .ok verdict) : holds h b count f = some verdict := by
  obtain ⟨usable, husable, hverdict⟩ := bind_eq_ok_iff.mp hholds
  by_cases hout : usable < count ∨ h.memory.size < b + usable
  · rw [if_pos hout] at hverdict
    cases hverdict
  rw [if_neg hout] at hverdict
  have hsum : b + usable < wordLimit := hm.lt (by omega)
  obtain rfl := Except.ok.inj hverdict
  simp [holds, usableSize_of hm husable, add_eq_some hsum, if_neg hout]

namespace Replay

def release (r : Replay ρ) (id : Nat) : Option (Option (Live × Replay ρ)) :=
  match r.live[id]? with
  | none => some none
  | some live => do
    let liveBytes ← sub r.liveBytes live.size
    return some (live,
      { r with
        live := r.live.erase id
        ranges := r.ranges.erase live.block
        liveBytes })

-- The count of live bytes is the sum of the sizes, so that an id can be taken out of it.
theorem release_of {r : Replay ρ} {id b size : Nat} (hshadow : r.Shadow)
    (hlive : r.live[id]? = some ⟨b, size⟩) :
    release r id = some (some (⟨b, size⟩, r.without id ⟨b, size⟩)) := by
  have hsub : sub r.liveBytes size = some (r.liveBytes - size) := sub_eq_some (hshadow.size_le hlive)
  simp [release, hlive, hsub, Replay.without]

def enter (r : Replay ρ) (id : Nat) (b : Block) (size : Nat) : Option (Replay ρ) := do
  let stop ← add b size
  let liveBytes ← add r.liveBytes size
  return { r with
    ranges := r.ranges.insert b stop
    live := r.live.insert id ⟨b, size⟩
    liveBytes
    peakLiveBytes := max r.peakLiveBytes liveBytes }

theorem enter_of {r : Replay ρ} {id b size : Nat} (hstop : b + size < wordLimit)
    (hbytes : r.liveBytes + size < wordLimit) : enter r id b size = some (r.enter id b size) := by
  simp [enter, add_eq_some hstop, add_eq_some hbytes, SegregatedFit.Replay.enter]

def intact (r : Replay ρ) (id : Nat) (b : Block) (count : Nat) : Option Bool :=
  holds r.allocator.heap b count (Replay.pattern id)

theorem intact_of {r : Replay ρ} {id b count : Nat} {verdict : Bool}
    (hm : Spacious r.allocator.heap.memory) (h : r.intact id b count = .ok verdict) :
    intact r id b count = some verdict :=
  holds_of hm h

variable [Reserve ρ]

-- Makes a request of the allocator.
def serve (r : Replay ρ) (q : Request) : Option (Option Block × Replay ρ) := do
  let (answer, a) ← run r.allocator q
  return (answer, { r with allocator := a })

theorem serve_of {r : Replay ρ} {q : Request} {answer : Option Block} {a' : Allocator ρ}
    (h : run r.allocator q = some (answer, a')) : serve r q = some (answer, r.atop a') := by
  simp [serve, h, Replay.atop]

def fill (r : Replay ρ) (id : Nat) (b : Block) (size : Nat) : Option (Replay ρ) :=
  return (← serve r (.write b (tabulate size (Replay.pattern id)))).2

def retire (r : Replay ρ) (op id : Nat) : Option (Except ReplayError Unit × Replay ρ) := do
  match ← release r id with
  | none => return (.error (.notLive op id), r)
  | some (live, r) =>
    if ← intact r id live.block live.size then
      return (.ok (), (← serve r (.free (some live.block))).2)
    else
      return (.error (.contentLost op id), r)

def claim (r : Replay ρ) (op id : Nat) (b : Block) (size : Nat) :
    Option (Except ReplayError Unit × Replay ρ) := do
  let address ← add (Reserve.base r.allocator.reserve) b
  if address % alignment ≠ 0 then return (.error (.misaligned op id address), r)
  let stop ← add b size
  if Replay.overlaps r.ranges b stop then return (.error (.overlap op id), r)
  return (.ok (), ← enter r id b size)

def obtain (r : Replay ρ) (op id size : Nat) : Option (Except ReplayError Unit × Replay ρ) := do
  if size = 0 then return (.ok (), r)
  match ← serve r (.allocate size) with
  | (none, r) => return (.error (.outOfMemory op), r)
  | (some b, r) =>
    match ← claim r op id b size with
    | (.error error, r) => return (.error error, r)
    | (.ok (), r) => return (.ok (), ← fill r id b size)

def step (r : Replay ρ) (op : Nat) : Op → Option (Except ReplayError Unit × Replay ρ)
  | .alloc id size => do
    if r.live.contains id then
      match ← retire r op id with
      | (.error error, r) => return (.error error, r)
      | (.ok (), r) => obtain r op id size
    else obtain r op id size
  | .free id => retire r op id
  | .realloc id size => do
    match ← release r id with
    | none => return (.error (.notLive op id), r)
    | some (live, r) =>
      if !(← intact r id live.block live.size) then
        return (.error (.contentLost op id), r)
      match ← serve r (.reallocate (some live.block) size) with
      | (none, r) =>
        if size = 0 then return (.ok (), r)
        return (.error (.outOfMemory op), r)
      | (some b, r) =>
        match ← claim r op id b size with
        | (.error error, r) => return (.error error, r)
        | (.ok (), r) =>
          if !(← intact r id b (min live.size size)) then
            return (.error (.contentLost op id), r)
          return (.ok (), ← fill r id b size)

def checkedStep (r : Replay ρ) (checked : Bool) (op : Nat) (entry : Op) :
    Option (Except ReplayError Unit × Replay ρ) := do
  match ← step r op entry with
  | (.error error, r) => return (.error error, r)
  | (.ok (), r) =>
    if !checked then return (.ok (), r)
    match ← check r.allocator.heap (Reserve.base r.allocator.reserve) with
    | .ok () => return (.ok (), r)
    | .error corruption => return (.error (.corrupted op corruption), r)

def steps (checked : Bool) (r : Replay ρ) (op : Nat) :
    List Op → Option (Except ReplayError Unit × Replay ρ)
  | [] => some (.ok (), r)
  | entry :: rest => do
    match ← checkedStep r checked op entry with
    | (.ok (), r) => steps checked r (op + 1) rest
    | (.error error, r) => return (.error error, r)

end Replay

def replay [Reserve ρ] (t : Trace) (a : Allocator ρ) (checked : Bool) :
    Option (Except ReplayError ReplayStats × Allocator ρ) := do
  match ← Replay.steps checked (.start a) 0 t.ops with
  | (.error error, r) => return (.error error, r.allocator)
  | (.ok (), r) =>
    return (.ok ⟨t.ops.length, r.peakLiveBytes, r.allocator.heap.memory.size⟩, r.allocator)

end SegregatedFit.Machine
