import SegregatedFit.Proofs.Size
import SegregatedFit.Region.DataSegment
import Mathlib.Order.Interval.Finset.Nat

/-!
One call on a heap that grows by moving a process break: what opening the heap and extending it do to the
break, to the heap and to the other heaps on the same break.
-/

namespace SegregatedFit

namespace ProcessBreak

variable {p moved : ProcessBreak} {delta found : Nat}

theorem advance_spec (h : p.advance delta = .ok (found, moved)) :
    found = p.current ∧ moved.current = p.current + delta := by
  unfold advance at h
  split at h
  · cases h
  split at h
  · cases h
  · obtain ⟨rfl, rfl⟩ := Prod.mk.inj (Except.ok.inj h)
    exact ⟨rfl, rfl⟩

theorem advance_error {cause : GrowError} (h : p.advance delta = .error cause) (expected found : Nat) :
    cause ≠ .discontiguous expected found := by
  unfold advance at h
  split at h
  · exact Except.error.inj h ▸ nofun
  split at h
  · exact Except.error.inj h ▸ nofun
  · cases h

theorem current_le_moveAway (p : ProcessBreak) (delta : Nat) :
    p.current ≤ (p.moveAway delta).current := by
  unfold moveAway
  split
  next hadvance =>
    obtain ⟨-, hmoved⟩ := advance_spec hadvance
    omega
  · exact Nat.le_refl _

end ProcessBreak

namespace BreakReserve

-- A heap is opened at an aligned address that the break has reached, when what was read of the break did
-- not exceed it. When it cannot be opened, the break may have moved all the same.
theorem openAt_spec (p : ProcessBreak) (seen : Nat) :
    p.current ≤ (openAt p seen).2.current ∧
      ∀ start, (openAt p seen).1 = .ok start →
        start % alignment = 0 ∧ (seen ≤ p.current → start ≤ (openAt p seen).2.current) := by
  obtain ⟨haligned, hle, -⟩ := alignUp_spec seen
  have hsum : seen + (alignUp seen - seen) = alignUp seen := by omega
  simp only [openAt, hsum]
  split
  next hpad =>
    have hsame : alignUp seen = seen := by omega
    refine ⟨Nat.le_refl _, fun start hstart => ?_⟩
    obtain rfl := Except.ok.inj hstart
    exact ⟨hsame ▸ haligned, id⟩
  next hpad =>
    split
    next => exact ⟨Nat.le_refl _, fun _ hstart => nomatch hstart⟩
    next found moved hadvance =>
      obtain ⟨rfl, hmoved⟩ := ProcessBreak.advance_spec hadvance
      have hup : p.current ≤ moved.current := by omega
      split
      next => exact ⟨hup, fun _ hstart => nomatch hstart⟩
      next hfound =>
        refine ⟨hup, fun start hstart => ?_⟩
        obtain rfl := Except.ok.inj hstart
        refine ⟨haligned, fun _ => ?_⟩
        show alignUp seen ≤ moved.current
        omega

-- Bytes are handed out at the break only, and to the heap that ends there.
theorem request_spec (r : BreakReserve) (len delta : Nat) :
    (request r len delta).reserve.start = r.start ∧
      r.segment.current ≤ (request r len delta).reserve.segment.current ∧
      match (request r len delta).fresh with
      | .ok _ => r.start + len = r.segment.current ∧
          (request r len delta).reserve.segment.current = r.segment.current + delta
      | .error cause => ∀ expected found, cause = .discontiguous expected found →
          r.start + len ≠ r.segment.current := by
  unfold request
  split
  next => exact ⟨rfl, Nat.le_refl _, fun _ _ h => nomatch h⟩
  next =>
    cases hadvance : r.segment.advance delta with
    | error cause =>
        refine ⟨rfl, Nat.le_refl _, fun expected found hcause => ?_⟩
        exact absurd hcause (ProcessBreak.advance_error hadvance expected found)
    | ok step =>
        obtain ⟨hfound, hmoved⟩ := ProcessBreak.advance_spec hadvance
        have hup : r.segment.current ≤ step.2.current := by omega
        dsimp only
        split
        next hne => exact ⟨rfl, hup, fun _ _ _ heq => hne (hfound.trans heq.symm)⟩
        next heq =>
          have hstop : step.1 = r.start + len := not_not.mp heq
          exact ⟨rfl, hup, hstop.symm.trans hfound, hmoved⟩

end BreakReserve

namespace BreakHeap

-- The address behind the last byte.
def stop (heap : BreakHeap) : Nat := heap.start + heap.memory.size

-- The addresses of the heap's bytes.
def range (heap : BreakHeap) : Finset Nat := Finset.Ico heap.start heap.stop

theorem mem_range {heap : BreakHeap} {x : Nat} : x ∈ heap.range ↔ heap.start ≤ x ∧ x < heap.stop :=
  Finset.mem_Ico

theorem stop_append (heap : BreakHeap) (fresh : ByteArray) :
    stop ⟨heap.start, heap.memory.append fresh⟩ = heap.stop + fresh.size := by
  simp only [stop, Memory.size, Memory.append, ByteArray.size_append, Nat.add_assoc]

end BreakHeap

namespace DataSegment

variable {d d' : DataSegment} {heap : BreakHeap} {number delta : Nat} {answer : Except GrowError Nat}

theorem heaps_insert (d : DataSegment) (number : Nat) (heap : BreakHeap) (other : Nat) :
    (d.heaps.insert number heap)[other]? = if other = number then some heap else d.heaps[other]? := by
  simp only [Std.TreeMap.getElem?_insert, compare_eq_iff_eq, eq_comm (a := number)]

theorem heaps_insert_of_ne (d : DataSegment) (heap : BreakHeap) {other : Nat} (hne : other ≠ number) :
    (d.heaps.insert number heap)[other]? = d.heaps[other]? :=
  (d.heaps_insert number heap other).trans (if_neg hne)

-- Extending heap `number` gives the answer and leaves the data segment as `d'`, without a fault.
def Extends (d : DataSegment) (number delta : Nat) (answer : Except GrowError Nat)
    (d' : DataSegment) : Prop :=
  (d.extend number delta).map Run.result = some (.ok (answer, d'))

-- What comes of extending a heap.
inductive Extended (d : DataSegment) (number : Nat) (heap : BreakHeap) (delta : Nat) :
    Except GrowError Nat → DataSegment → Prop
  | refused {cause : GrowError} {limit : ProcessBreak} (hup : d.limit.current ≤ limit.current)
      (hcause : ∀ expected found, cause = .discontiguous expected found →
        heap.stop ≠ d.limit.current) :
      Extended d number heap delta (.error cause) ⟨limit, d.heaps.insert number heap⟩
  | grown {fresh : ByteArray} {limit : ProcessBreak} (hfresh : fresh.size = delta)
      (hstop : heap.stop = d.limit.current) (hlimit : limit.current = d.limit.current + delta) :
      Extended d number heap delta (.ok heap.memory.size)
        ⟨limit, d.heaps.insert number ⟨heap.start, heap.memory.append fresh⟩⟩

-- An opened heap is empty; otherwise only the break moves.
theorem openAt_cases (d : DataSegment) (seen number : Nat) :
    ∃ limit : ProcessBreak, d.limit.current ≤ limit.current ∧
      ((d.openAt seen number).2 = ⟨limit, d.heaps⟩ ∨
        ∃ start, (d.openAt seen number).2 = ⟨limit, d.heaps.insert number ⟨start, .empty⟩⟩ ∧
          start % alignment = 0 ∧ (seen ≤ d.limit.current → start ≤ limit.current)) := by
  have hspec := BreakReserve.openAt_spec d.limit seen
  unfold openAt
  rcases hopen : BreakReserve.openAt d.limit seen with ⟨cause | start, limit⟩
  · rw [hopen] at hspec
    exact ⟨limit, hspec.1, .inl rfl⟩
  · rw [hopen] at hspec
    exact ⟨limit, hspec.1, .inr ⟨start, rfl, hspec.2 start rfl⟩⟩

theorem extend_spec (hheap : d.heaps[number]? = some heap) (delta : Nat) :
    ∃ answer d', d.Extends number delta answer d' ∧ Extended d number heap delta answer d' := by
  have hregion : d.region? number = some ⟨heap.memory, heap.start, d.limit⟩ := by
    rw [region?, hheap]
    rfl
  have hspec := BreakReserve.request_spec ⟨heap.start, d.limit⟩ heap.memory.size delta
  simp only [Extends, extend, hregion, Option.map_some, Run.result_bind, Region.extend, Reserve.request]
  rcases hanswer : BreakReserve.request ⟨heap.start, d.limit⟩ heap.memory.size delta with
    ⟨cause | ⟨fresh, hfresh⟩, ⟨start, limit⟩, log⟩
  · rw [hanswer] at hspec
    obtain ⟨rfl, hup, hcause⟩ := hspec
    exact ⟨_, _, rfl, .refused hup hcause⟩
  · rw [hanswer] at hspec
    obtain ⟨rfl, -, hstop, hlimit⟩ := hspec
    exact ⟨_, _, rfl, .grown hfresh hstop hlimit⟩

theorem Extends.extended (h : d.Extends number delta answer d') :
    ∃ heap, d.heaps[number]? = some heap ∧ Extended d number heap delta answer d' := by
  cases hheap : d.heaps[number]? with
  | none =>
      simp [Extends, extend, region?, hheap] at h
  | some heap =>
      obtain ⟨answer', d₁, hextends, hextended⟩ := extend_spec hheap delta
      obtain ⟨rfl, rfl⟩ := Prod.mk.inj (Except.ok.inj (Option.some.inj (h.symm.trans hextends)))
      exact ⟨heap, rfl, hextended⟩

theorem Extends.memory_of_ok {offset : Nat} (h : d.Extends number delta (.ok offset) d')
    (hheap : d.heaps[number]? = some heap) : offset = heap.memory.size ∧ ∃ fresh : ByteArray,
      fresh.size = delta ∧ d'.heaps[number]? = some ⟨heap.start, heap.memory.append fresh⟩ := by
  obtain ⟨heap', hheap', hextended⟩ := h.extended
  obtain rfl := Option.some.inj (hheap.symm.trans hheap')
  cases hextended with
  | @grown fresh _ hfresh => exact ⟨rfl, fresh, hfresh, Std.TreeMap.getElem?_insert_self⟩

theorem Extends.memory_of_error {cause : GrowError} (h : d.Extends number delta (.error cause) d')
    (hheap : d.heaps[number]? = some heap) : d'.heaps[number]? = some heap := by
  obtain ⟨heap', hheap', hextended⟩ := h.extended
  obtain rfl := Option.some.inj (hheap.symm.trans hheap')
  cases hextended with
  | refused => exact Std.TreeMap.getElem?_insert_self

theorem Extends.others (h : d.Extends number delta answer d') {other : Nat} (hne : other ≠ number) :
    d'.heaps[other]? = d.heaps[other]? := by
  obtain ⟨heap, -, hextended⟩ := h.extended
  cases hextended <;> exact d.heaps_insert_of_ne _ hne

end DataSegment

end SegregatedFit
