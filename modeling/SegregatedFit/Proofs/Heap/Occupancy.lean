import SegregatedFit.Proofs.Heap.Intact
import SegregatedFit.Proofs.Machine.Check
import Mathlib.Algebra.BigOperators.Group.List.Basic

/-!
The occupancy of a heap, and what the check of the blocks says about it: it accepts the intact heaps and no
others, it counts their free blocks, and there the blocks and the occupancy can be asked for.
-/

namespace SegregatedFit

variable {bs : List BlockInfo} {h : Heap} {base n : Nat}

namespace HeapStats

-- The occupancy of a heap of `heapBytes` bytes that consists of the blocks `bs`.
def ofBlocks (heapBytes : Nat) (bs : List BlockInfo) : HeapStats where
  heapBytes
  allocatedBlocks := bs.countP (·.allocated)
  allocatedBytes := ((bs.filter (·.allocated)).map (·.size)).sum
  freeBlocks := bs.countP (!·.allocated)
  freeBytes := ((bs.filter (!·.allocated)).map (·.size)).sum

theorem foldl_count (s : HeapStats) (bs : List BlockInfo) : bs.foldl count s =
    ⟨s.heapBytes, s.allocatedBlocks + (ofBlocks 0 bs).allocatedBlocks,
      s.allocatedBytes + (ofBlocks 0 bs).allocatedBytes, s.freeBlocks + (ofBlocks 0 bs).freeBlocks,
      s.freeBytes + (ofBlocks 0 bs).freeBytes⟩ := by
  induction bs generalizing s with
  | nil => rfl
  | cons i bs ih =>
      rw [List.foldl_cons, ih]
      cases hused : i.allocated <;> simp [count, ofBlocks, hused, Nat.add_assoc, Nat.add_comm, Nat.add_left_comm]

theorem foldl_count_ofSize (heapBytes : Nat) (bs : List BlockInfo) :
    bs.foldl count (.ofSize heapBytes) = .ofBlocks heapBytes bs := by
  rw [foldl_count]
  simp [ofSize, ofBlocks]

-- Each byte of a block counts once.
theorem bytes_ofBlocks (heapBytes : Nat) (bs : List BlockInfo) :
    (ofBlocks heapBytes bs).allocatedBytes + (ofBlocks heapBytes bs).freeBytes = (bs.map (·.size)).sum := by
  simpa [ofBlocks] using List.sum_map_filter_add_sum_map_filter_not (·.allocated = true) (·.size) bs

end HeapStats

namespace Heap

theorem stats_of_blocks (hblocks : h.blocks = .ok bs) : h.stats = .ok (.ofBlocks h.memory.size bs) := by
  rw [stats, hblocks, ok_bind, HeapStats.foldl_count_ofSize]
  rfl

-- The blocks take up what the prologue leaves.
theorem Intact.bytes_eq (hintact : h.Intact base bs) : (bs.map (·.size)).sum =
    h.memory.size - (h.prologue + 8) := by
  have hsum := hintact.filled.tiles.sum_eq
  omega

theorem Intact.length_le (hintact : h.Intact base bs) : bs.length ≤ h.memory.size := by
  have hlength := hintact.filled.tiles.length_le fun i hi => (hintact.bounded hi).proper
  omega

end Heap

namespace Machine

-- The occupancy of an intact heap on a machine.
theorem stats_of (hintact : h.Intact base bs) (hsize : h.memory.size < 9223372036854775808) :
    blocks h = some bs ∧ stats h = some (.ofBlocks h.memory.size bs) := by
  have hblocks := blocks_of (.of_lt (by omega)) hintact.blocks_eq
  have hlength := hintact.length_le
  have hbytes := hintact.bytes_eq
  have hcount : bs.foldlM count (.ofSize h.memory.size) =
      some (bs.foldl HeapStats.count (.ofSize h.memory.size)) := by
    refine count_foldlM (.ofSize h.memory.size) ?_ ?_ <;> simp only [HeapStats.ofSize, wordLimit] <;> omega
  exact ⟨hblocks, by rw [stats, hblocks, Option.bind_eq_bind, Option.bind_some, hcount,
    HeapStats.foldl_count_ofSize]⟩

end Machine

namespace Heap

theorem checkBlocks_exact (h : Heap) (base n : Nat) :
    (h.checkBlocks base = .ok (.ok n) ↔ ∃ bs, h.Intact base bs ∧ bs.countP (!·.allocated) = n) ∧
    (h.checkBlocks base = .ok (.ok n) → ∃ bs, h.Intact base bs ∧ h.blocks = .ok bs ∧
      ∃ s : HeapStats, h.stats = .ok s ∧ s = .ofBlocks h.memory.size bs ∧ s.freeBlocks = n ∧
        s.allocatedBytes + s.freeBytes = h.memory.size - (h.prologue + 8) ∧
        (h.memory.size < 9223372036854775808 → Machine.blocks h = some bs ∧ Machine.stats h = some s ∧
          (base + h.memory.size < 18446744073709551616 → Machine.checkBlocks h base = some (.ok n)))) := by
  refine ⟨checkBlocks_eq_ok_iff, fun hcheck => ?_⟩
  obtain ⟨bs, hintact, rfl⟩ := checkBlocks_eq_ok_iff.mp hcheck
  refine ⟨bs, hintact, hintact.blocks_eq, _, stats_of_blocks hintact.blocks_eq, rfl, rfl, ?_, fun hsize => ?_⟩
  · rw [HeapStats.bytes_ofBlocks, hintact.bytes_eq]
  · obtain ⟨hblocks, hstats⟩ := Machine.stats_of hintact hsize
    exact ⟨hblocks, hstats, fun hbase =>
      Machine.checkBlocks_of hintact.seeded (.of_lt (by omega)) hbase hcheck⟩

-- One free block between the sentinels.
theorem checkBlocks_exact_annexed : ∃ h : Heap, (seed (.zeroed 32) 0 >>= (·.annex 16 16)) = .ok h ∧
    h.checkBlocks 4096 = .ok (.ok 1) ∧ ∃ bs, h.Intact 4096 bs ∧ h.blocks = .ok bs := by
  have hcheck : ((seed (.zeroed 32) 0 >>= (·.annex 16 16)).toOption).any
      (·.checkBlocks 4096 = .ok (.ok 1)) = true := by
    decide +kernel
  rcases hseed : seed (.zeroed 32) 0 >>= (·.annex 16 16) with fault | h <;> rw [hseed] at hcheck
  · cases hcheck
  · have hcheck := of_decide_eq_true hcheck
    obtain ⟨bs, hintact, hblocks, -⟩ := (checkBlocks_exact h 4096 1).2 hcheck
    exact ⟨h, rfl, hcheck, bs, hintact, hblocks⟩

end Heap

end SegregatedFit
