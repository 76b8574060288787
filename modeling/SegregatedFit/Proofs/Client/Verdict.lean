import SegregatedFit.Proofs.Client.Consistency
import SegregatedFit.Proofs.Heap.Verdict

/-!
How far the verdict of the check reaches, on any content of the region and of the index. The tags and the
links tell it almost everything; what it does not see is an entry of the lists that is no block of the heap,
and a list of one entry that has no link.
-/

namespace SegregatedFit

namespace Heap

-- What the check accepts, and when the lists then hold the free blocks and the links no other ones.
theorem check_sound (h : Heap) (base : Nat) :
    (h.check base = .ok (.ok ()) ↔ ∃ bs, Approved h base bs) ∧
    ∀ bs, Approved h base bs →
      h.blocks = .ok bs ∧
      (∀ c, ∀ i ∈ bs, i.offset ∈ h.index.chain c → i.allocated = false ∧ SizeClass.ofSize i.size = c) ∧
      (∀ c xs b ys, h.index.chain c = xs ++ b :: ys →
        h.index.links[b]? = some ⟨xs.getLast?, ys.head?⟩ ∨ xs = [] ∧ ys = [] ∧ b ∉ h.index.links) ∧
      (h.listed.Perm ((bs.filter (!·.allocated)).map (·.offset)) ↔
        ∀ b ∈ h.listed, ∃ i ∈ bs, i.offset = b) ∧
      (h.listed.Perm h.index.links.keys ↔ ∀ c b, h.index.chain c = [b] → b ∈ h.index.links) := by
  refine ⟨check_eq_ok_iff, fun bs happroved => ⟨happroved.intact.blocks_eq, fun c i => happroved.filed,
    fun c xs b ys => (happroved.threads c).links_eq, ⟨fun hperm b hb => ?_, happroved.perm_free⟩,
    ⟨fun hperm c b hchain => ?_, happroved.perm_keys⟩⟩⟩
  · obtain ⟨i, hi, hoffset⟩ := List.mem_map.mp (hperm.mem_iff.mp hb)
    exact ⟨i, (List.mem_filter.mp hi).1, hoffset⟩
  · have hlisted : b ∈ h.listed := List.mem_flatMap.mpr ⟨c, List.mem_finRange c, by simp [hchain]⟩
    exact Std.TreeMap.mem_keys.mp (hperm.mem_iff.mp hlisted)

end Heap

namespace Client

theorem check_sound_arena : ∃ c : Client Arena, c.Reachable ∧ c.live = {32} ∧
    c.allocator.heap.check 4096 = .ok (.ok ()) ∧
    ∃ bs, Heap.Approved c.allocator.heap 4096 bs ∧ c.allocator.heap.blocks = .ok bs := by
  obtain ⟨c, hreachable, hlive, -, hsize, hbase⟩ := exists_reachable_arena
  have hcheck := (check_of_reachable hreachable (by rw [hsize]; decide) (by rw [hbase]; decide)).2
  rw [Allocator.result_check, hbase] at hcheck
  obtain ⟨hiff, hfacts⟩ := Heap.check_sound c.allocator.heap 4096
  obtain ⟨bs, happroved⟩ := hiff.mp hcheck
  exact ⟨c, hreachable, hlive, hcheck, bs, happroved, (hfacts bs happroved).1⟩

-- A word inside the payload of the live block 16 is made to look like a header. The block 24 that it
-- heads is put into the list of its class and taken out under another one, which empties the list of
-- the free block 64.
def phantom (h : Heap) : Except Fault Heap := do
  let memory ← h.memory.writeWord 20 24
  return ⟨memory, (h.index.insert 24 24).remove 24 16, h.prologue⟩

-- One block is free, another one is listed, and the free one is linked.
theorem check_blind_arena : ∃ (c : Client Arena) (h : Heap), c.Reachable ∧ c.live = {16} ∧
    phantom c.allocator.heap = .ok h ∧ h.check (Reserve.base c.allocator.reserve) = .ok (.ok ()) ∧
    h.blocks = .ok [⟨16, 48, true⟩, ⟨64, 16, false⟩] ∧ h.listed = [24] ∧ h.index.links.keys = [64] := by
  have hlaunch : (launch (.ofReserve (Arena.withLimit 65536 4096)) ⟨64, by decide, by decide, by decide⟩
      [.allocate 40]).any fun c => c.live = {16} && match phantom c.allocator.heap with
        | .error _ => false
        | .ok h => h.check (Reserve.base c.allocator.reserve) = .ok (.ok ()) ∧
          h.blocks = .ok [⟨16, 48, true⟩, ⟨64, 16, false⟩] ∧ h.listed = [24] ∧
          h.index.links.keys = [64] := by
    decide +kernel
  obtain ⟨c, hc, hholds⟩ := (Option.any_eq_true _ _).mp hlaunch
  obtain ⟨hlive, hdamaged⟩ := Bool.and_eq_true_iff.mp hholds
  split at hdamaged
  · cases hdamaged
  · rename_i h hphantom
    exact ⟨c, h, .of_launch rfl hc, of_decide_eq_true hlive, hphantom, of_decide_eq_true hdamaged⟩

end Client

end SegregatedFit
