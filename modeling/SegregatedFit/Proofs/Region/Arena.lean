import SegregatedFit.Region.Arena
import SegregatedFit.Proofs.Allocator.Supply

/-!
Allocators over arenas. An arena refuses only what exceeds its reservation, so a request fails for no
other reason than its size or the reservation's.
-/

namespace SegregatedFit

namespace Arena

variable {a : Arena} {len delta : Nat}

theorem reserve_request (a : Arena) (len delta : Nat) : (Reserve.request a len delta).reserve = a := by
  simp only [Reserve.request, request]
  split
  · rfl
  · split <;> rfl

-- Bytes that the reservation still has are handed out.
theorem fresh_request (haligned : delta % 8 = 0) (hroom : len + delta ≤ a.limit) {cause : GrowError} :
    (Reserve.request a len delta).fresh ≠ .error cause := by
  have hunits : ¬delta % alignment ≠ 0 := fun h => h haligned
  have hfits : ¬a.limit - len < delta := by omega
  simp only [Reserve.request, request, if_neg hunits, if_neg hfits]
  exact fun h => nomatch h

end Arena

namespace Allocator

variable {a : Allocator Arena} {bs : List BlockInfo} {ls : Lists} {size need : Nat}

theorem init_of_room (region : Region Arena) (chunk : ChunkSize) (haligned : region.memory.size % 8 = 0)
    (hroom : region.memory.size + 16 + chunk.val ≤ region.reserve.limit) :
    ∃ h, (init region chunk).result = .ok (.ok ⟨h, region.reserve, chunk⟩) ∧
      h.Sound [⟨region.memory.size + 16, chunk.val, false⟩]
        (Lists.empty.insert (region.memory.size + 16) chunk.val) := by
  rcases init_spec region chunk haligned with
    ⟨cause, -, hseeded | hgrown⟩ | ⟨h, hinit, -, hsound⟩
  · exact absurd hseeded (Arena.fresh_request rfl (by omega))
  · rw [Arena.reserve_request] at hgrown
    exact absurd hgrown (Arena.fresh_request chunk.aligned hroom)
  · rw [Arena.reserve_request, Arena.reserve_request] at hinit
    exact ⟨h, hinit, hsound⟩

-- A request is served when a free block or the rest of the reservation is large enough.
theorem allocate_of_room (hsound : a.heap.Sound bs ls) (hsize : 0 < size)
    (hneed : blockSizeFor size = some need)
    (hroom : (∃ i ∈ bs, i.allocated = false ∧ need ≤ i.size) ∨
      a.heap.memory.size + max need a.chunk.val ≤ a.reserve.limit) :
    ∃ b h' bs' ls', (a.allocate size).result = .ok (some b, ⟨h', a.reserve, a.chunk⟩) ∧
      Allotment a.heap a.chunk.val bs ls size b h' bs' ls' := by
  rcases allocate_spec hsound size with
    ⟨reserve, -, hrefusal⟩ | ⟨b, h', reserve, bs', ls', hallocate, hallot, hreserve⟩
  · cases hrefusal with
    | empty hzero => omega
    | tooLarge hnone => cases hneed.symm.trans hnone
    | exhausted hneed' hfind hfresh =>
        obtain rfl := Option.some.inj (hneed.symm.trans hneed')
        rcases hroom with ⟨i, hi, hfree, hfits⟩ | hroom
        · rcases Heap.findFit_spec hsound need with ⟨b, total, hfound, -⟩ | ⟨-, hsmall⟩
          · cases hfind.symm.trans hfound
          · exact absurd hfits (Nat.not_le_of_lt (hsmall i hi hfree))
        · have haligned := a.chunk.aligned
          have hbounds := (blockSizeFor_spec hneed).1
          simp only [alignment] at haligned
          exact absurd hfresh (Arena.fresh_request (by omega) hroom)
  · have hsame : reserve = a.reserve := by
      rcases hreserve with rfl | ⟨delta, rfl⟩
      · rfl
      · exact Arena.reserve_request _ _ _
    exact ⟨b, h', bs', ls', hsame ▸ hallocate, hallot⟩

end Allocator

end SegregatedFit
