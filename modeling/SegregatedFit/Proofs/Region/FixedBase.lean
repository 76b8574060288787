import SegregatedFit.Proofs.Client.Plan
import SegregatedFit.Region.Arena
import SegregatedFit.Region.ProcessBreak
import SegregatedFit.Region.Scheduled

/-!
Regions that stay where they are. What a reserve keeps from one request to the next, the allocator keeps
as well, since it changes the reserve in no other way than by asking it; in particular the address of the
first byte.
-/

namespace SegregatedFit

-- No request moves the region.
class FixedBase (ρ : Type) [Reserve ρ] : Prop where
  base_request (r : ρ) (len delta : Nat) :
    Reserve.base (Reserve.request r len delta).reserve = Reserve.base r

instance : FixedBase Arena where
  base_request a len delta := by
    simp only [Reserve.request, Arena.request]
    split
    · rfl
    · split <;> rfl

instance : FixedBase BreakReserve where
  base_request r len delta := by
    simp only [Reserve.request, BreakReserve.request]
    split
    · rfl
    · split
      · rfl
      · split <;> rfl

instance {ρ : Type} [Reserve ρ] : FixedBase (Scheduled ρ) where
  base_request r len delta := by
    simp only [Reserve.request, Scheduled.request]
    split <;> rfl

-- The address of the region's first byte stays what it is.
theorem Request.run_base {ρ : Type} [Reserve ρ] [FixedBase ρ] {a a' : Allocator ρ} {r : Request}
    {answer : Option Block} (hrun : (r.run a).result = .ok (answer, a')) :
    Reserve.base a'.reserve = Reserve.base a.reserve := by
  rw [r.result_run] at hrun
  obtain hsame | ⟨delta, hasked⟩ := Plan.reserve_of_run hrun
  · rw [hsame]
  · rw [hasked]
    exact FixedBase.base_request a.reserve a.heap.memory.size delta

end SegregatedFit
