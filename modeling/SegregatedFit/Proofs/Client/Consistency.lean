import SegregatedFit.Proofs.Client.Adjacency
import SegregatedFit.Proofs.Heap.Check

/-!
The consistency check of a heap in use. As long as one tag could span the whole heap, every two free
neighbours have been merged, and the check finds nothing to report.
-/

namespace SegregatedFit

-- In a heap that one tag could span, blocks are apart only when one of them is in use.
theorem Laid.used_of_apart {m : Memory} {p : Nat} {bs : List BlockInfo} (hlaid : Laid m p bs)
    (hapart : Apart bs) (hsize : m.size ≤ maxBlockSize) :
    bs.IsChain fun i j => i.allocated = true ∨ j.allocated = true := by
  rw [List.isChain_iff_forall_rel_of_append_cons_cons]
  rintro i j xs ys rfl
  by_contra hfree
  simp only [not_or, Bool.not_eq_true] at hfree
  obtain ⟨-, hbehind, -⟩ := List.isChain_append.mp hapart
  have hsettled := (List.isChain_cons_cons.mp hbehind).1 hfree.1 hfree.2
  obtain ⟨_, -, -, hj, -⟩ := tiles_append.mp hlaid.tiles
  have hbounds := hlaid.mem_bounds (i := j) (by simp)
  omega

theorem Allocator.result_check {ρ : Type} [Reserve ρ] (a : Allocator ρ) :
    a.check.result = a.heap.check (Reserve.base a.reserve) := by
  simp only [check, Run.result_bind, Run.result_lift]
  cases a.heap.check (Reserve.base a.reserve) with
  | error fault => rfl
  | ok verdict => cases verdict <;> rfl

namespace Client

variable {ρ : Type} [Reserve ρ] {c : Client ρ} {bs : List BlockInfo} {ls : Lists}

theorem Inv.check_eq (hinv : c.Inv bs ls) (hapart : SegregatedFit.Apart bs)
    (hbase : Reserve.base c.allocator.reserve % alignment = 0) :
    c.allocator.check.result = .ok (.ok ()) := by
  simp [Allocator.check, Heap.check_eq_ok hinv.sound hbase hapart]

-- Whatever clients have done, and however often the region has failed to grow.
theorem check_of_reachable (hreachable : c.Reachable)
    (hsize : c.allocator.heap.memory.size ≤ maxBlockSize)
    (hbase : Reserve.base c.allocator.reserve % alignment = 0) :
    (∃ bs, c.allocator.heap.blocks = .ok bs ∧
      bs.IsChain fun i j => i.allocated = true ∨ j.allocated = true) ∧
      c.allocator.check.result = .ok (.ok ()) := by
  obtain ⟨bs, ls, hinv, hapart⟩ := hreachable.exists_apart hsize
  exact ⟨⟨bs, Heap.blocks_eq hinv.sound.laid, hinv.sound.laid.used_of_apart hapart hsize⟩,
    hinv.check_eq hapart hbase⟩

theorem check_arena : ∃ c : Client Arena, c.Reachable ∧ c.live = {32} ∧
    c.allocator.check.result = .ok (.ok ()) := by
  obtain ⟨c, hreachable, hlive, -, hsize, hbase⟩ := exists_reachable_arena
  exact ⟨c, hreachable, hlive,
    (check_of_reachable hreachable (by rw [hsize]; decide) (by rw [hbase]; decide)).2⟩

end Client

end SegregatedFit
