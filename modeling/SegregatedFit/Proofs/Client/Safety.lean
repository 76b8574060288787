import SegregatedFit.Proofs.Client.Consistency
import SegregatedFit.Proofs.Machine.Allocator
import SegregatedFit.Proofs.Machine.Check

/-!
Requests on a machine. As long as the region ends before the middle of the address range, nothing that a
client does makes a machine stop: it computes what the allocator answers.
-/

namespace SegregatedFit

namespace Client

variable {ρ : Type} {c : Client ρ} {bs : List BlockInfo} {ls : Lists} {r : Request}

theorem Inv.free_eq (hinv : c.Inv bs ls) (hm : Machine.Spacious c.allocator.heap.memory)
    {block : Option Block} (hlive : ∀ b ∈ block, b ∈ c.live) {a' : Allocator ρ}
    (h : (c.allocator.free block).result = .ok a') : Machine.free c.allocator block = some a' := by
  cases block with
  | none => exact congrArg some (Except.ok.inj h)
  | some b =>
      obtain ⟨z, rfl, hblocks, hlists⟩ := hinv.exists_site (hlive b rfl)
      have hsound := hinv.sound
      rw [← hblocks, ← hlists] at hsound
      exact Machine.free_of hm hsound h

variable [Reserve ρ]

-- A machine computes the answer to an admissible request.
theorem Inv.run_eq (hinv : c.Inv bs ls) (hadmits : c.Admits r)
    (hsize : c.allocator.heap.memory.size < 9223372036854775808) {out : Option Block × Allocator ρ}
    (h : (r.run c.allocator).result = .ok out) : Machine.run c.allocator r = some out := by
  have hm : Machine.Spacious c.allocator.heap.memory := .of_lt (by omega)
  obtain ⟨htarget, -⟩ := hadmits
  cases r with
  | allocate size => exact (Machine.allocate_of hinv.sound hsize h).1
  | free block =>
      simp only [Request.run, Run.result_bind] at h
      obtain ⟨a', hfree, h⟩ := bind_eq_ok_iff.mp h
      obtain rfl := Except.ok.inj h
      have hstep : Machine.free c.allocator block = some a' := hinv.free_eq hm htarget hfree
      simp [Machine.run, hstep]
  | reallocate block size =>
      cases block with
      | none => exact (Machine.allocate_of hinv.sound hsize h).1
      | some b =>
          unfold Request.run Allocator.reallocate at h
          unfold Machine.run Machine.reallocate
          dsimp only at h ⊢
          by_cases hzero : size = 0
          · rw [if_pos hzero] at h ⊢
            simp only [Run.result_bind] at h
            obtain ⟨a', hfree, h⟩ := bind_eq_ok_iff.mp h
            obtain rfl := Except.ok.inj h
            have hstep : Machine.free c.allocator (some b) = some a' := hinv.free_eq hm htarget hfree
            simp [hstep]
          rw [if_neg hzero] at h ⊢
          rw [Machine.blockSizeFor_eq]
          cases hneed : blockSizeFor size with
          | none =>
              rw [hneed] at h
              obtain rfl := Except.ok.inj h
              rfl
          | some need =>
              obtain ⟨total, hmem⟩ := (hinv.live b).mp (htarget b rfl)
              obtain ⟨xs, ys, rfl⟩ := List.append_of_mem hmem
              rw [hneed] at h
              exact Machine.resize_of hinv.sound hneed hsize h
  | write b content =>
      simp only [Request.run, Run.result_bind] at h
      obtain ⟨a', hupdate, h⟩ := bind_eq_ok_iff.mp h
      obtain ⟨h', hfill, rfl⟩ := Allocator.update_eq_ok_iff.mp hupdate
      obtain rfl := Except.ok.inj h
      have hfilled := Machine.update_eq_some (Machine.fill · b content) (Machine.fill_of hm hfill)
      simp [Machine.run, hfilled]

omit [Reserve ρ] in
-- The counts are bounded by the length of the region.
theorem Inv.stats_eq (hinv : c.Inv bs ls) (hm : Machine.Spacious c.allocator.heap.memory) :
    ∃ stats, c.allocator.heap.stats = .ok stats ∧ Machine.stats c.allocator.heap = some stats := by
  have hlaid := hinv.sound.laid
  have hblocks := Heap.blocks_eq hlaid
  have hsum := hlaid.tiles.sum_eq
  have hlength := hlaid.tiles.length_le hlaid.proper
  refine ⟨_, by rw [Heap.stats, hblocks]; rfl, ?_⟩
  rw [Machine.stats, Machine.blocks_of hm hblocks]
  refine Machine.count_foldlM (.ofSize c.allocator.heap.memory.size) ?_ ?_
  · exact hm.lt (by simp only [HeapStats.ofSize]; omega)
  · exact hm.lt (by simp only [HeapStats.ofSize]; omega)

omit [Reserve ρ] in
theorem Inv.seeded (hinv : c.Inv bs ls) :
    Heap.Seeded c.allocator.heap.memory c.allocator.heap.prologue :=
  ⟨Nat.le_trans (by decide) hinv.sound.laid.pad, hinv.sound.laid.tiles.le⟩

-- Whatever clients have done, what they may ask next is answered without leaving the region or the
-- numbers of the machine, and so are the walks and the check.
theorem machine_of_reachable (hreachable : c.Reachable)
    (hsize : c.allocator.heap.memory.size < 9223372036854775808)
    (hbase : Reserve.base c.allocator.reserve + c.allocator.heap.memory.size < 18446744073709551616) :
    (∀ r, c.Admits r → ∃ out, (r.run c.allocator).result = .ok out ∧
      Machine.run c.allocator r = some out) ∧
    (∀ b ∈ c.live, ∃ usable content, c.allocator.usableSize b = .ok usable ∧
      Machine.usableSize c.allocator.heap.memory b = some usable ∧
      c.allocator.payload b = .ok content ∧ Machine.payload c.allocator.heap b = some content) ∧
    (∃ bs, c.allocator.heap.blocks = .ok bs ∧ Machine.blocks c.allocator.heap = some bs) ∧
    (∃ stats, c.allocator.heap.stats = .ok stats ∧ Machine.stats c.allocator.heap = some stats) ∧
    ∃ verdict, c.allocator.check.result = .ok verdict ∧
      Machine.check c.allocator.heap (Reserve.base c.allocator.reserve) = some verdict := by
  obtain ⟨bs, ls, hinv⟩ := hreachable.exists_inv
  have hm : Machine.Spacious c.allocator.heap.memory := .of_lt (by omega)
  refine ⟨?_, ?_, ⟨bs, Heap.blocks_eq hinv.sound.laid, ?_⟩, hinv.stats_eq hm, ?_⟩
  · intro r hadmits
    obtain ⟨answer, h', reserve, bs', ls', hrun, -⟩ := hinv.exists_change hadmits
    exact ⟨_, hrun, hinv.run_eq hadmits hsize hrun⟩
  · intro b hb
    obtain ⟨size, hmem⟩ := (hinv.live b).mp hb
    have husable := hinv.sound.laid.usableSize_eq hmem
    obtain ⟨content, hcontent, -⟩ := Heap.payload_spec hinv.sound hmem
    exact ⟨_, content, husable, Machine.usableSize_of hm husable, hcontent,
      Machine.payload_of hm hcontent⟩
  · exact Machine.blocks_of hm (Heap.blocks_eq hinv.sound.laid)
  · obtain ⟨verdict, hcheck⟩ := Heap.exists_check c.allocator.heap.index
      (Reserve.base c.allocator.reserve) hinv.seeded
    exact ⟨verdict, (Allocator.result_check ..).trans hcheck, Machine.check_of hinv.seeded hm hbase hcheck⟩

theorem machine_arena : ∃ c : Client Arena, c.Reachable ∧ c.live = {32} ∧
    (∃ out, Machine.run c.allocator (.allocate 18446744073709551615) = some out) ∧
    ∃ content, Machine.payload c.allocator.heap 32 = some content := by
  obtain ⟨c, hreachable, hlive, -, hsize, hbase⟩ := exists_reachable_arena
  obtain ⟨hrun, hpayload, -⟩ := machine_of_reachable hreachable (by rw [hsize]; decide)
    (by rw [hsize, hbase]; decide)
  obtain ⟨out, -, hanswer⟩ := hrun (.allocate 18446744073709551615) ⟨by simp [Request.target], trivial⟩
  obtain ⟨usable, content, -, -, -, hcontent⟩ := hpayload 32 (by simp [hlive])
  exact ⟨c, hreachable, hlive, ⟨out, hanswer⟩, content, hcontent⟩

end Client

end SegregatedFit
