import SegregatedFit.Proofs.Machine.Check
import SegregatedFit.Proofs.Machine.Allocator
import SegregatedFit.Region.Arena

/-!
The check of an allocator whose region or index has been damaged. Once an allocator has been set up, its
sentinels have a place inside the region, and no damage takes it away; so the check always answers.
-/

namespace SegregatedFit.Allocator

variable {ρ : Type} {a a' : Allocator ρ} {h h' : Heap} {region : Region ρ} {chunk : ChunkSize}

theorem seed_kept {m : Memory} {start : Nat} (hseed : Heap.seed m start = .ok h) :
    h.memory.size = m.size ∧ h.prologue = start + 8 := by
  obtain ⟨m₁, hpad, hseed⟩ := bind_eq_ok_iff.mp hseed
  obtain ⟨m₂, hwrite, hseed⟩ := bind_eq_ok_iff.mp hseed
  obtain ⟨first, -, hseed⟩ := bind_eq_ok_iff.mp hseed
  obtain ⟨m₃, hepilogue, hseed⟩ := bind_eq_ok_iff.mp hseed
  obtain rfl := Except.ok.inj hseed
  have h₁ := Memory.size_of_writeWord hpad
  have h₂ := Machine.size_of_write hwrite
  have h₃ := (Machine.size_of_writeHeader hepilogue).1
  exact ⟨h₃.trans (h₂.trans h₁), rfl⟩

theorem annex_kept {b size : Nat} (hannex : h.annex b size = .ok h') :
    h'.memory.size = h.memory.size ∧ h'.prologue = h.prologue := by
  obtain ⟨m, ix, p⟩ := h
  obtain ⟨m₁, hwrite, hannex⟩ := bind_eq_ok_iff.mp hannex
  obtain ⟨next, -, hannex⟩ := bind_eq_ok_iff.mp hannex
  obtain ⟨m₂, hepilogue, hannex⟩ := bind_eq_ok_iff.mp hannex
  obtain rfl := Except.ok.inj hannex
  exact ⟨(Machine.size_of_writeHeader hepilogue).1.trans (Machine.size_of_write hwrite), rfl⟩

variable [Reserve ρ]

theorem grow_kept {bytes : Nat} {answer : Except GrowError Block}
    (hgrow : (a.grow bytes).result = .ok (answer, a')) :
    a.heap.memory.size ≤ a'.heap.memory.size ∧ a'.heap.prologue = a.heap.prologue := by
  simp only [grow, Run.result_bind] at hgrow
  rcases a.extend_cases (alignUp bytes) with ⟨cause, -, hextend⟩ | ⟨fresh, -, hextend⟩
  · rw [hextend] at hgrow
    obtain ⟨-, rfl⟩ := Prod.mk.inj (Except.ok.inj hgrow)
    exact ⟨Nat.le_refl _, rfl⟩
  · simp only [hextend, ok_bind, Run.result_bind, Run.result_lift] at hgrow
    obtain ⟨a₁, hupdate, hgrow⟩ := bind_eq_ok_iff.mp hgrow
    obtain ⟨h₁, hannex, rfl⟩ := update_eq_ok_iff.mp hupdate
    simp only [Run.result_emit, ok_bind] at hgrow
    obtain ⟨⟨merged, h₂⟩, hcoalesce, hgrow⟩ := bind_eq_ok_iff.mp hgrow
    obtain ⟨-, rfl⟩ := Prod.mk.inj (Except.ok.inj hgrow)
    have hannexed := annex_kept hannex
    have hmerged := Heap.coalesce_kept hcoalesce
    simp only [Memory.size_append] at hannexed
    dsimp only at hmerged ⊢
    exact ⟨by omega, hmerged.2.trans hannexed.2⟩

-- The first bytes of a region hold the sentinels.
theorem init_seeded (hinit : (init region chunk).result = .ok (.ok a)) :
    Heap.Seeded a.heap.memory a.heap.prologue := by
  obtain ⟨memory, reserve⟩ := region
  simp only [init, Run.result_bind, Region.extend] at hinit
  generalize Reserve.request reserve memory.size 16 = answer at hinit
  rcases answer with ⟨cause | ⟨fresh, hfresh⟩, reserve', log⟩
  · cases hinit
  simp only [ok_bind, Run.result_bind, Run.result_lift] at hinit
  obtain ⟨heap, hseed, hinit⟩ := bind_eq_ok_iff.mp hinit
  obtain ⟨⟨answer, grown⟩, hgrow, hinit⟩ := bind_eq_ok_iff.mp hinit
  obtain ⟨hlength, hprologue⟩ := seed_kept hseed
  obtain ⟨hle, hkept⟩ := grow_kept hgrow
  cases answer with
  | error cause => cases hinit
  | ok b =>
      obtain rfl := Except.ok.inj (Except.ok.inj hinit)
      simp only [Memory.size_append, hfresh] at hlength
      dsimp only at hle hkept
      rw [hkept, hprologue]
      constructor <;> omega

-- Whatever the bytes of the region and the index hold after an allocator has been set up, and however
-- long the region has become, the check answers, and so it does on a machine. The walk over the blocks
-- visits one block for every sixteen bytes at most, besides the last; the walks over the lists stop at
-- the first block that they meet again.
theorem check_total (hinit : (init region chunk).result = .ok (.ok a)) {m : Memory}
    (hsize : a.heap.memory.size ≤ m.size) (ix : Index) (base : Nat) :
    (∃ verdict, Heap.check ⟨m, ix, a.heap.prologue⟩ base = .ok verdict ∧
      (m.size < 9223372036854775808 → base + m.size < 18446744073709551616 →
        Machine.check ⟨m, ix, a.heap.prologue⟩ base = some verdict)) ∧
    (∃ visited verdict, Heap.checkBlocks ⟨m, ix, a.heap.prologue⟩ base = .ok verdict ∧
      visited.length ≤ m.size / 16 + 1 ∧
      (Heap.BlockWalk m base (a.heap.prologue + 8) 0 visited verdict ∨
        visited = [] ∧ verdict = .error (.badPrologue a.heap.prologue))) ∧
    ∃ visited found, Heap.ClassesWalk m ix [] SizeClass.all visited found ∧
      Heap.Fresh [] visited found ∧
      Heap.checkLists ⟨m, ix, a.heap.prologue⟩ = .ok (found.bind fun _ =>
        if visited.length ≠ ix.size then .error (.orphanLinks visited.length ix.size)
        else .ok visited.length) := by
  have hseeded : Heap.Seeded m a.heap.prologue :=
    ⟨(init_seeded hinit).pad, Nat.le_trans (init_seeded hinit).inside hsize⟩
  obtain ⟨verdict, hcheck⟩ := Heap.exists_check ix base hseeded
  obtain ⟨visited, found, hwalk, hlists⟩ := Heap.exists_checkLists ⟨m, ix, a.heap.prologue⟩
  refine ⟨⟨verdict, hcheck, fun hlt hbase => ?_⟩, Heap.exists_checkBlocks ix base hseeded, visited, found,
    hwalk, hwalk.fresh List.nodup_nil, hlists⟩
  exact Machine.check_of hseeded (.of_lt (by omega)) hbase hcheck

-- Forty bytes of ones in place of a heap, and lists that go round in a circle.
theorem check_total_arena : ∃ a : Allocator Arena,
    (init (.ofReserve (Arena.withLimit 4096 64)) ⟨16, by decide, by decide, by decide⟩).result =
      .ok (.ok a) ∧ ∃ verdict, Heap.check ⟨⟨⟨Array.replicate 40 255⟩⟩,
        ⟨Vector.replicate classCount (some 16), (∅ : Std.TreeMap Nat Links).insert 16 ⟨none, some 16⟩⟩,
        a.heap.prologue⟩ 4096 = .ok verdict := by
  have hinit : ((init (.ofReserve (Arena.withLimit 4096 64))
      ⟨16, by decide, by decide, by decide⟩).result.toOption.bind Except.toOption).any
        (·.heap.memory.size ≤ 40) = true := by
    decide +kernel
  obtain ⟨a, hsome, hsize⟩ := (Option.any_eq_true _ _).mp hinit
  rcases hresult : (init (.ofReserve (Arena.withLimit 4096 64))
      ⟨16, by decide, by decide, by decide⟩).result with fault | ⟨cause | a'⟩ <;> rw [hresult] at hsome
  · cases hsome
  · cases hsome
  · obtain rfl := Option.some.inj hsome
    obtain ⟨⟨verdict, hcheck, -⟩, -⟩ := check_total hresult (m := ⟨⟨Array.replicate 40 255⟩⟩)
      (of_decide_eq_true hsize) _ 4096
    exact ⟨_, rfl, verdict, hcheck⟩

end SegregatedFit.Allocator
