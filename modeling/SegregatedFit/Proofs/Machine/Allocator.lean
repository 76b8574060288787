import SegregatedFit.Proofs.Allocator.Resize
import SegregatedFit.Proofs.Machine.Heap

/-!
The requests on a machine. Over a sound heap they are answered as those on blocks of any size are, and a
request makes the heap longer by no more than one block.
-/

namespace SegregatedFit

namespace Machine

variable {ρ : Type} {a a' : Allocator ρ} {bs xs ys : List BlockInfo} {ls : Lists}

theorem update_eq_some (step : Heap → Option Heap) {h' : Heap} (h : step a.heap = some h') :
    update a step = some ⟨h', a.reserve, a.chunk⟩ := by
  simp [update, h]

theorem free_of {z : Site} (hm : Spacious a.heap.memory) (hsound : a.heap.Sound (z.blocks true) z.lists)
    (h : (a.free (some z.offset)).result = .ok a') : free a (some z.offset) = some a' := by
  obtain ⟨h', hrelease, rfl⟩ := Allocator.update_eq_ok_iff.mp h
  exact update_eq_some (release · z.offset) (release_of hm hsound hrelease)

variable [Reserve ρ]

theorem grow_of (hsound : a.heap.Sound bs ls) {size : Nat} (haligned : size % 8 = 0) (hmin : 16 ≤ size)
    (hmax : size ≤ maxBlockSize) (hsize : a.heap.memory.size < 9223372036854775808)
    {out : Except GrowError Block × Allocator ρ} (h : (a.grow size).result = .ok out) :
    grow a size = some out ∧ out.2.heap.memory.size ≤ a.heap.memory.size + size := by
  have hproper : BlockInfo.Proper ⟨a.heap.memory.size, size, false⟩ := ⟨haligned, hmin, hmax⟩
  simp only [maxBlockSize] at hmax
  simp only [Allocator.grow, alignUp_eq_self haligned, Run.result_bind] at h
  simp only [grow, alignUp_eq_some hmax, alignUp_eq_self haligned, Option.bind_eq_bind, Option.bind_some]
  rcases a.extend_cases size with ⟨cause, -, hextend⟩ | ⟨⟨fresh, rfl⟩, -, hextend⟩
  · rw [hextend] at h ⊢
    obtain rfl := Except.ok.inj h
    exact ⟨rfl, Nat.le_add_right ..⟩
  obtain ⟨m₁, m₂, hwrite, hnext, hepilogue, hlength, hlaid, -, hfiled⟩ :=
    Heap.annex_laid hsound fresh hproper
  have hannex : Heap.annex ⟨a.heap.memory.append fresh, a.heap.index, a.heap.prologue⟩
      a.heap.memory.size fresh.size = .ok ⟨m₂, a.heap.index, a.heap.prologue⟩ := by
    simp [Heap.annex, hwrite, hnext, hepilogue]
  simp only [hextend, ok_bind, Allocator.update, Run.result_bind, Run.result_lift, Run.result_emit,
    Run.result_pure, hannex] at h
  obtain ⟨⟨merged, heap⟩, hcoalesce, h⟩ := bind_eq_ok_iff.mp h
  obtain rfl := Except.ok.inj h
  have hlength : m₂.size = a.heap.memory.size + fresh.size := hlength
  have hgrown : Spacious (a.heap.memory.append fresh) :=
    .of_lt (by rw [Memory.size_append]; omega)
  have hm₂ : Spacious m₂ := .of_lt (by omega)
  have hlast := writeLast_of hgrown haligned hwrite hnext hepilogue
  have hmerged := coalesce_of hlaid hsound.holds hfiled hm₂ hcoalesce
  have hkept := (Heap.coalesce_kept hcoalesce).1
  dsimp only [Site.tail] at hmerged
  dsimp only at hkept
  refine ⟨?_, by dsimp only; omega⟩
  simp [hextend, Except.toOption, hlast, hmerged]

theorem allocate_of (hsound : a.heap.Sound bs ls) (hsize : a.heap.memory.size < 9223372036854775808)
    {request : Nat} {out : Option Block × Allocator ρ} (h : (a.allocate request).result = .ok out) :
    allocate a request = some out ∧
      out.2.heap.memory.size ≤ a.heap.memory.size + maxBlockSize := by
  unfold Allocator.allocate at h
  unfold allocate
  by_cases hzero : request = 0
  · rw [if_pos hzero] at h ⊢
    obtain rfl := Except.ok.inj h
    exact ⟨rfl, Nat.le_add_right ..⟩
  rw [if_neg hzero] at h ⊢
  rw [blockSizeFor_eq]
  cases hneed : SegregatedFit.blockSizeFor request with
  | none =>
      rw [hneed] at h
      obtain rfl := Except.ok.inj h
      exact ⟨rfl, Nat.le_add_right ..⟩
  | some need =>
      have hm : Spacious a.heap.memory := .of_lt (by omega)
      have hbounds := (blockSizeFor_spec hneed).1
      have hproper : ∀ b, BlockInfo.Proper ⟨b, need, true⟩ :=
        fun b => ⟨hbounds.1, hbounds.2.1, hbounds.2.2.1⟩
      simp only [hneed, Run.result_bind, Run.result_lift] at h
      rcases Heap.findFit_spec hsound need with ⟨b, total, hfind, hmem, -⟩ | ⟨hfind, -⟩
      · obtain ⟨xs, ys, rfl⟩ := List.append_of_mem hmem
        simp only [hfind, ok_bind, Run.result_bind] at h
        obtain ⟨a', hupdate, h⟩ := bind_eq_ok_iff.mp h
        obtain ⟨h', hplace, rfl⟩ := Allocator.update_eq_ok_iff.mp hupdate
        obtain rfl := Except.ok.inj h
        have hplaced := update_eq_some (place · b need) (place_of hm hsound (hproper b) hplace)
        have hkept := size_of_place hplace
        refine ⟨by simp [findFit_of hm hfind, hplaced], ?_⟩
        exact Nat.le_trans (Nat.le_of_eq hkept) (Nat.le_add_right ..)
      · simp only [hfind, ok_bind, Run.result_bind] at h
        have hchunk := a.chunk.le_val
        have hchunk' := a.chunk.val_le
        have haligned := a.chunk.aligned
        simp only [minBlockSize, maxBlockSize, alignment] at hchunk hchunk' haligned
        have hmax : max need a.chunk.val ≤ maxBlockSize := by
          simp only [maxBlockSize]
          omega
        rcases Allocator.grow_spec hsound (by omega) (by omega) hmax with
          ⟨cause, -, hgrow⟩ | ⟨h₁, hgrow, hbecomes⟩
        · obtain ⟨hgrown, -⟩ := grow_of hsound (by omega) (by omega) hmax hsize hgrow
          rw [hgrow] at h
          obtain rfl := Except.ok.inj h
          exact ⟨by simp [findFit_of hm hfind, hgrown], Nat.le_add_right ..⟩
        · obtain ⟨hgrown, hlength⟩ := grow_of hsound (by omega) (by omega) hmax hsize hgrow
          generalize hz : Site.tail bs a.heap.memory.size (max need a.chunk.val) ls = z
            at hgrow hgrown hbecomes
          have hsupply := Allocator.Supply.of_grown hz hfind hbecomes
          have hm₁ : Spacious h₁.memory := by
            simp only [maxBlockSize] at hmax
            dsimp only at hlength
            exact .of_lt (by omega)
          simp only [hgrow, ok_bind, Run.result_bind] at h
          obtain ⟨a', hupdate, h⟩ := bind_eq_ok_iff.mp h
          obtain ⟨h', hplace, rfl⟩ := Allocator.update_eq_ok_iff.mp hupdate
          obtain rfl := Except.ok.inj h
          have hplaced := update_eq_some (place · z.merge.offset need)
            (place_of hm₁ hsupply.becomes.sound (hproper _) hplace)
          have hkept := size_of_place hplace
          refine ⟨by simp [findFit_of hm hfind, hgrown, hplaced], ?_⟩
          exact Nat.le_trans (Nat.le_of_eq hkept) (Nat.le_trans hlength (Nat.add_le_add_left hmax _))

-- Every way in which a block is resized.
theorem resize_of {b size request need : Nat} (hsound : a.heap.Sound (xs ++ ⟨b, size, true⟩ :: ys) ls)
    (hneed : SegregatedFit.blockSizeFor request = some need)
    (hsize : a.heap.memory.size < 9223372036854775808) {out : Option Block × Allocator ρ}
    (h : (a.resize b request need).result = .ok out) : resize a b request need = some out := by
  have hmem : (⟨b, size, true⟩ : BlockInfo) ∈ xs ++ ⟨b, size, true⟩ :: ys := by simp
  have hlaid := hsound.laid
  have hread := hlaid.size_eq hmem
  have hnext := hlaid.next_eq hmem
  have hself := hlaid.mem_bounds hmem
  have hafter := hlaid.tag_after
  have hbounds := (blockSizeFor_spec hneed).1
  have hm : Spacious a.heap.memory := .of_lt (by omega)
  dsimp only at hread hnext hafter hself
  simp only [Allocator.resize, Run.result_bind, Run.result_lift, hread, ok_bind] at h
  simp only [resize, size_of hm hread, Option.bind_eq_bind, Option.bind_some]
  by_cases hstay : need ≤ size
  · rw [if_pos hstay] at h ⊢
    obtain rfl := Except.ok.inj h
    rfl
  rw [if_neg hstay] at h ⊢
  obtain ⟨after, htag⟩ : ∃ after, ys.head?.elim Tag.epilogue BlockInfo.tag = after := ⟨_, rfl⟩
  rw [htag] at hafter
  have hafterBounds := Block.tag_bounds hafter
  have htotal : size + after.size < wordLimit := hm.lt (by omega)
  simp only [Run.result_bind, Run.result_lift, hnext, hafter, ok_bind] at h
  simp only [next_of hm hnext, tag_of hm hafter, add_eq_some htotal, Option.bind_some]
  by_cases habsorb : ¬after.allocated ∧ need ≤ size + after.size ∧ size + after.size ≤ maxBlockSize
  · rw [if_pos habsorb] at h ⊢
    simp only [Run.result_bind] at h
    obtain ⟨a', hupdate, h⟩ := bind_eq_ok_iff.mp h
    obtain ⟨h', hstep, rfl⟩ := Allocator.update_eq_ok_iff.mp hupdate
    obtain rfl := Except.ok.inj h
    have hfree : after.allocated = false := Bool.eq_false_iff.mpr habsorb.1
    have hbehind : b + size ∈ a.heap.index.links :=
      mem_links_behind hlaid hsound.holds hsound.filed (by simp) hafter hfree
    rw [update_eq_some (absorb · b (b + size) after.size (size + after.size))
      (absorb_of hm (by omega) hbehind hstep)]
    rfl
  rw [if_neg habsorb] at h ⊢
  by_cases hlast : after.size = 0
  · rw [if_pos hlast] at h ⊢
    rw [sub_eq_some (Nat.le_of_not_le hstay), Option.bind_some]
    simp only [Run.result_bind] at h
    rcases a.extend_cases (need - size) with ⟨cause, -, hextend⟩ | ⟨⟨fresh, hfresh⟩, -, hextend⟩
    · rw [hextend] at h ⊢
      obtain rfl := Except.ok.inj h
      rfl
    · simp only [hextend, ok_bind, Run.result_bind] at h
      obtain ⟨a', hupdate, h⟩ := bind_eq_ok_iff.mp h
      obtain ⟨h', hstep, rfl⟩ := Allocator.update_eq_ok_iff.mp hupdate
      obtain rfl := Except.ok.inj h
      have hgrown : Spacious (a.heap.memory.append fresh) :=
        .of_lt (by rw [Memory.size_append]; omega)
      have hstretch := update_eq_some (stretch · b need) (stretch_of hgrown hbounds.1 hstep)
      simp [hextend, Except.toOption, hstretch]
  · rw [if_neg hlast] at h ⊢
    simp only [Run.result_bind] at h
    rcases Allocator.allocate_spec hsound request with
      ⟨reserve, hallocate, -⟩ | ⟨moved, h₁, reserve, bs₁, ls₁, hallocate, hallot, -⟩
    · obtain ⟨hnone, -⟩ := allocate_of hsound hsize hallocate
      rw [hallocate] at h
      obtain rfl := Except.ok.inj h
      rw [hnone]
      rfl
    · obtain ⟨hsome, hlength⟩ := allocate_of hsound hsize hallocate
      have hroom : overhead ≤ size := by
        simp only [overhead]
        omega
      simp only [hallocate, ok_bind, Run.result_bind, Run.result_lift, subtract_eq_ok hroom] at h
      have hfits := le_of_lt_blockSizeFor hneed hself.2.2.2.1 hself.2.2.2.2.1 (Nat.lt_of_not_le hstay)
      obtain ⟨m₂, h₃, z, hcopy, hfree, hcopied, -, ⟨hblocks, rfl, -, rfl⟩, -⟩ :=
        Allocator.move_spec reserve a.chunk hmem hfits hallot
      have hcount : min (size - 8) request = size - 8 := by omega
      have hm₁ : Spacious h₁.memory := by
        simp only [maxBlockSize] at hlength
        exact .of_lt (by omega)
      have hsound₂ := hcopied.sound
      -- both heaps consist of the same blocks
      have hm₂ : Spacious m₂ := by
        have hend := hallot.becomes.sound.laid.tiles.sum_eq
        have hend₂ := hsound₂.laid.tiles.sum_eq
        have hsame : m₂.size = h₁.memory.size := hend₂.symm.trans hend
        rw [Spacious, hsame]
        exact hm₁
      rw [← hblocks] at hsound₂
      have hcopyStep := update_eq_some (a := ⟨h₁, reserve, a.chunk⟩) (copy · z.offset moved (size - 8))
        (copy_of hm₁ hcopy)
      have hfreeStep := free_of hm₂ hsound₂ hfree
      simp only [overhead, hcount, Allocator.update, hcopy, hfree, ok_bind, Run.result_bind,
        Run.result_lift, Run.result_pure] at h
      obtain rfl := Except.ok.inj h
      have hsub : sub size overhead = some (size - 8) := sub_eq_some hroom
      simp [hsome, hsub, hcount, hcopyStep, hfreeStep]

end Machine

end SegregatedFit
