import SegregatedFit.Allocator
import SegregatedFit.Proofs.Heap.Growth
import SegregatedFit.Proofs.Heap.Search

/-!
Where a block comes from. An allocator over a sound heap starts with one free block, finds a free block
or extends the heap by one, and places what was asked for in it. When the region does not grow, the heap
stays as it is.
-/

namespace SegregatedFit

-- What the heap grows by for a request is the size of a block.
theorem ChunkSize.max_bounds (chunk : ChunkSize) {size need : Nat} (hneed : blockSizeFor size = some need) :
    max need chunk.val % 8 = 0 ∧ 16 ≤ max need chunk.val ∧ max need chunk.val ≤ maxBlockSize := by
  have hbounds := (blockSizeFor_spec hneed).1
  have hchunk := chunk.le_val
  have hchunk' := chunk.val_le
  have haligned := chunk.aligned
  simp only [minBlockSize, maxBlockSize, alignment] at hchunk hchunk' haligned ⊢
  omega

namespace Allocator

variable {ρ : Type} [Reserve ρ] {a : Allocator ρ} {bs : List BlockInfo} {ls : Lists}

omit [Reserve ρ] in
theorem update_eq_ok_iff {a' : Allocator ρ} {step : Heap → Except Fault Heap} :
    (a.update step).result = .ok a' ↔ ∃ h', step a.heap = .ok h' ∧ ⟨h', a.reserve, a.chunk⟩ = a' := by
  simp only [update, Run.result_bind, Run.result_lift, bind_eq_ok_iff, Run.result_pure, Except.ok.injEq]

-- What the reserve answers when the heap asks it for `delta` bytes.
def request (a : Allocator ρ) (delta : Nat) : Answer ρ delta :=
  Reserve.request a.reserve a.heap.memory.size delta

-- The region either grows by the bytes that were asked for, or it keeps its bytes.
theorem extend_cases (a : Allocator ρ) (delta : Nat) :
    (∃ cause, (a.request delta).fresh = .error cause ∧ (a.extend delta).result =
        .ok (.error cause, ⟨a.heap, (a.request delta).reserve, a.chunk⟩)) ∨
      ∃ fresh : { bytes : ByteArray // bytes.size = delta }, (a.request delta).fresh = .ok fresh ∧
        (a.extend delta).result = .ok (.ok a.heap.memory.size,
          ⟨⟨a.heap.memory.append fresh, a.heap.index, a.heap.prologue⟩, (a.request delta).reserve,
            a.chunk⟩) := by
  obtain ⟨⟨memory, index, prologue⟩, reserve, chunk⟩ := a
  simp only [extend, request, Run.result_bind, Region.extend]
  rcases Reserve.request reserve memory.size delta with ⟨cause | fresh, reserve', log⟩
  · exact .inl ⟨cause, rfl, rfl⟩
  · exact .inr ⟨fresh, rfl, rfl⟩

-- Growing adds a free block at the end and merges it with a free block before it.
theorem grow_spec (hsound : a.heap.Sound bs ls) {size : Nat} (haligned : size % 8 = 0)
    (hmin : 16 ≤ size) (hmax : size ≤ maxBlockSize) :
    (∃ cause, (a.request size).fresh = .error cause ∧ (a.grow size).result =
        .ok (.error cause, ⟨a.heap, (a.request size).reserve, a.chunk⟩)) ∨
      ∃ h', (a.grow size).result = .ok (.ok (Site.tail bs a.heap.memory.size size ls).merge.offset,
          ⟨h', (a.request size).reserve, a.chunk⟩) ∧
        Heap.Becomes [] a.heap bs h' ((Site.tail bs a.heap.memory.size size ls).merge.blocks false)
          (Site.tail bs a.heap.memory.size size ls).merge.filedLists := by
  simp only [grow, alignUp_eq_self haligned, Run.result_bind]
  rcases a.extend_cases size with ⟨cause, hfresh, hextend⟩ | ⟨⟨fresh, rfl⟩, hfresh, hextend⟩
  · exact .inl ⟨cause, hfresh, by rw [hextend]; rfl⟩
  · have hproper : BlockInfo.Proper ⟨a.heap.memory.size, fresh.size, false⟩ := ⟨haligned, hmin, hmax⟩
    obtain ⟨h₁, h', hannex, hcoalesce, hbecomes⟩ := Heap.annex_spec hsound fresh hproper
    refine .inr ⟨h', ?_, hbecomes⟩
    simp only [hextend, update, Run.result_bind, Run.result_lift, Run.result_emit, Run.result_pure,
      hannex, hcoalesce, ok_bind]

-- A fresh allocator has one free block, which is as large as its chunks. There is none when the reserve
-- refuses the sentinels or the first chunk.
theorem init_spec (region : Region ρ) (chunk : ChunkSize) (haligned : region.memory.size % 8 = 0) :
    let seeded := Reserve.request region.reserve region.memory.size 16
    let grown := Reserve.request seeded.reserve (region.memory.size + 16) chunk.val
    (∃ cause, (init region chunk).result = .ok (.error (.heap cause)) ∧
        (seeded.fresh = .error cause ∨ grown.fresh = .error cause)) ∨
      ∃ h, (init region chunk).result = .ok (.ok ⟨h, grown.reserve, chunk⟩) ∧
        h.prologue = region.memory.size + 8 ∧
        h.Sound [⟨region.memory.size + 16, chunk.val, false⟩]
          (Lists.empty.insert (region.memory.size + 16) chunk.val) := by
  obtain ⟨memory, reserve⟩ := region
  dsimp only
  simp only [init, Run.result_bind, Region.extend]
  rcases Reserve.request reserve memory.size 16 with ⟨cause | ⟨fresh, hfresh⟩, reserve', log⟩
  · exact .inl ⟨cause, rfl, .inl rfl⟩
  · have hsize : (memory.append fresh).size = memory.size + 16 := by
      rw [Memory.size_append, hfresh]
    obtain ⟨h, hseed, hprologue, hsound, hlength⟩ := Heap.seed_spec hsize haligned
    have hsound' : (Allocator.mk h reserve' chunk).heap.Sound [] .empty := hsound
    have haligned' := chunk.aligned
    have hmin := chunk.le_val
    simp only [alignment, minBlockSize] at haligned' hmin
    have hrequest : (Allocator.mk h reserve' chunk).request chunk.val =
        Reserve.request reserve' (memory.size + 16) chunk.val := by
      simp only [request, hlength, hsize]
    rcases grow_spec hsound' haligned' hmin chunk.val_le with
      ⟨cause, hfail, hgrow⟩ | ⟨h', hgrow, hbecomes⟩
    · rw [hrequest] at hfail
      exact .inl ⟨cause, by simp [hseed, hgrow], .inr hfail⟩
    · refine .inr ⟨h', by simp [hseed, hgrow, hrequest], ?_, ?_⟩
      · exact hbecomes.prologue.trans hprologue
      · simpa [Site.tail, Site.merge, Site.mergeNext, Site.mergePrev, mergeable, Site.blocks,
          Site.filedLists, hlength, hsize] using hbecomes.sound

-- A free block `b` of `size` bytes that `need` bytes can be placed in, between the blocks `xs` and `ys`
-- of the heap `h₁`. It is either found in the heap `h` or made of the bytes that the heap has grown by.
structure Supply (h : Heap) (chunk : Nat) (bs : List BlockInfo) (ls : Lists) (need : Nat) (h₁ : Heap)
    (xs : List BlockInfo) (b size : Nat) (ys : List BlockInfo) (ls₁ : Lists) : Prop where
  becomes : Heap.Becomes [] h bs h₁ (xs ++ ⟨b, size, false⟩ :: ys) ls₁
  fits : need ≤ size
  source : (h.findFit need = .ok (some b) ∧ h₁ = h ∧ bs = xs ++ ⟨b, size, false⟩ :: ys ∧ ls₁ = ls) ∨
    (h.findFit need = .ok none ∧ ys = [] ∧
      xs ++ [⟨b, size, false⟩] = (Site.tail bs h.memory.size (max need chunk) ls).merge.blocks false)

-- The last block of a heap that has grown.
theorem Supply.of_grown {h h₁ : Heap} {chunk need : Nat} {z : Site}
    (hz : Site.tail bs h.memory.size (max need chunk) ls = z) (hfind : h.findFit need = .ok none)
    (hbecomes : Heap.Becomes [] h bs h₁ (z.merge.blocks false) z.merge.filedLists) :
    Supply h chunk bs ls need h₁ z.merge.left.reverse z.merge.offset z.merge.size []
      z.merge.filedLists := by
  have hright : z.merge.right = [] := Site.right_merge_eq_nil (hz ▸ rfl)
  have hblocks : z.merge.blocks false =
      z.merge.left.reverse ++ [⟨z.merge.offset, z.merge.size, false⟩] := by
    rw [Site.blocks, hright]
  have hsize : max need chunk ≤ z.merge.size :=
    hz ▸ Site.size_le_merge (.tail bs h.memory.size (max need chunk) ls)
  refine ⟨hblocks ▸ hbecomes, Nat.le_trans (Nat.le_max_left ..) hsize, .inr ⟨hfind, rfl, ?_⟩⟩
  rw [hz, hblocks]

-- What it takes to hand out block `b` for a request of `size` bytes: the block is new, it is large
-- enough, and it stands where a supplied one did.
structure Allotment (h : Heap) (chunk : Nat) (bs : List BlockInfo) (ls : Lists) (size b : Nat) (h' : Heap)
    (bs' : List BlockInfo) (ls' : Lists) : Prop where
  becomes : Heap.Becomes [b] h bs h' bs' ls'
  fresh : ∀ i ∈ bs, i.allocated = true → i.offset ≠ b
  block : ∃ total, ⟨b, total, true⟩ ∈ bs' ∧ size + 8 ≤ total
  shape : ∃ need h₁ xs supplied ys ls₁, blockSizeFor size = some need ∧
    Supply h chunk bs ls need h₁ xs b supplied ys ls₁ ∧ bs' = xs ++ placed b supplied need ++ ys

-- The blocks in use stay, and none of them is handed out again.
theorem Allotment.kept {h h' : Heap} {chunk b size b' size' : Nat} {bs' : List BlockInfo} {ls' : Lists}
    (hallot : Allotment h chunk bs ls size b h' bs' ls') (hb' : ⟨b', size', true⟩ ∈ bs) :
    b' ≠ b ∧ ⟨b', size', true⟩ ∈ bs' := by
  have hne : b' ≠ b := hallot.fresh _ hb' rfl
  exact ⟨hne, (hallot.becomes.spares.kept _ rfl (by simpa using hne)).mpr hb'⟩

theorem Supply.allotment {h h₁ : Heap} {chunk need b size total : Nat} {xs ys : List BlockInfo}
    {ls₁ : Lists} (hsupply : Supply h chunk bs ls need h₁ xs b total ys ls₁)
    (hneed : blockSizeFor size = some need) :
    ∃ h', h₁.place b need = .ok h' ∧ Allotment h chunk bs ls size b h' (xs ++ placed b total need ++ ys)
      (ls₁.place b total need) := by
  have hbounds := (blockSizeFor_spec hneed).1
  have hbecomes := hsupply.becomes
  have hproper : BlockInfo.Proper ⟨b, need, true⟩ := ⟨hbounds.1, hbounds.2.1, hbounds.2.2.1⟩
  obtain ⟨h', hplace, hplaced⟩ := Heap.place_spec hbecomes.sound hproper hsupply.fits
  refine ⟨h', hplace, (hbecomes.mono (List.nil_subset _)).trans hplaced, ?_, ?_,
    ⟨need, h₁, xs, total, ys, ls₁, hneed, hsupply, rfl⟩⟩
  · -- the offset belongs to a free block, so no allocated one has it
    rintro i hi halloc rfl
    have hmem := (hbecomes.spares.kept i halloc (by simp)).mpr hi
    have hsame := hbecomes.sound.laid.tiles.eq_of_offset hbecomes.sound.laid.proper hmem
      (j := ⟨i.offset, total, false⟩) (by simp) rfl
    rw [hsame] at halloc
    cases halloc
  · have hfits := hsupply.fits
    by_cases hleft : minBlockSize ≤ total - need
    · rw [placed, if_pos hleft]
      exact ⟨need, by simp, hbounds.2.2.2⟩
    · rw [placed, if_neg hleft]
      exact ⟨total, by simp, by omega⟩

-- Why a request of `size` bytes is not served, and the reserve that is left.
inductive Refusal (a : Allocator ρ) (size : Nat) : ρ → Prop
  | empty (hsize : size = 0) : Refusal a size a.reserve
  | tooLarge (hneed : blockSizeFor size = none) : Refusal a size a.reserve
  | exhausted {need : Nat} {cause : GrowError} (hneed : blockSizeFor size = some need)
      (hfind : a.heap.findFit need = .ok none)
      (hfresh : (a.request (max need a.chunk.val)).fresh = .error cause) :
      Refusal a size (a.request (max need a.chunk.val)).reserve

-- A request is served from a supplied block, or it leaves the heap alone.
theorem allocate_spec (hsound : a.heap.Sound bs ls) (size : Nat) :
    (∃ reserve, (a.allocate size).result = .ok (none, ⟨a.heap, reserve, a.chunk⟩) ∧
        a.Refusal size reserve) ∨
      ∃ b h' reserve bs' ls', (a.allocate size).result = .ok (some b, ⟨h', reserve, a.chunk⟩) ∧
        Allotment a.heap a.chunk.val bs ls size b h' bs' ls' ∧
        (reserve = a.reserve ∨ ∃ delta, reserve = (a.request delta).reserve) := by
  unfold allocate
  by_cases hzero : size = 0
  · exact .inl ⟨a.reserve, by simp [hzero], .empty hzero⟩
  rw [if_neg hzero]
  cases hneed : blockSizeFor size with
  | none => exact .inl ⟨a.reserve, by simp, .tooLarge hneed⟩
  | some need =>
      have hbounds := (blockSizeFor_spec hneed).1
      rcases Heap.findFit_spec hsound need with ⟨b, total, hfind, hmem, hfits, -⟩ | ⟨hfind, -⟩
      · obtain ⟨xs, ys, rfl⟩ := List.append_of_mem hmem
        have hsupply : Supply a.heap a.chunk.val _ ls need a.heap xs b total ys ls :=
          ⟨.refl hsound [], hfits, .inl ⟨hfind, rfl, rfl, rfl⟩⟩
        obtain ⟨h', hplace, hallotment⟩ := hsupply.allotment hneed
        refine .inr ⟨b, h', a.reserve, _, _, ?_, hallotment, .inl rfl⟩
        simp [hfind, update, hplace]
      · obtain ⟨haligned, hmin, hmax⟩ := a.chunk.max_bounds hneed
        rcases grow_spec hsound haligned hmin hmax with
          ⟨cause, hfresh, hgrow⟩ | ⟨h₁, hgrow, hbecomes⟩
        · exact .inl ⟨_, by simp [hfind, hgrow], .exhausted hneed hfind hfresh⟩
        · have hsupply : Supply a.heap a.chunk.val bs ls need h₁ _ _ _ [] _ :=
            .of_grown rfl hfind hbecomes
          obtain ⟨h', hplace, hallotment⟩ := hsupply.allotment hneed
          refine .inr ⟨_, h', _, _, _, ?_, hallotment, .inr ⟨max need a.chunk.val, rfl⟩⟩
          simp [hfind, hgrow, update, hplace]

end Allocator

end SegregatedFit
