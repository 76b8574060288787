import SegregatedFit.Proofs.Client.Adjacency
import SegregatedFit.Proofs.Client.Fit

/-!
Allocation and release. A block that is given back right after it has been handed out takes in exactly what
was cut off it, so the blocks are again what they were before. It heads the list of its class then, hence
the next request of the same kind is served from it.
-/

namespace SegregatedFit

variable {b need total delta stop : Nat} {bs xs ys side : List BlockInfo} {h h' : Heap} {ls : Lists}
  {o : Outline}

theorem mergeable_eq_none {size : Nat} (hapart : Apart (⟨b, size, false⟩ :: side)) :
    mergeable size side = none := by
  cases side with
  | nil => rfl
  | cons i rest =>
      have hsettled := (List.isChain_cons_cons.mp hapart).1
      refine if_neg ?_
      rintro ⟨hfree, hmax⟩
      exact Nat.not_lt_of_le hmax (hsettled rfl hfree)

theorem Lists.remove_insert (ls : Lists) (b size : Nat) : (ls.insert b size).remove b size = ls := by
  funext c
  unfold remove insert
  by_cases hc : c = .ofSize size
  · simp [hc]
  · simp [hc]

namespace Site

-- A block that is given back in the place of the free block that it was cut off.
theorem merge_placed (hapart : Apart (xs ++ ⟨b, total, false⟩ :: ys)) (hneed : need ≤ total)
    (hmax : total ≤ maxBlockSize) {size : Nat} {rest : List BlockInfo}
    (hplaced : placed b total need = ⟨b, size, true⟩ :: rest) :
    (Site.mk xs.reverse b size (rest ++ ys) (ls.place b total need)).merge =
      ⟨xs.reverse, b, total, ys, ls.remove b total⟩ := by
  obtain ⟨hleft, hright⟩ := apart_blocks (z := ⟨xs.reverse, b, total, ys, ls⟩).mp (by simpa [blocks])
  have hwhole : (Site.mk xs.reverse b size (rest ++ ys) (ls.place b total need)).mergeNext =
      ⟨xs.reverse, b, total, ys, ls.remove b total⟩ := by
    unfold placed at hplaced
    split at hplaced
    · rename_i hrest
      simp only [List.cons.injEq, BlockInfo.mk.injEq, true_and, and_true] at hplaced
      obtain ⟨rfl, rfl⟩ := hplaced
      have hsum : need + (total - need) = total := Nat.add_sub_cancel' hneed
      simp [mergeNext, mergeable, hsum, hmax, Lists.place, hrest, Lists.remove_insert]
    · rename_i hrest
      simp only [List.cons.injEq, BlockInfo.mk.injEq, true_and, and_true] at hplaced
      obtain ⟨rfl, rfl⟩ := hplaced
      simp [mergeNext, mergeable_eq_none hright, Lists.place, hrest]
  rw [merge, hwhole, mergePrev, mergeable_eq_none hleft]

end Site

namespace Outline.Depicts

-- The block that is handed out has room for what was placed in it.
theorem exists_blocks_place (ho : o.Depicts h) (hsplit : o.blocks = xs ++ ⟨b, total, false⟩ :: ys)
    (hneed : need ≤ total) : ∃ size rest, need ≤ size ∧ placed b total need = ⟨b, size, true⟩ :: rest ∧
      (o.place b need).blocks = xs ++ ⟨b, size, true⟩ :: (rest ++ ys) := by
  obtain ⟨size, rest, hsize, hblock⟩ :
      ∃ size rest, need ≤ size ∧ placed b total need = ⟨b, size, true⟩ :: rest := by
    unfold placed
    split
    · exact ⟨need, _, Nat.le_refl _, rfl⟩
    · exact ⟨total, _, hneed, rfl⟩
  refine ⟨size, rest, hsize, hblock, ?_⟩
  rw [ho.blocks_place hsplit, hblock, List.append_assoc, List.cons_append]

-- To place a block and to give it back puts it at the head of its list, and nothing else.
theorem release_place (ho : o.Depicts h) (hplaced : (o.place b need).Depicts h')
    (hsplit : o.blocks = xs ++ ⟨b, total, false⟩ :: ys) (hapart : Apart o.blocks) (hneed : need ≤ total) :
    (o.place b need).release b = ⟨o.start, o.blocks, (o.lists.remove b total).insert b total⟩ := by
  have hmax := (ho.sound.laid.proper ⟨b, total, false⟩ (by simp [hsplit])).size_le
  obtain ⟨size, rest, -, hblock, hblocks⟩ := ho.exists_blocks_place hsplit hneed
  obtain ⟨hbefore, hsize, hbehind⟩ := hplaced.split hblocks
  have htotal : o.sizeAt b = total := (ho.split hsplit).2.1
  have hlists : (o.place b need).lists = o.lists.place b total need := by rw [Outline.place, htotal]
  rw [hsplit] at hapart
  dsimp only at hbefore hsize hbehind
  rw [Outline.release, hbefore, hsize, hbehind, hlists, Outline.settle,
    Site.merge_placed hapart hneed hmax hblock, Site.blocks, Site.filedLists, List.reverse_reverse, hsplit]
  rfl

-- A least fit at the head of its list is chosen.
theorem fit_eq_of_head (ho : o.Depicts h) (hmem : ⟨b, total, false⟩ ∈ o.blocks) (hneed : need ≤ total)
    (hleast : ∀ i ∈ o.blocks, i.allocated = false → need ≤ i.size → total ≤ i.size)
    (hhead : (o.lists (.ofSize total)).head? = some b) : o.fit need = some b := by
  cases hfit : o.fit need with
  | none => exact absurd (ho.lt_of_fit_eq_none hfit _ hmem rfl) (Nat.not_lt_of_le hneed)
  | some b' =>
      obtain ⟨total', hbest⟩ := ho.bestFit hfit
      have hle : total ≤ total' := hleast _ hbest.free rfl hbest.fits
      have hclass : SizeClass.ofSize total = SizeClass.ofSize total' :=
        le_antisymm (SizeClass.ofSize_mono hle) (hbest.lowest _ hmem rfl hneed)
      obtain rfl : total = total' := Nat.le_antisymm hle (hbest.smallest _ hmem rfl hneed hclass)
      obtain ⟨before, after, hchain, hfirst⟩ := hbest.first
      rw [ho.sound.holds.chain_eq] at hchain
      rw [hchain] at hhead
      cases before with
      | nil => exact hhead
      | cons x before =>
          obtain rfl := Option.some.inj hhead
          exact absurd rfl (hfirst _ hmem List.mem_cons_self)

end Outline.Depicts

theorem BestFit.least (hbest : BestFit h bs need b total) :
    ∀ i ∈ bs, i.allocated = false → need ≤ i.size → total ≤ i.size := by
  intro i hi hfree hneed
  apply Nat.le_of_not_lt
  intro hlt
  have hclass : SizeClass.ofSize i.size = SizeClass.ofSize total :=
    le_antisymm (SizeClass.ofSize_mono (Nat.le_of_lt hlt)) (hbest.lowest i hi hfree hneed)
  exact Nat.not_le_of_lt hlt (hbest.smallest i hi hfree hneed hclass)

theorem Extended.subset (h : Extended bs stop delta xs b total) : xs ⊆ bs := by
  cases h with
  | joined hlast hmax => simp [hlast]
  | apart hlast => exact List.Subset.refl _

-- The blocks `bs` of the heap `h`. When it has grown since, into `h'`, the new bytes are in a free block at
-- the end, together with the free block that has been the last one when a tag can hold both.
inductive Restored (h : Heap) (bs : List BlockInfo) (h' : Heap) : List BlockInfo → Prop
  | same (hsize : h'.memory.size = h.memory.size) : Restored h bs h' bs
  | grown {delta b total : Nat} {xs : List BlockInfo} (hpos : 0 < delta)
      (hsize : h'.memory.size = h.memory.size + delta)
      (hextended : Extended bs h.memory.size delta xs b total) :
      Restored h bs h' (xs ++ [⟨b, total, false⟩])

-- The block `b` of `total` bytes, between `xs` and `ys`, is a least one for `need` bytes in a heap in which
-- free blocks are apart.
structure Supplied (o : Outline) (h : Heap) (xs : List BlockInfo) (b total : Nat) (ys : List BlockInfo)
    (need : Nat) : Prop where
  depicts : o.Depicts h
  apart : Apart o.blocks
  split : o.blocks = xs ++ ⟨b, total, false⟩ :: ys
  fits : need ≤ total
  least : ∀ i ∈ o.blocks, i.allocated = false → need ≤ i.size → total ≤ i.size

namespace Supplied

theorem mem (hsupplied : Supplied o h xs b total ys need) : ⟨b, total, false⟩ ∈ o.blocks := by
  simp [hsupplied.split]

-- Placing the block keeps the sum of all sizes.
theorem sum_eq (hsupplied : Supplied o h xs b total ys need) (haligned : need % 8 = 0) :
    ((o.place b need).blocks.map (·.size)).sum = (o.blocks.map (·.size)).sum := by
  have hcarved : Carved b total need (placed b total need) :=
    carved_placed b haligned (hsupplied.depicts.sound.laid.mem_bounds hsupplied.mem).2.2.2.1 hsupplied.fits
  rw [hsupplied.depicts.blocks_place hsupplied.split, hcarved.sum_eq, hsupplied.split]

theorem of_fit (ho : o.Depicts h) (hapart : Apart o.blocks) (hfit : o.fit need = some b) :
    ∃ xs total ys, Supplied o h xs b total ys need := by
  obtain ⟨total, hbest⟩ := ho.bestFit hfit
  obtain ⟨xs, ys, hsplit⟩ := List.append_of_mem hbest.free
  exact ⟨xs, total, ys, ho, hapart, hsplit, hbest.fits, hbest.least⟩

-- When there has been no fit, the block that the heap has grown by is the only one.
theorem of_grown (ho : o.Depicts h) (hapart : Apart o.blocks) (hfit : o.fit need = none)
    (fresh : { bytes : ByteArray // bytes.size = delta })
    (hdelta : delta % 8 = 0 ∧ 16 ≤ delta ∧ delta ≤ maxBlockSize) (hneed : need ≤ delta) :
    ∃ h' xs total, Supplied (o.settle (o.tail delta)) h' xs (o.tail delta).merge.offset total [] need ∧
      Extended o.blocks o.stop delta xs (o.tail delta).merge.offset total := by
  obtain ⟨h', xs, _, total, hgrown, rfl, hsplit, hextended⟩ := ho.exists_grown fresh hdelta
  have hfits : need ≤ total := Nat.le_trans hneed hextended.delta_le
  refine ⟨h', xs, total, ⟨hgrown, ?_, hsplit, hfits, ?_⟩, hextended⟩
  · exact Site.apart_merge hapart.reverse List.isChain_nil
  · intro i hi hfree hroom
    rw [hsplit] at hi
    rcases List.mem_append.mp hi with hi | hi
    · have hsmall := ho.lt_of_fit_eq_none hfit i (hextended.subset hi) hfree
      exact absurd hroom (Nat.not_le_of_lt hsmall)
    · obtain rfl := List.mem_singleton.mp hi
      exact Nat.le_refl _

end Supplied

namespace Allocator

variable {ρ : Type} [Reserve ρ] {a a₁ : Allocator ρ} {size : Nat}

-- What is handed out was placed in a least fit, of the heap as it was or of one that has grown.
theorem exists_supplied (hconsistent : a.heap.Consistent bs)
    (hallocate : (a.allocate size).result = .ok (some b, a₁)) :
    ∃ o h xs total ys need, size ≠ 0 ∧ blockSizeFor size = some need ∧ Supplied o h xs b total ys need ∧
      (o.place b need).Depicts a₁.heap ∧ Restored a.heap bs a₁.heap o.blocks := by
  have ho := Outline.Depicts.of_sound hconsistent.sound
  have hfollows := follows_allocate ho size
  by_cases hzero : size = 0
  · simp [allocate, hzero] at hallocate
  cases hneed : blockSizeFor size with
  | none => simp [allocate, hzero, hneed] at hallocate
  | some need =>
      have haligned := (blockSizeFor_spec hneed).1.1
      simp only [Outline.allocate, if_neg hzero, hneed] at hfollows
      cases hfit : Outline.fit ⟨a.heap.prologue + 8, bs, a.heap.index.chain⟩ need with
      | some b' =>
          rw [hfit] at hfollows
          cases hfollows with
          | settled hrun hreaches =>
              obtain ⟨hanswer, rfl⟩ := Prod.mk.inj (Except.ok.inj (hallocate.symm.trans hrun))
              obtain rfl := Option.some.inj hanswer
              obtain ⟨xs, total, ys, hsupplied⟩ := Supplied.of_fit ho hconsistent.apart hfit
              exact ⟨_, _, xs, total, ys, need, hzero, rfl, hsupplied, hreaches.depicts,
                .same (hreaches.size_eq ho 0 (hsupplied.sum_eq haligned))⟩
      | none =>
          rw [hfit] at hfollows
          cases hfollows with
          | refused hfresh hrun => cases hallocate.symm.trans hrun
          | @grown _ _ _ _ fresh hfresh hrun hreaches =>
              obtain ⟨hanswer, rfl⟩ := Prod.mk.inj (Except.ok.inj (hallocate.symm.trans hrun))
              obtain rfl := Option.some.inj hanswer
              have hdelta := a.chunk.max_bounds hneed
              obtain ⟨h', xs, total, hsupplied, hextended⟩ :=
                Supplied.of_grown ho hconsistent.apart hfit fresh hdelta (Nat.le_max_left ..)
              refine ⟨_, h', xs, total, [], need, hzero, rfl, hsupplied, hreaches.depicts, ?_⟩
              rw [hsupplied.split]
              have hpos : 0 < max need a.chunk.val := by omega
              refine .grown hpos (hreaches.size_eq ho _ ?_) ?_
              · rw [hsupplied.sum_eq haligned, hsupplied.split, hextended.sum_eq]
              · rw [ho.size_eq]
                exact hextended

-- A block that was placed in a least fit is given back, and then the same request is made once more.
theorem free_then_allocate (hsupplied : Supplied o h xs b total ys need) (hsize : size ≠ 0)
    (hneed : blockSizeFor size = some need) (hplaced : (o.place b need).Depicts h') (reserve : ρ)
    (chunk : ChunkSize) :
    ∃ h₂ h₃, ((Allocator.mk h' reserve chunk).free (some b)).result = .ok ⟨h₂, reserve, chunk⟩ ∧
      h₂.Consistent o.blocks ∧ h₂.memory.size = h'.memory.size ∧
      ((Allocator.mk h₂ reserve chunk).allocate size).result = .ok (some b, ⟨h₃, reserve, chunk⟩) ∧
      h₃.memory.size = h₂.memory.size ∧ h₃.blocks = h'.blocks ∧
      ∃ usable, Block.usableSize h'.memory b = .ok usable ∧ Block.usableSize h₃.memory b = .ok usable ∧
        size ≤ usable := by
  have ⟨ho, hapart, hsplit, hfits, hleast⟩ := hsupplied
  have hbounds := (blockSizeFor_spec hneed).1
  have hsum := hsupplied.sum_eq hbounds.1
  obtain ⟨size', rest, hroom, -, hblocks⟩ := ho.exists_blocks_place hsplit hfits
  have hmem : ⟨b, size', true⟩ ∈ (o.place b need).blocks := by simp [hblocks]
  obtain ⟨h₂, hrelease, hreaches₂⟩ := hplaced.release hmem
  rw [ho.release_place hplaced hsplit hapart hfits] at hreaches₂
  have ho₂ := hreaches₂.depicts
  have hfit := ho₂.fit_eq_of_head hsupplied.mem hfits hleast (by simp [Lists.insert])
  have hfollows := follows_allocate (a := ⟨h₂, reserve, chunk⟩) ho₂ size
  simp only [Outline.allocate, if_neg hsize, hneed, hfit] at hfollows
  -- the same blocks as after the first time
  have hagain : (Outline.place ⟨o.start, o.blocks, (o.lists.remove b total).insert b total⟩ b need).blocks =
      (o.place b need).blocks := (ho₂.blocks_place hsplit).trans (ho.blocks_place hsplit).symm
  cases hfollows with
  | @settled _ h₃ _ hrun hreaches₃ =>
      have hlaid₃ := hreaches₃.depicts.sound.laid
      refine ⟨h₂, h₃, by simp [free, update, hrelease], ho₂.sound.consistent hapart,
        hreaches₂.size_eq hplaced 0 hsum.symm, hrun, hreaches₃.size_eq ho₂ 0 ?_, ?_, size' - 8,
        hplaced.sound.laid.usableSize_eq hmem, hlaid₃.usableSize_eq (hagain ▸ hmem), by omega⟩
      · rw [hagain]
        exact hsum
      · rw [Heap.blocks_eq hlaid₃, Heap.blocks_eq hplaced.sound.laid, hagain]

-- In every heap that keeps its invariants a block that has been handed out can be given back, which leaves
-- the blocks that there were, and then the same request is answered with the same block from what is there.
theorem allocate_free_allocate (hconsistent : a.heap.Consistent bs)
    (hallocate : (a.allocate size).result = .ok (some b, a₁)) :
    ∃ a₂ bs₂ a₃, (a₁.free (some b)).result = .ok a₂ ∧ a₂.heap.blocks = .ok bs₂ ∧
      Restored a.heap bs a₁.heap bs₂ ∧ a₂.heap.Consistent bs₂ ∧
      a₂.heap.memory.size = a₁.heap.memory.size ∧ (a₂.allocate size).result = .ok (some b, a₃) ∧
      a₃.heap.memory.size = a₂.heap.memory.size ∧ a₃.reserve = a₂.reserve ∧
      a₃.heap.blocks = a₁.heap.blocks ∧
      ∃ usable, a₁.usableSize b = .ok usable ∧ a₃.usableSize b = .ok usable ∧ size ≤ usable := by
  obtain ⟨o, h, xs, total, ys, need, hsize, hneed, hsupplied, hplaced, hrestored⟩ :=
    exists_supplied hconsistent hallocate
  obtain ⟨h₂, h₃, hfree, hconsistent₂, hsize₂, hagain, hsize₃, hblocks₃, husable⟩ :=
    free_then_allocate hsupplied hsize hneed hplaced a₁.reserve a₁.chunk
  exact ⟨_, o.blocks, _, hfree, Heap.blocks_eq hconsistent₂.sound.laid, hrestored, hconsistent₂, hsize₂,
    hagain, hsize₃, rfl, hblocks₃, husable⟩

-- A heap of one small block grows for a larger one, and keeps it as a free block.
theorem allocate_free_allocate_grown : ∃ a a₁ a₂ a₃ : Allocator Arena,
    a.heap.Consistent [⟨16, 16, false⟩] ∧ (a.allocate 100).result = .ok (some 16, a₁) ∧
      (a₁.free (some 16)).result = .ok a₂ ∧ a₂.heap.blocks = .ok [⟨16, 128, false⟩] ∧
      (a₂.allocate 100).result = .ok (some 16, a₃) ∧
      a₃.heap.memory.size = a₂.heap.memory.size := by
  have hlaunch : (Client.launch (.ofReserve (Arena.withLimit 4096 4096))
      ⟨16, by decide, by decide, by decide⟩ []).any fun c =>
        c.allocator.heap.memory.size = 32 ∧
        c.allocator.heap.blocks.toOption = some [⟨16, 16, false⟩] ∧
        (c.allocator.allocate 100).result.toOption.any fun (answer, a₁) =>
          answer = some 16 ∧ a₁.heap.memory.size = 144 := by
    decide +kernel
  obtain ⟨c, hc, hholds⟩ := (Option.any_eq_true _ _).mp hlaunch
  obtain ⟨hsize, hblocks, hallocated⟩ := of_decide_eq_true hholds
  obtain ⟨⟨answer, a₁⟩, hresult, hanswer⟩ := (Option.any_eq_true _ _).mp hallocated
  obtain ⟨rfl, hsize₁⟩ := of_decide_eq_true hanswer
  obtain ⟨bs, ls, hinv, hapart⟩ :=
    (Client.Reachable.of_launch rfl hc).exists_apart (by rw [hsize]; decide)
  obtain rfl : bs = [⟨16, 16, false⟩] := by
    rw [Heap.blocks_eq hinv.sound.laid] at hblocks
    exact Option.some.inj hblocks
  have hallocate : (c.allocator.allocate 100).result = .ok (some 16, a₁) := by
    cases hrun : (c.allocator.allocate 100).result with
    | error fault =>
        rw [hrun] at hresult
        cases hresult
    | ok found =>
        rw [hrun] at hresult
        exact congrArg _ (Option.some.inj hresult)
  have hconsistent := hinv.sound.consistent hapart
  obtain ⟨a₂, bs₂, a₃, hfree, hblocks₂, hrestored, -, -, hagain, hsize₃, -⟩ :=
    allocate_free_allocate hconsistent hallocate
  refine ⟨c.allocator, a₁, a₂, a₃, hconsistent, hallocate, hfree, hblocks₂.trans ?_, hagain, hsize₃⟩
  cases hrestored with
  | same hsame => omega
  | @grown delta b total xs hpos hgrown hextended =>
      obtain rfl : delta = 112 := by omega
      cases hextended with
      | @joined _ _ size hlast hmax =>
          have hlast : [] ++ [⟨16, 16, false⟩] = xs ++ [⟨b, size, false⟩] := hlast
          obtain ⟨rfl, hlast⟩ := List.append_inj' hlast rfl
          obtain ⟨rfl, rfl, -⟩ := BlockInfo.mk.inj (List.cons.inj hlast).1
          rfl
      | apart hlast => exact absurd (hlast _ rfl rfl) (by decide)

end Allocator

end SegregatedFit
