import SegregatedFit.Proofs.Heap.Sparing

/-!
Merging. A `Site` is a block that has just become free among its neighbours, and the lists in which it
is not filed yet. The block takes in its successor when it is free and a tag can hold the joint size,
and then its predecessor by the same rule; the result is filed.
-/

namespace SegregatedFit

-- The neighbour that a free block of `size` bytes can be merged with, and those behind it.
def mergeable (size : Nat) : List BlockInfo → Option (BlockInfo × List BlockInfo)
  | [] => none
  | n :: rest =>
      if n.allocated = false ∧ size + n.size ≤ maxBlockSize then some (n, rest) else none

-- The neighbours on either side stand with the nearest one first.
structure Site where
  left : List BlockInfo
  offset : Nat
  size : Nat
  right : List BlockInfo
  lists : Lists

namespace Site

def blocks (z : Site) (allocated : Bool) : List BlockInfo :=
  z.left.reverse ++ ⟨z.offset, z.size, allocated⟩ :: z.right

def mergeNext (z : Site) : Site :=
  match mergeable z.size z.right with
  | none => z
  | some (n, rest) =>
      ⟨z.left, z.offset, z.size + n.size, rest, z.lists.remove n.offset n.size⟩

def mergePrev (z : Site) : Site :=
  match mergeable z.size z.left with
  | none => z
  | some (n, rest) =>
      ⟨rest, n.offset, z.size + n.size, z.right, z.lists.remove n.offset n.size⟩

def merge (z : Site) : Site := z.mergeNext.mergePrev

-- The lists once the block is filed.
def filedLists (z : Site) : Lists := z.lists.insert z.offset z.size

end Site

variable {m m' : Memory} {ix : Index} {p : Nat} {z : Site} {n : BlockInfo} {rest : List BlockInfo}

theorem mergeable_eq_some {size : Nat} {side : List BlockInfo}
    (h : mergeable size side = some (n, rest)) :
    side = n :: rest ∧ n.allocated = false ∧ size + n.size ≤ maxBlockSize := by
  cases side with
  | nil => simp [mergeable] at h
  | cons i side =>
      rw [mergeable] at h
      by_cases hfree : i.allocated = false ∧ size + i.size ≤ maxBlockSize
      · rw [if_pos hfree] at h
        obtain ⟨rfl, rfl⟩ := Prod.mk.inj (Option.some.inj h)
        exact ⟨rfl, hfree⟩
      · rw [if_neg hfree] at h
        cases h

-- The test on a neighbour's tag; a sentinel, which stands where there is no neighbour, is allocated.
theorem mergeable_test (size : Nat) (side : List BlockInfo) {sentinel : Tag}
    (hsentinel : sentinel.allocated = true) :
    (!(side.head?.elim sentinel BlockInfo.tag).allocated &&
      decide (size + (side.head?.elim sentinel BlockInfo.tag).size ≤ maxBlockSize)) =
      (mergeable size side).isSome := by
  cases side with
  | nil => simp [mergeable, hsentinel]
  | cons i side =>
      simp only [mergeable, List.head?_cons, Option.elim_some, BlockInfo.tag]
      cases i.allocated <;> by_cases h : size + i.size ≤ maxBlockSize <;> simp [h]

-- What merging needs of the blocks around a site, and keeps.
structure Site.Fits (z : Site) (start stop : Nat) : Prop where
  tiles : Tiles start (z.blocks false) stop
  proper : ∀ i ∈ z.blocks false, i.Proper
  filed : Filed z.lists (z.left ++ z.right)
  nodup : ∀ c, (z.lists c).Nodup

namespace Site

variable {start stop : Nat}

theorem mem_blocks {i : BlockInfo} {allocated : Bool} :
    i ∈ z.blocks allocated ↔ i ∈ z.left ∨ i = ⟨z.offset, z.size, allocated⟩ ∨ i ∈ z.right := by
  simp [blocks]

theorem mem_blocks_of_side {i : BlockInfo} (hi : i ∈ z.left ++ z.right) (allocated : Bool) :
    i ∈ z.blocks allocated :=
  mem_blocks.mpr ((List.mem_append.mp hi).imp_right .inr)

-- A site whose block has taken in one of its free neighbours.
theorem Fits.takeIn {z' : Site} (h : z.Fits start stop) (hfree : n.allocated = false)
    (htiles : Tiles start (z'.blocks false) stop) (hlists : z'.lists = z.lists.remove n.offset n.size)
    (hsides : ∀ i, i ∈ z.left ++ z.right ↔ i = n ∨ i ∈ z'.left ++ z'.right)
    (hsize : z'.size = z.size + n.size) (hmax : z'.size ≤ maxBlockSize)
    (hinside : z'.offset ≤ n.offset ∧ n.offset + n.size ≤ z'.offset + z'.size) :
    z'.Fits start stop := by
  have hmem : n ∈ z.blocks false := mem_blocks_of_side ((hsides n).mpr (.inl rfl)) false
  have hold : ∀ {i}, i ∈ z'.left ++ z'.right → i ∈ z.blocks false := fun hi =>
    mem_blocks_of_side ((hsides _).mpr (.inr hi)) false
  have hz := (h.proper ⟨z.offset, z.size, false⟩ (by simp [blocks])).bounds
  have hn := (h.proper n hmem).bounds
  -- the merged block lies where the neighbour did, so no other block does
  have hother : n ∉ z'.left ++ z'.right := fun hi => by
    have hdisjoint := htiles.disjoint (mem_blocks_of_side hi false)
      (j := ⟨z'.offset, z'.size, false⟩) (by simp [blocks]) (by
        rintro rfl
        dsimp only at *
        omega)
    dsimp only at *
    omega
  refine ⟨htiles, ?_, ?_, ?_⟩
  · intro i hi
    rcases mem_blocks.mp hi with hi | rfl | hi
    · exact h.proper i (hold (List.mem_append_left _ hi))
    · refine ⟨?_, ?_, hmax⟩ <;> simp only [alignment, minBlockSize] <;> dsimp only at * <;> omega
    · exact h.proper i (hold (List.mem_append_right _ hi))
  · have hfiled : Filed z.lists (⟨n.offset, n.size, false⟩ :: (z'.left ++ z'.right)) := by
      apply h.filed.congr
      intro i _
      rw [← hfree, List.mem_cons, hsides]
    rw [hlists]
    refine hfiled.remove h.nodup fun i hi hoffset => hother ?_
    exact h.tiles.eq_of_offset h.proper (hold hi) hmem hoffset ▸ hi
  · rw [hlists]
    exact Lists.nodup_remove h.nodup _ _

theorem Fits.mergeNext (h : z.Fits start stop) : z.mergeNext.Fits start stop := by
  unfold Site.mergeNext
  split
  · exact h
  · rename_i n rest hn
    obtain ⟨hright, hfree, hmax⟩ := mergeable_eq_some hn
    obtain ⟨mid, hleft, hoffset, hbehind⟩ := tiles_append.mp h.tiles
    rw [hright] at hbehind
    obtain ⟨hnext, hrest⟩ := hbehind
    dsimp only at hoffset hnext
    refine h.takeIn hfree (tiles_append.mpr ⟨mid, hleft, hoffset, ?_⟩) rfl ?_ rfl hmax ?_
    · rw [← Nat.add_assoc]
      exact hrest
    · intro i
      simp only [hright, List.mem_append, List.mem_cons]
      tauto
    · dsimp only
      omega

theorem Fits.mergePrev (h : z.Fits start stop) : z.mergePrev.Fits start stop := by
  unfold Site.mergePrev
  split
  · exact h
  · rename_i n rest hn
    obtain ⟨hleft, hfree, hmax⟩ := mergeable_eq_some hn
    have htiles := h.tiles
    rw [blocks, hleft, List.reverse_cons, List.append_assoc] at htiles
    obtain ⟨mid, hrest, hprev, hoffset, hright⟩ := tiles_append.mp htiles
    dsimp only at hoffset
    refine h.takeIn hfree (tiles_append.mpr ⟨mid, hrest, hprev, ?_⟩) rfl ?_ rfl hmax ?_
    · rw [Nat.add_comm z.size, ← Nat.add_assoc]
      exact hright
    · intro i
      simp only [hleft, List.mem_append, List.mem_cons]
      tauto
    · dsimp only
      omega

theorem Fits.merge (h : z.Fits start stop) : z.merge.Fits start stop := h.mergeNext.mergePrev

theorem left_adjacent {allocated : Bool} (h : Tiles start (z.blocks allocated) stop)
    (hleft : z.left = n :: rest) : n.offset + n.size = z.offset := by
  rw [blocks, hleft, List.reverse_cons, List.append_assoc] at h
  obtain ⟨_, -, hn, hz, -⟩ := tiles_append.mp h
  rw [hn]
  exact hz.symm

theorem right_adjacent {allocated : Bool} (h : Tiles start (z.blocks allocated) stop)
    (hright : z.right = n :: rest) : n.offset = z.offset + z.size := by
  rw [blocks, hright] at h
  obtain ⟨_, -, hz, hn, -⟩ := tiles_append.mp h
  rw [hn, ← hz]

-- Merging reads the two neighbouring tags, takes the merged neighbours out of the index, and writes one
-- tag. The predecessor is taken out first.
theorem coalesce_eq (hlaid : Laid m p (z.blocks false)) (hholds : ix.Holds z.lists)
    (hfiled : Filed z.lists (z.left ++ z.right)) :
    ∃ ix' : Index, ix'.Holds z.merge.lists ∧
      Heap.coalesce ⟨m, ix, p⟩ z.offset =
        (Block.write m z.merge.offset (.free z.merge.size) >>= fun m' =>
          .ok (z.merge.offset, ⟨m', ix'.insert z.merge.offset z.merge.size, p⟩)) := by
  have hself : (⟨z.offset, z.size, false⟩ : BlockInfo) ∈ z.blocks false := by simp [blocks]
  have hbefore := hlaid.prevTag_eq
  have hafter := hlaid.tag_after
  have hsize := hlaid.size_eq hself
  have hnext := hlaid.next_eq hself
  have hfile : ∀ {n : BlockInfo}, n ∈ z.left ++ z.right → n.allocated = false →
      n.offset ∈ z.lists (.ofSize n.size) := fun hn hfree => hfiled.mem (hfree ▸ hn)
  have hstart : ∀ {n : BlockInfo} {rest}, z.left = n :: rest →
      subtract z.offset n.size = .ok n.offset := fun hleft => by
    have hadjacent := left_adjacent hlaid.tiles hleft
    rw [subtract_eq_ok (by omega), ← hadjacent, Nat.add_sub_cancel]
  rw [List.getLast?_reverse] at hbefore
  dsimp only at hbefore hafter hsize hnext
  simp only [Heap.coalesce, hbefore, hafter, hsize, hnext, ok_bind, pure_eq_ok]
  rw [mergeable_test z.size z.right rfl]
  cases hn : mergeable z.size z.right with
  | none =>
      simp only [Option.isSome_none, Bool.false_eq_true, if_false]
      rw [mergeable_test z.size z.left rfl]
      have hz : z.mergeNext = z := by rw [mergeNext, hn]
      cases hp : mergeable z.size z.left with
      | none =>
          have hmerge : z.merge = z := by rw [merge, hz, mergePrev, hp]
          rw [hmerge]
          exact ⟨ix, hholds, rfl⟩
      | some side =>
          obtain ⟨i, rest⟩ := side
          have hmerge : z.merge =
              ⟨rest, i.offset, z.size + i.size, z.right, z.lists.remove i.offset i.size⟩ := by
            rw [merge, hz, mergePrev, hp]
          obtain ⟨hleft, hfree, -⟩ := mergeable_eq_some hp
          rw [hmerge]
          refine ⟨ix.remove i.offset i.size, hholds.remove (hfile (by simp [hleft]) hfree), ?_⟩
          simp only [hleft, List.head?_cons, Option.elim_some, BlockInfo.tag, hstart hleft,
            Option.isSome_some, if_true]
          rfl
  | some side =>
      obtain ⟨j, rest⟩ := side
      obtain ⟨hright, hfree, -⟩ := mergeable_eq_some hn
      have hz : z.mergeNext =
          ⟨z.left, z.offset, z.size + j.size, rest, z.lists.remove j.offset j.size⟩ := by
        rw [mergeNext, hn]
      have hj : z.offset + z.size = j.offset := (right_adjacent hlaid.tiles hright).symm
      simp only [hright, List.head?_cons, Option.elim_some, BlockInfo.tag, hj, Option.isSome_some,
        if_true]
      rw [mergeable_test (z.size + j.size) z.left rfl]
      cases hp : mergeable (z.size + j.size) z.left with
      | none =>
          have hmerge : z.merge = z.mergeNext := by rw [merge, mergePrev, hz, hp]
          rw [hmerge, hz]
          exact ⟨ix.remove j.offset j.size, hholds.remove (hfile (by simp [hright]) hfree), rfl⟩
      | some side =>
          obtain ⟨i, rest'⟩ := side
          obtain ⟨hleft, hfree', -⟩ := mergeable_eq_some hp
          have hmerge : z.merge = ⟨rest', i.offset, z.size + j.size + i.size, rest,
              (z.lists.remove j.offset j.size).remove i.offset i.size⟩ := by
            rw [merge, mergePrev, hz, hp]
          have hne : j.offset ≠ i.offset := by
            have hi := hlaid.mem_bounds (i := i) (by simp [blocks, hleft])
            have hadjacent := left_adjacent hlaid.tiles hleft
            omega
          rw [hmerge, Lists.remove_comm]
          refine ⟨(ix.remove i.offset i.size).remove j.offset j.size, ?_, ?_⟩
          · refine (hholds.remove (hfile (by simp [hleft]) hfree')).remove ?_
            exact Lists.mem_remove_of_ne (hfile (by simp [hright]) hfree) hne
          simp only [hleft, List.head?_cons, Option.elim_some, BlockInfo.tag, hstart hleft,
            Option.isSome_some, if_true]
          rfl

theorem merge_eq_self (hnext : mergeable z.size z.right = none) (hprev : mergeable z.size z.left = none) :
    z.merge = z := by
  have hz : z.mergeNext = z := by rw [mergeNext, hnext]
  rw [merge, hz, mergePrev, hprev]

theorem size_le_merge (z : Site) : z.size ≤ z.merge.size := by
  have hprev : ∀ z : Site, z.size ≤ z.mergePrev.size := fun z => by
    unfold mergePrev
    split
    · exact Nat.le_refl _
    · exact Nat.le_add_right ..
  refine Nat.le_trans ?_ (hprev _)
  unfold mergeNext
  split
  · exact Nat.le_refl _
  · exact Nat.le_add_right ..

-- The last block of a heap is still the last one when it is merged.
theorem right_merge_eq_nil (h : z.right = []) : z.merge.right = [] := by
  have hprev : ∀ z : Site, z.mergePrev.right = z.right := fun z => by
    unfold mergePrev
    split <;> rfl
  have hnone : mergeable z.size z.right = none := by rw [h, mergeable]
  rw [merge, hprev, mergeNext, hnone, h]

-- The free blocks that make up the merged one, between the others.
theorem exists_merged (z : Site) :
    ∃ old, z.blocks false = z.merge.left.reverse ++ old ++ z.merge.right ∧
      ∀ i ∈ old, i.allocated = false := by
  unfold merge mergePrev mergeNext
  cases hn : mergeable z.size z.right with
  | none =>
      cases hp : mergeable z.size z.left with
      | none => exact ⟨[⟨z.offset, z.size, false⟩], by simp [blocks], by simp⟩
      | some side =>
          obtain ⟨hleft, hfree, -⟩ := mergeable_eq_some hp
          exact ⟨[side.1, ⟨z.offset, z.size, false⟩], by simp [blocks, hleft], by simp [hfree]⟩
  | some side =>
      obtain ⟨hright, hfree, -⟩ := mergeable_eq_some hn
      cases hp : mergeable (z.size + side.1.size) z.left with
      | none =>
          exact ⟨[⟨z.offset, z.size, false⟩, side.1], by simp [blocks, hright], by simp [hfree]⟩
      | some side' =>
          obtain ⟨hleft, hfree', -⟩ := mergeable_eq_some hp
          exact ⟨[side'.1, ⟨z.offset, z.size, false⟩, side.1], by simp [blocks, hleft, hright],
            by simp [hfree, hfree']⟩

-- Merging leaves the allocated blocks where they are.
theorem mem_blocks_merge {i : BlockInfo} (hi : i.allocated = true) :
    i ∈ z.merge.blocks false ↔ i ∈ z.left ++ z.right := by
  obtain ⟨old, hold, hfree⟩ := z.exists_merged
  have hne : ∀ z : Site, i ≠ ⟨z.offset, z.size, false⟩ := by
    rintro z rfl
    cases hi
  have hnotMem : i ∉ old := fun hmem => by
    rw [hfree i hmem] at hi
    cases hi
  have hall : i ∈ z.blocks false ↔ i ∈ z.merge.left.reverse ++ old ++ z.merge.right := by rw [hold]
  simpa [mem_blocks, hne, hnotMem] using hall.symm

-- No other block has the offset of the site.
theorem offset_ne {i : BlockInfo} {allocated : Bool} (hlaid : Laid m p (z.blocks allocated))
    (hi : i ∈ z.left ++ z.right) : i.offset ≠ z.offset := by
  intro hoffset
  have hself := hlaid.mem_bounds (i := ⟨z.offset, z.size, allocated⟩) (by simp [blocks])
  have hother := hlaid.mem_bounds (mem_blocks_of_side hi allocated)
  have houtside := hlaid.tiles.outside (j := i) (by simpa using hi)
  dsimp only at hself houtside
  omega

-- A block that is given back is no longer allocated.
theorem not_handle_merge (hlaid : Laid m p (z.blocks true)) (size : Nat) :
    ⟨z.offset, size, true⟩ ∉ z.merge.blocks false := by
  rw [mem_blocks_merge rfl]
  exact fun hside => offset_ne hlaid hside rfl

-- The block of a site is not filed yet.
theorem Fits.notMem_lists (h : z.Fits start stop) (c : SizeClass) : z.offset ∉ z.lists c := by
  intro hmem
  obtain ⟨size, hside, -⟩ := (h.filed c z.offset).mp hmem
  have hself := (h.proper ⟨z.offset, z.size, false⟩ (by simp [blocks])).bounds
  have hsize := (h.proper _ (mem_blocks_of_side hside false)).bounds
  have houtside := h.tiles.outside (j := ⟨z.offset, size, false⟩) (by simpa using hside)
  dsimp only at *
  omega

theorem Fits.filed_filedLists (h : z.Fits start stop) : Filed z.filedLists (z.blocks false) := by
  apply (h.filed.insert z.offset z.size).congr
  intro i _
  simp only [mem_blocks, List.mem_cons, List.mem_append]
  tauto

end Site

namespace Heap

-- Merging makes one free block of the site and files it, and the heap is sound again.
theorem coalesce_spec (hlaid : Laid m p (z.blocks false)) (hholds : ix.Holds z.lists)
    (hfiled : Filed z.lists (z.left ++ z.right)) :
    ∃ h', coalesce ⟨m, ix, p⟩ z.offset = .ok (z.merge.offset, h') ∧
      Becomes [] ⟨m, ix, p⟩ (z.blocks false) h' (z.merge.blocks false) z.merge.filedLists := by
  have hfits : z.Fits (p + 8) m.size := ⟨hlaid.tiles, hlaid.proper, hfiled, hholds.nodup⟩
  have hmerged := hfits.merge
  obtain ⟨old, hold, hfree⟩ := z.exists_merged
  obtain ⟨start, hx, hstart, hy⟩ := tiles_append.mp hmerged.tiles
  dsimp only at hstart
  subst hstart
  obtain ⟨ix', hholds', hcoalesce⟩ := z.coalesce_eq hlaid hholds hfiled
  rw [hold] at hlaid ⊢
  obtain ⟨m', hwrite, hsize, hlaid', hspares, -⟩ := hlaid.exists_write false [] hx hy
    (hmerged.proper _ (by simp [Site.blocks])) (fun i hi halloc => by
      rcases List.mem_append.mp hi with hi | hi
      · rw [hfree i hi] at halloc
        cases halloc
      · obtain rfl := List.mem_singleton.mp hi
        cases halloc)
  refine ⟨⟨m', ix'.insert z.merge.offset z.merge.size, p⟩, ?_, ⟨hlaid', ?_, ?_⟩, rfl,
    Nat.le_of_eq hsize.symm, hspares⟩
  · rw [hcoalesce, Tag.free, hwrite]
    rfl
  · exact hholds'.insert hmerged.notMem_lists z.merge.size
  · exact hmerged.filed_filedLists

-- A block that is given back is marked free before it is merged.
theorem write_free_spec (hsound : Sound ⟨m, ix, p⟩ (z.blocks true) z.lists) :
    ∃ m', Block.write m z.offset (.free z.size) = .ok m' ∧ m'.size = m.size ∧
      Laid m' p (z.blocks false) ∧ Spares [z.offset] m m' (z.blocks true) (z.blocks false) ∧
      Filed z.lists (z.left ++ z.right) := by
  have hlaid := hsound.laid
  have hself : (⟨z.offset, z.size, true⟩ : BlockInfo) ∈ z.blocks true := by simp [Site.blocks]
  have hproper := hlaid.proper _ hself
  obtain ⟨start, hx, hstart, hy⟩ := tiles_append.mp hlaid.tiles
  dsimp only at hstart hlaid
  subst hstart
  have hsplit : z.blocks true = z.left.reverse ++ [⟨z.offset, z.size, true⟩] ++ z.right := by
    simp [Site.blocks]
  rw [hsplit] at hlaid ⊢
  obtain ⟨m', hwrite, hsize, hlaid', hspares, -⟩ := hlaid.exists_write false [z.offset]
    hx hy ⟨hproper.aligned, hproper.le_size, hproper.size_le⟩ (by simp)
  refine ⟨m', hwrite, hsize, hlaid', hspares, ?_⟩
  apply hsound.filed.congr
  intro i hi
  have hne : i ≠ ⟨z.offset, z.size, true⟩ := by
    rintro rfl
    cases hi
  simp [Site.mem_blocks, hne]

-- Giving a block back marks it free and merges it.
theorem release_spec (hsound : Sound ⟨m, ix, p⟩ (z.blocks true) z.lists) :
    ∃ h', release ⟨m, ix, p⟩ z.offset = .ok h' ∧
      Becomes [z.offset] ⟨m, ix, p⟩ (z.blocks true) h' (z.merge.blocks false) z.merge.filedLists := by
  have hself : (⟨z.offset, z.size, true⟩ : BlockInfo) ∈ z.blocks true := by simp [Site.blocks]
  have hread := hsound.laid.size_eq hself
  obtain ⟨m', hwrite, hsize, hlaid, hspares, hfiled⟩ := write_free_spec hsound
  obtain ⟨h', hcoalesce, hbecomes⟩ := coalesce_spec hlaid hsound.holds hfiled
  refine ⟨h', ?_, hbecomes.sound, hbecomes.prologue, hsize ▸ hbecomes.size_le,
    hspares.trans (hbecomes.spares.mono (by simp))⟩
  dsimp only at hread
  simp [release, hread, hwrite, hcoalesce]

end Heap

end SegregatedFit
