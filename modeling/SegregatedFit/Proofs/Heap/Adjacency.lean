import SegregatedFit.Proofs.Heap.Merging
import SegregatedFit.Proofs.Heap.Placement
import Mathlib.Data.List.Chain

/-!
Adjacent free blocks. Merging leaves none that it could still merge. Placement leaves one when what is
left over of a block has a free block behind it, which was too large to be merged with the whole block.
-/

namespace SegregatedFit

-- Neighbours that stay apart: one of them is in use, or no tag can hold their joint size.
def BlockInfo.Settled (i j : BlockInfo) : Prop :=
  i.allocated = false → j.allocated = false → maxBlockSize < i.size + j.size

def Apart (bs : List BlockInfo) : Prop := bs.IsChain BlockInfo.Settled

variable {i j k : BlockInfo} {xs ys side : List BlockInfo} {b size need : Nat} {z : Site}

theorem BlockInfo.Settled.symm (h : i.Settled j) : j.Settled i := fun hj hi => by
  have := h hi hj
  omega

theorem BlockInfo.settled_of_left (h : i.allocated = true) : i.Settled j := fun hfree => by
  rw [h] at hfree
  cases hfree

theorem BlockInfo.settled_iff (hi : i.allocated = false) (hj : j.allocated = false) :
    i.Settled j ↔ maxBlockSize < i.size + j.size := ⟨fun h => h hi hj, fun h _ _ => h⟩

namespace Apart

theorem reverse (h : Apart xs) : Apart xs.reverse :=
  List.isChain_reverse.mpr (h.imp fun _ _ hij => hij.symm)

-- A block in use separates what is before it from what is behind it.
theorem append_used (hi : i.allocated = true) : Apart (xs ++ i :: ys) ↔ Apart xs ∧ Apart ys := by
  have hbefore : ∀ x ∈ xs.getLast?, ∀ y ∈ (i :: ys).head?, x.Settled y := by
    rintro x - y ⟨⟩
    exact (BlockInfo.settled_of_left hi).symm
  have hbehind : Apart (i :: ys) ↔ Apart ys := by
    rw [Apart, List.isChain_cons, and_iff_right fun y _ => BlockInfo.settled_of_left hi]
    rfl
  rw [Apart, List.isChain_append, and_iff_left hbefore]
  exact and_congr_right fun _ => hbehind

-- A free block may grow.
theorem grow (h : Apart (i :: ys)) (hi : i.allocated = false) (hsize : i.size ≤ j.size) :
    Apart (j :: ys) := by
  obtain ⟨hhead, htail⟩ := List.isChain_cons.mp h
  refine List.isChain_cons.mpr ⟨?_, htail⟩
  intro y hy _ hfree
  have := hhead y hy hi hfree
  omega

-- What a free block cannot be merged with may stand beside it.
theorem cons_of_mergeable_none (h : Apart side) (hnone : mergeable size side = none) (b : Nat) :
    Apart (⟨b, size, false⟩ :: side) := by
  refine List.isChain_cons.mpr ⟨?_, h⟩
  intro y hy _ hfree
  apply Nat.lt_of_not_le
  intro hmax
  cases side with
  | nil => cases hy
  | cons n rest =>
      obtain rfl := Option.some.inj hy
      simp [mergeable, hfree, hmax] at hnone

theorem cons_of_mergeable_some (h : Apart side) (hsome : mergeable size side = some (i, ys)) (b : Nat) :
    Apart (⟨b, size + i.size, false⟩ :: ys) := by
  obtain ⟨rfl, hfree, -⟩ := mergeable_eq_some hsome
  exact h.grow hfree (Nat.le_add_left ..)

end Apart

namespace Site

theorem apart_blocks {allocated : Bool} :
    Apart (z.blocks allocated) ↔ Apart (⟨z.offset, z.size, allocated⟩ :: z.left) ∧
      Apart (⟨z.offset, z.size, allocated⟩ :: z.right) := by
  rw [Apart, blocks, List.isChain_split, ← List.reverse_cons]
  exact and_congr_left fun _ => ⟨fun h => by simpa using Apart.reverse h, Apart.reverse⟩

-- Whatever the neighbours of a block are, it can be merged with none of those of the merged one.
theorem apart_merge (hleft : Apart z.left) (hright : Apart z.right) : Apart (z.merge.blocks false) := by
  have hnext : z.mergeNext.left = z.left ∧
      Apart (⟨z.mergeNext.offset, z.mergeNext.size, false⟩ :: z.mergeNext.right) := by
    unfold mergeNext
    split
    · rename_i hnone
      exact ⟨rfl, hright.cons_of_mergeable_none hnone _⟩
    · rename_i hsome
      exact ⟨rfl, hright.cons_of_mergeable_some hsome _⟩
  rw [← hnext.1] at hleft
  rw [merge, apart_blocks]
  unfold mergePrev
  split
  · rename_i hnone
    exact ⟨hleft.cons_of_mergeable_none hnone _, hnext.2⟩
  · rename_i hsome
    exact ⟨hleft.cons_of_mergeable_some hsome _, hnext.2.grow rfl (Nat.le_add_right ..)⟩

theorem apart_merge_of_blocks (h : Apart (z.blocks true)) : Apart (z.merge.blocks false) := by
  obtain ⟨hleft, hright⟩ := (Apart.append_used rfl).mp h
  exact apart_merge (by simpa using hleft.reverse) hright

end Site

-- Blocks that are not next to the one that is released are left alone.
theorem mergeable_append (hside : side ≠ []) (outer : List BlockInfo) :
    mergeable size (side ++ outer) = (mergeable size side).map fun (n, rest) => (n, rest ++ outer) := by
  cases side with
  | nil => exact absurd rfl hside
  | cons n rest =>
      simp only [List.cons_append, mergeable]
      split <;> rfl

namespace Site

theorem merge_append_right (hright : z.right ≠ []) (outer : List BlockInfo) :
    (Site.mk z.left z.offset z.size (z.right ++ outer) z.lists).merge.blocks false =
      z.merge.blocks false ++ outer := by
  have hnext : (Site.mk z.left z.offset z.size (z.right ++ outer) z.lists).mergeNext =
      ⟨z.mergeNext.left, z.mergeNext.offset, z.mergeNext.size, z.mergeNext.right ++ outer,
        z.mergeNext.lists⟩ := by
    simp only [mergeNext, mergeable_append hright]
    cases mergeable z.size z.right <;> rfl
  rw [merge, hnext, merge]
  simp only [mergePrev]
  cases mergeable z.mergeNext.size z.mergeNext.left <;> simp [blocks]

theorem merge_append_left (hleft : z.left ≠ []) (outer : List BlockInfo) :
    (Site.mk (z.left ++ outer) z.offset z.size z.right z.lists).merge.blocks false =
      outer.reverse ++ z.merge.blocks false := by
  have hnext : (Site.mk (z.left ++ outer) z.offset z.size z.right z.lists).mergeNext =
      ⟨z.mergeNext.left ++ outer, z.mergeNext.offset, z.mergeNext.size, z.mergeNext.right,
        z.mergeNext.lists⟩ := by
    simp only [mergeNext]
    cases mergeable z.size z.right <;> rfl
  have hsame : z.mergeNext.left = z.left := by
    simp only [mergeNext]
    cases mergeable z.size z.right <;> rfl
  rw [merge, hnext, merge]
  simp only [mergePrev, hsame, mergeable_append hleft]
  cases mergeable z.mergeNext.size z.left <;> simp [blocks, hsame]

end Site

-- The size of a free block of `size` bytes in front of the blocks `behind` once the block `p` is given
-- back. It takes in that block, with what that one has taken in before, when it is the next one.
def freedSize (size : Nat) (behind : List BlockInfo) (p : Option Block) : Nat :=
  match behind with
  | [] => size
  | i :: rest =>
    let gain := i.size + (mergeable i.size rest).elim 0 (·.1.size)
    if p = some i.offset ∧ size + gain ≤ maxBlockSize then size + gain else size

theorem freedSize_eq_self {p : Option Block} (hp : ∀ i ∈ ys.head?, p ≠ some i.offset) :
    freedSize size ys p = size := by
  cases ys with
  | nil => rfl
  | cons i rest => simp [freedSize, hp i rfl]

namespace Site

-- The first block once one behind it is given back.
theorem head_merge (hj : j.allocated = false) (hleft : z.left = side ++ [j])
    (hfirst : ∀ i ∈ side, i.offset ≠ z.offset) :
    ∃ first rest, z.merge.blocks false = first :: rest ∧ first.allocated = false ∧
      first.size = freedSize j.size (side.reverse ++ ⟨z.offset, z.size, true⟩ :: z.right)
        (some z.offset) := by
  cases side with
  | nil =>
      have hnext : z.mergeNext.left = [j] ∧
          z.mergeNext.size = z.size + (mergeable z.size z.right).elim 0 (·.1.size) := by
        rw [mergeNext]
        cases mergeable z.size z.right <;> exact ⟨hleft, rfl⟩
      obtain ⟨hleft', hsize⟩ := hnext
      simp only [List.reverse_nil, List.nil_append, freedSize, true_and, ← hsize]
      by_cases hmax : j.size + z.mergeNext.size ≤ maxBlockSize
      · have hsome : mergeable z.mergeNext.size z.mergeNext.left = some (j, []) := by
          rw [hleft', mergeable, if_pos ⟨hj, by omega⟩]
        refine ⟨⟨j.offset, z.mergeNext.size + j.size, false⟩, z.mergeNext.right, ?_, rfl, ?_⟩
        · rw [merge, mergePrev, hsome]
          rfl
        · rw [if_pos hmax, Nat.add_comm]
      · have hnone : mergeable z.mergeNext.size z.mergeNext.left = none := by
          rw [hleft', mergeable, if_neg fun h => hmax (by omega)]
        refine ⟨j, ⟨z.mergeNext.offset, z.mergeNext.size, false⟩ :: z.mergeNext.right, ?_, hj, ?_⟩
        · rw [merge, mergePrev, hnone, blocks, hleft']
          rfl
        · rw [if_neg hmax]
  | cons i side =>
      have houter := merge_append_left (z := ⟨i :: side, z.offset, z.size, z.right, z.lists⟩)
        (List.cons_ne_nil _ _) [j]
      rw [← hleft] at houter
      refine ⟨j, _, houter, hj, ?_⟩
      symm
      apply freedSize_eq_self
      intro k hk hoffset
      rw [List.head?_append_of_ne_nil _ (by simp)] at hk
      exact hfirst k (List.mem_reverse.mp (List.mem_of_head? hk)) (Option.some.inj hoffset).symm

-- A block that is given back in front of the block `k` in use does not reach what is behind `k`.
private theorem apart_merge_before (hk : k.allocated = true) (hbefore : Apart xs)
    (hblocks : z.left.reverse ++ ⟨z.offset, z.size, true⟩ :: side = xs ++ [k]) (hside : side ≠ [])
    (hright : z.right = side ++ i :: j :: ys) (hbehind : Apart (j :: ys)) :
    Apart (z.merge.blocks false) ↔ i.Settled j := by
  have hmerge := merge_append_right (z := ⟨z.left, z.offset, z.size, side, z.lists⟩) hside
  have hall := hmerge (i :: j :: ys)
  rw [← hright] at hall
  have hsides : Apart (z.left.reverse ++ ⟨z.offset, z.size, true⟩ :: (side ++ [i])) := by
    rw [← List.cons_append, ← List.append_assoc, hblocks, List.append_assoc]
    exact (Apart.append_used hk).mpr ⟨hbefore, List.isChain_singleton i⟩
  have hleft := apart_merge_of_blocks (z := ⟨z.left, z.offset, z.size, side ++ [i], z.lists⟩) hsides
  rw [hmerge [i]] at hleft
  rw [show z.merge.blocks false = _ from hall, Apart, List.isChain_append_cons_cons]
  exact ⟨fun h => h.2.1, fun h => ⟨hleft, h, hbehind⟩⟩

-- A block that is given back behind the free block `j` may be merged with it.
private theorem apart_merge_behind (hk : k.allocated = true) (hj : j.allocated = false)
    (hbefore : Apart xs) (hleft : z.left.reverse = xs ++ k :: i :: j :: side)
    (hbehind : Apart (j :: (side ++ ⟨z.offset, z.size, true⟩ :: z.right)))
    (hfirst : ∀ i ∈ side, i.offset ≠ z.offset) :
    ∃ first : BlockInfo, first.allocated = false ∧
      first.size = freedSize j.size (side ++ ⟨z.offset, z.size, true⟩ :: z.right) (some z.offset) ∧
      (Apart (z.merge.blocks false) ↔ i.Settled first) := by
  have hleft' : z.left = side.reverse ++ [j] ++ (i :: k :: xs.reverse) := by
    simpa using congrArg List.reverse hleft
  obtain ⟨first, rest, hhead, hfree, hsize⟩ :=
    head_merge (z := ⟨side.reverse ++ [j], z.offset, z.size, z.right, z.lists⟩) hj rfl
      fun i hi => hfirst i (List.mem_reverse.mp hi)
  have hmerge := merge_append_left (z := ⟨side.reverse ++ [j], z.offset, z.size, z.right, z.lists⟩)
    (by simp) (i :: k :: xs.reverse)
  rw [← hleft', hhead] at hmerge
  have hinner : Apart (first :: rest) := by
    rw [← hhead]
    refine apart_merge_of_blocks ?_
    simpa [blocks] using hbehind
  rw [List.reverse_reverse] at hsize
  refine ⟨first, hfree, hsize, ?_⟩
  rw [show z.merge.blocks false = _ from hmerge, List.reverse_cons, List.reverse_cons,
    List.reverse_reverse, List.append_assoc, List.append_assoc, List.cons_append, List.nil_append,
    List.cons_append, List.nil_append, Apart.append_used hk, and_iff_right hbefore, Apart,
    List.isChain_cons_cons]
  exact and_iff_left hinner

-- A free block `i` is left over behind the block `k`, and another block is given back: what counts is
-- how large the free block behind `i` becomes.
theorem apart_merge_iff (hblocks : z.blocks true = xs ++ k :: i :: j :: ys) (hk : k.allocated = true)
    (hne : k.offset ≠ z.offset) (hi : i.allocated = false) (hj : j.allocated = false)
    (hbefore : Apart xs) (hbehind : Apart (j :: ys))
    (hdistinct : ∀ i ∈ z.left ++ z.right, i.offset ≠ z.offset) :
    Apart (z.merge.blocks false) ↔ maxBlockSize < i.size + freedSize j.size ys (some z.offset) := by
  rw [blocks, List.append_cons xs] at hblocks
  rcases List.append_eq_append_iff.mp hblocks with ⟨side, hx, hside⟩ | ⟨side, hleft, hside⟩
  · -- the block lies before `k`
    cases side with
    | nil =>
        obtain rfl := (List.cons.inj hside).1
        cases hi
    | cons n side =>
        obtain ⟨rfl, hright⟩ := List.cons.inj hside
        have hnil : side ≠ [] := by
          rintro rfl
          obtain ⟨-, hlast⟩ := List.append_inj' hx rfl
          exact hne (by rw [(List.cons.inj hlast).1])
        have hsame : freedSize j.size ys (some z.offset) = j.size := by
          apply freedSize_eq_self
          intro n hn hoffset
          refine hdistinct n ?_ (Option.some.inj hoffset).symm
          simp [hright, List.mem_of_head? hn]
        rw [hsame, apart_merge_before hk hbefore hx.symm hnil hright hbehind, BlockInfo.settled_iff hi hj]
  · -- the block lies behind `k`, where the first two are free
    cases side with
    | nil =>
        obtain rfl := (List.cons.inj hside).1
        cases hi
    | cons n side =>
        obtain ⟨rfl, htail⟩ := List.cons.inj hside
        cases side with
        | nil =>
            obtain rfl := (List.cons.inj htail).1
            cases hj
        | cons n side =>
            obtain ⟨rfl, rfl⟩ := List.cons.inj htail
            obtain ⟨first, hfree, hsize, hiff⟩ := apart_merge_behind hk hj hbefore
              (by simpa using hleft) hbehind fun n hn => hdistinct n (by
                rw [← List.reverse_reverse z.left, hleft]
                simp [hn])
            rw [hiff, BlockInfo.settled_iff hi hfree, hsize]
            exact Iff.rfl

end Site

-- Placing keeps blocks apart unless it leaves a block over that its successor could be merged with.
theorem apart_placed_iff (h : Apart (xs ++ ⟨b, size, false⟩ :: ys)) :
    Apart (xs ++ placed b size need ++ ys) ↔ (minBlockSize ≤ size - need →
      ∀ j ∈ ys.head?, BlockInfo.Settled ⟨b + need, size - need, false⟩ j) := by
  obtain ⟨hbefore, hbehind, -⟩ := List.isChain_append.mp h
  have hbefore : Apart xs := hbefore
  have hys := (List.isChain_cons.mp hbehind).2
  by_cases hleft : minBlockSize ≤ size - need
  · rw [placed, if_pos hleft, List.append_assoc, List.cons_append, Apart.append_used rfl,
      and_iff_right hbefore, Apart, List.cons_append, List.isChain_cons, List.nil_append,
      and_iff_left hys]
    exact ⟨fun hhead _ => hhead, fun hhead => hhead hleft⟩
  · rw [placed, if_neg hleft, List.append_assoc, List.cons_append, Apart.append_used rfl]
    exact iff_of_true ⟨hbefore, hys⟩ fun hleft' => absurd hleft' hleft

-- A heap that keeps all its invariants: the two tags of a block agree, two free neighbours are too large
-- together for one tag, and every free block is filed once, under the class of its size.
structure Heap.Consistent (h : Heap) (bs : List BlockInfo) : Prop where
  sound : h.Sound bs h.index.chain
  apart : Apart bs

theorem Heap.Sound.consistent {h : Heap} {bs : List BlockInfo} {ls : Lists} (hsound : h.Sound bs ls)
    (hapart : Apart bs) : h.Consistent bs := by
  obtain rfl : h.index.chain = ls := funext hsound.holds.chain_eq
  exact ⟨hsound, hapart⟩

namespace Heap.Consistent

variable {h : Heap} {bs : List BlockInfo}

-- A block is listed when it is free, and then under its class.
theorem mem_chain_iff (hconsistent : h.Consistent bs) (hi : i ∈ bs) (c : SizeClass) :
    i.offset ∈ h.index.chain c ↔ i.allocated = false ∧ c = .ofSize i.size := by
  have hsound := hconsistent.sound
  rw [hsound.filed c i.offset]
  constructor
  · rintro ⟨size, hmem, rfl⟩
    rw [hsound.laid.tiles.eq_of_offset hsound.laid.proper hi hmem rfl]
    exact ⟨rfl, rfl⟩
  · rintro ⟨hfree, rfl⟩
    exact ⟨i.size, hfree ▸ hi, rfl⟩

theorem count_chain (hconsistent : h.Consistent bs) (hi : i ∈ bs) (hfree : i.allocated = false)
    (c : SizeClass) : (h.index.chain c).count i.offset = if c = .ofSize i.size then 1 else 0 := by
  rw [(hconsistent.sound.holds.nodup c).count]
  simp only [hconsistent.mem_chain_iff hi, hfree, true_and]

end Heap.Consistent

end SegregatedFit
