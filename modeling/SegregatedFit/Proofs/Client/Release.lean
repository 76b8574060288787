import SegregatedFit.Proofs.Client.Adjacency
import SegregatedFit.Proofs.Heap.Outline

/-!
Giving a block back, whatever the size of the heap. Which neighbours the block takes in depends on how
large it has become by then, since a tag must be able to hold the sum. The heap keeps all its invariants,
and what was not taken in is left as it was.
-/

namespace SegregatedFit

-- The free neighbours that a block of `size` bytes between `xs` and `ys` takes in, and the blocks beyond
-- them. The successor comes first, so whether the predecessor still fits depends on it.
structure Absorbs (xs : List BlockInfo) (size : Nat) (ys xs' : List BlockInfo) (prev next : Option BlockInfo)
    (ys' : List BlockInfo) : Prop where
  before : xs = xs' ++ prev.toList
  behind : ys = next.toList ++ ys'
  next_iff : ∀ j, next = some j ↔
    ys.head? = some j ∧ j.allocated = false ∧ size + j.size ≤ maxBlockSize
  prev_iff : ∀ i, prev = some i ↔ xs.getLast? = some i ∧ i.allocated = false ∧
    size + next.elim 0 (·.size) + i.size ≤ maxBlockSize

-- What becomes of the heap `h` when the block `b` of `size` bytes is given back.
structure Heap.Absorbed (h : Heap) (b size : Nat) (xs' : List BlockInfo) (prev next : Option BlockInfo)
    (ys' : List BlockInfo) (h' : Heap) (merged : BlockInfo) : Prop where
  consistent : h'.Consistent (xs' ++ merged :: ys')
  length : h'.memory.size = h.memory.size
  free : merged.allocated = false
  offset : merged.offset = prev.elim b (·.offset)
  size : merged.size = prev.elim 0 (·.size) + size + next.elim 0 (·.size)
  size_le : merged.size ≤ maxBlockSize
  once : ∀ c, (h'.index.chain c).count merged.offset = if c = .ofSize merged.size then 1 else 0
  -- the other free blocks stay listed, in the order that they have
  chain : ∀ c, h'.index.chain c = (if c = .ofSize merged.size then [merged.offset] else []) ++
    (h.index.chain c).filter fun x => x ∉ (prev.toList ++ next.toList).map (·.offset)
  gone : ∀ i ∈ prev.toList ++ next.toList, ∀ c, i.offset ∈ h'.index.chain c →
    i.offset = merged.offset ∧ c = .ofSize merged.size
  tags : ∀ i ∈ xs' ++ ys', h'.memory.readTag (i.offset - 4) = h.memory.readTag (i.offset - 4) ∧
    h'.memory.readTag (i.offset + i.size - 8) = h.memory.readTag (i.offset + i.size - 8)
  kept : ∀ i ∈ xs' ++ ys', ∀ c, i.offset ∈ h'.index.chain c ↔ i.offset ∈ h.index.chain c
  settled : ∀ i, xs'.getLast? = some i ∨ ys'.head? = some i → i.allocated = false →
    maxBlockSize < merged.size + i.size

variable {m : Memory} {p b size : Nat} {xs ys xs' ys' : List BlockInfo} {prev next : Option BlockInfo}
  {z : Site} {ls : Lists}

theorem exists_mergeable (size : Nat) (side : List BlockInfo) :
    ∃ (n : Option BlockInfo) (rest : List BlockInfo), side = n.toList ++ rest ∧
      mergeable size side = n.map (·, rest) ∧ ∀ j, n = some j ↔
        side.head? = some j ∧ j.allocated = false ∧ size + j.size ≤ maxBlockSize := by
  cases hfound : mergeable size side with
  | none =>
      refine ⟨none, side, rfl, rfl, fun j => iff_of_false (fun h => nomatch h) ?_⟩
      rintro ⟨hhead, hfree, hmax⟩
      cases side with
      | nil => cases hhead
      | cons i rest =>
          obtain rfl := Option.some.inj hhead
          rw [mergeable, if_pos ⟨hfree, hmax⟩] at hfound
          cases hfound
  | some found =>
      obtain ⟨i, rest⟩ := found
      obtain ⟨rfl, hfree, hmax⟩ := mergeable_eq_some hfound
      refine ⟨some i, rest, rfl, rfl, fun j => ⟨?_, fun h => h.1⟩⟩
      rintro ⟨⟩
      exact ⟨rfl, hfree, hmax⟩

namespace Lists

-- A block that is in no list of another class is taken out of all of them.
theorem remove_eq_filter (hnodup : ∀ c, (ls c).Nodup) (hclass : ∀ c, b ∈ ls c → c = .ofSize size)
    (c : SizeClass) : ls.remove b size c = (ls c).filter (· != b) := by
  unfold remove
  split
  · exact (hnodup c).erase_eq_filter b
  · rename_i hc
    have hb : b ∉ ls c := fun hmem => hc (hclass c hmem)
    symm
    rw [List.filter_eq_self]
    intro x hx
    have hne : x ≠ b := ne_of_mem_of_not_mem hx hb
    simpa using hne

def removeAll (ls : Lists) (old : List BlockInfo) : Lists :=
  old.foldr (fun i ls => ls.remove i.offset i.size) ls

theorem removeAll_eq_filter {old : List BlockInfo} (hnodup : ∀ c, (ls c).Nodup)
    (hclass : ∀ i ∈ old, ∀ c, i.offset ∈ ls c → c = .ofSize i.size) (c : SizeClass) :
    ls.removeAll old c = (ls c).filter fun x => x ∉ old.map (·.offset) := by
  induction old generalizing c with
  | nil => simp [removeAll]
  | cons i old ih =>
      have ih := ih fun j hj => hclass j (List.mem_cons_of_mem _ hj)
      have hnodup' : ∀ c, (ls.removeAll old c).Nodup := fun c => by
        rw [ih]
        exact (hnodup c).filter _
      have hclass' : ∀ c, i.offset ∈ ls.removeAll old c → c = .ofSize i.size := fun c hmem => by
        rw [ih] at hmem
        exact hclass i List.mem_cons_self c (List.mem_of_mem_filter hmem)
      have hfirst : ls.removeAll (i :: old) = (ls.removeAll old).remove i.offset i.size := rfl
      rw [hfirst, remove_eq_filter hnodup' hclass', ih, List.filter_filter]
      refine List.filter_congr fun x _ => ?_
      rw [Bool.eq_iff_iff]
      simp

end Lists

namespace Site

-- Merging takes in what the size so far admits.
theorem exists_absorbs (z : Site) :
    ∃ xs' prev next ys', Absorbs z.left.reverse z.size z.right xs' prev next ys' ∧
      z.merge = ⟨xs'.reverse, prev.elim z.offset (·.offset),
        z.size + next.elim 0 (·.size) + prev.elim 0 (·.size), ys',
        z.lists.removeAll (prev.toList ++ next.toList)⟩ := by
  obtain ⟨next, ys', hright, hnext, hnext_iff⟩ := exists_mergeable z.size z.right
  obtain ⟨prev, rest, hleft, hprev, hprev_iff⟩ :=
    exists_mergeable (z.size + next.elim 0 (·.size)) z.left
  have hsite : z.mergeNext = ⟨z.left, z.offset, z.size + next.elim 0 (·.size), ys',
      z.lists.removeAll next.toList⟩ := by
    rw [mergeNext, hnext]
    cases next with
    | none =>
        rw [show ys' = z.right from hright.symm]
        rfl
    | some j => rfl
  refine ⟨rest.reverse, prev, next, ys', ⟨?_, hright, hnext_iff, ?_⟩, ?_⟩
  · rw [hleft, List.reverse_append]
    cases prev <;> rfl
  · rw [List.getLast?_reverse]
    exact hprev_iff
  · rw [merge, hsite, mergePrev, hprev, List.reverse_reverse]
    cases prev with
    | none =>
        rw [show z.left = rest from hleft]
        rfl
    | some i => rfl

end Site

theorem Absorbs.sum_eq (h : Absorbs xs size ys xs' prev next ys') (i : BlockInfo)
    (hi : i.size = prev.elim 0 (·.size) + size + next.elim 0 (·.size)) (allocated : Bool) :
    ((xs' ++ i :: ys').map (·.size)).sum = ((xs ++ ⟨b, size, allocated⟩ :: ys).map (·.size)).sum := by
  have hsum : ∀ n : Option BlockInfo, (n.toList.map (·.size)).sum = n.elim 0 (·.size) := by
    rintro (_ | n)
    · rfl
    · simp
  simp only [h.before, h.behind, List.map_append, List.sum_append, List.map_cons, List.sum_cons, hsum, hi]
  omega

-- All blocks on either side have been there before.
theorem Absorbs.mem (h : Absorbs xs size ys xs' prev next ys') (j : BlockInfo) {i : BlockInfo}
    (hi : i ∈ xs' ++ ys' ∨ i ∈ prev.toList ++ next.toList) : i ∈ xs ++ j :: ys := by
  rw [h.before, h.behind]
  simp only [List.mem_append, List.mem_cons] at hi ⊢
  tauto

namespace Heap

variable {h h' : Heap} {merged : BlockInfo}

-- The tags and lists of the new heap are told by its blocks and by the order of its lists.
theorem Absorbed.of_chain (hconsistent : h.Consistent (xs ++ ⟨b, size, true⟩ :: ys))
    (habsorbs : Absorbs xs size ys xs' prev next ys') (hconsistent' : h'.Consistent (xs' ++ merged :: ys'))
    (hlength : h'.memory.size = h.memory.size) (hfree : merged.allocated = false)
    (hoffset : merged.offset = prev.elim b (·.offset))
    (hsize : merged.size = prev.elim 0 (·.size) + size + next.elim 0 (·.size))
    (hchain : ∀ c, h'.index.chain c = (if c = .ofSize merged.size then [merged.offset] else []) ++
      (h.index.chain c).filter fun x => x ∉ (prev.toList ++ next.toList).map (·.offset)) :
    h.Absorbed b size xs' prev next ys' h' merged := by
  have hself : merged ∈ xs' ++ merged :: ys' := List.mem_append_right _ List.mem_cons_self
  have hold : ∀ i ∈ xs' ++ ys', i ∈ xs ++ ⟨b, size, true⟩ :: ys := fun i hi =>
    habsorbs.mem _ (.inl hi)
  have hnew : ∀ i ∈ xs' ++ ys', i ∈ xs' ++ merged :: ys' := by
    simpa using fun i hi => hi.imp_right .inr
  refine ⟨hconsistent', hlength, hfree, hoffset, hsize, (hconsistent'.sound.laid.proper _ hself).size_le,
    hconsistent'.count_chain hself hfree, hchain, ?_, ?_, ?_, ?_⟩
  · intro i hi c hmem
    rw [hchain] at hmem
    rcases List.mem_append.mp hmem with hmem | hmem
    · split at hmem
      · rename_i hc
        exact ⟨List.mem_singleton.mp hmem, hc⟩
      · cases hmem
    · have hnotMem := (List.mem_filter.mp hmem).2
      exact absurd (List.mem_map_of_mem hi) (of_decide_eq_true hnotMem)
  · intro i hi
    have htags := hconsistent.sound.laid.tagged i (hold i hi)
    have htags' := hconsistent'.sound.laid.tagged i (hnew i hi)
    exact ⟨htags'.header.trans htags.header.symm, htags'.readTag_footer.trans htags.readTag_footer.symm⟩
  · intro i hi c
    rw [hconsistent'.mem_chain_iff (hnew i hi), hconsistent.mem_chain_iff (hold i hi)]
  · intro i hi hi'
    obtain ⟨-, hbehind, hbetween⟩ := List.isChain_append.mp hconsistent'.apart
    rcases hi with hi | hi
    · rw [Nat.add_comm]
      exact hbetween i hi merged rfl hi' hfree
    · exact (List.isChain_cons.mp hbehind).1 i hi hfree hi'

theorem Consistent.exists_absorbed (hconsistent : h.Consistent (xs ++ ⟨b, size, true⟩ :: ys)) :
    ∃ h' xs' prev next ys' merged, h.release b = .ok h' ∧ Absorbs xs size ys xs' prev next ys' ∧
      h.Absorbed b size xs' prev next ys' h' merged := by
  have ho := Outline.Depicts.of_sound hconsistent.sound
  obtain ⟨hbefore, hsize, hbehind⟩ := ho.split rfl
  obtain ⟨h', hrelease, hreaches⟩ := ho.release (List.mem_append_right _ List.mem_cons_self)
  dsimp only at hbefore hsize hbehind
  rw [Outline.release, hbefore, hsize, hbehind] at hreaches
  let z : Site := ⟨xs.reverse, b, size, ys, h.index.chain⟩
  obtain ⟨xs', prev, next, ys', habsorbs, hmerge⟩ := z.exists_absorbs
  have habsorbs : Absorbs xs size ys xs' prev next ys' := by
    rwa [List.reverse_reverse] at habsorbs
  let merged : BlockInfo := ⟨z.merge.offset, z.merge.size, false⟩
  have htotal : merged.size = prev.elim 0 (·.size) + size + next.elim 0 (·.size) := by
    have hsum : merged.size = size + next.elim 0 (·.size) + prev.elim 0 (·.size) :=
      congrArg Site.size hmerge
    omega
  have hblocks : z.merge.blocks false = xs' ++ merged :: ys' := by
    simp only [Site.blocks, merged, hmerge, List.reverse_reverse]
  have hapart : Apart (z.blocks true) := by
    rw [Site.blocks, List.reverse_reverse]
    exact hconsistent.apart
  have hconsistent' : h'.Consistent (xs' ++ merged :: ys') :=
    hblocks ▸ hreaches.depicts.sound.consistent (Site.apart_merge_of_blocks hapart)
  refine ⟨h', xs', prev, next, ys', merged, hrelease, habsorbs,
    .of_chain hconsistent habsorbs hconsistent' ?_ rfl (congrArg Site.offset hmerge) htotal fun c => ?_⟩
  · refine hreaches.size_eq ho 0 ?_
    exact (congrArg (fun bs => (bs.map (·.size)).sum) hblocks).trans (habsorbs.sum_eq merged htotal true)
  · have hlists : z.merge.lists = Lists.removeAll h.index.chain (prev.toList ++ next.toList) :=
      congrArg Site.lists hmerge
    have hclass : ∀ i ∈ prev.toList ++ next.toList, ∀ c, i.offset ∈ h.index.chain c → c = .ofSize i.size :=
      fun i hi c hmem => ((hconsistent.mem_chain_iff (habsorbs.mem _ (.inr hi)) c).mp hmem).2
    rw [show h'.index.chain c = z.merge.filedLists c from hreaches.depicts.sound.holds.chain_eq c,
      Site.filedLists, Lists.insert, hlists,
      Lists.removeAll_eq_filter hconsistent.sound.holds.nodup hclass]
    split <;> rfl

end Heap

namespace Allocator

variable {ρ : Type} {a : Allocator ρ}

-- Giving a block back to a heap that keeps its invariants always succeeds and keeps them, and the block has
-- then grown by the free neighbours that a tag allows.
theorem free_absorbs (hconsistent : a.heap.Consistent (xs ++ ⟨b, size, true⟩ :: ys)) :
    ∃ h' xs' prev next ys' merged, (a.free (some b)).result = .ok ⟨h', a.reserve, a.chunk⟩ ∧
      Absorbs xs size ys xs' prev next ys' ∧ a.heap.Absorbed b size xs' prev next ys' h' merged := by
  obtain ⟨h', xs', prev, next, ys', merged, hrelease, habsorbs, habsorbed⟩ := hconsistent.exists_absorbed
  refine ⟨h', xs', prev, next, ys', merged, ?_, habsorbs, habsorbed⟩
  simp [free, update, hrelease]

-- Half of what a tag can say stands before a little more than that, and the two stay apart.
theorem free_absorbs_half : ∃ (a : Allocator Arena) (h' : Heap),
    a.heap.Consistent [⟨16, 2147483648, false⟩, ⟨2147483664, 2147483656, true⟩] ∧
      (a.free (some 2147483664)).result = .ok ⟨h', a.reserve, a.chunk⟩ ∧
      h'.Consistent [⟨16, 2147483648, false⟩, ⟨2147483664, 2147483656, false⟩] := by
  have hneed : blockSizeFor 2147483648 = some 2147483656 := rfl
  obtain ⟨-, h₁, ls₁, -, -, hsound₁⟩ := Client.exists_behind (.withLimit 4096 4294967328)
    ⟨2147483648, by decide, by decide, by decide⟩ hneed (by decide) (by decide) (by decide)
  have hapart : Apart ([⟨16, 2147483648, false⟩] ++ ⟨2147483664, 2147483656, true⟩ :: []) :=
    (Apart.append_used rfl).mpr ⟨List.isChain_singleton _, List.isChain_nil⟩
  have hconsistent : h₁.Consistent ([⟨16, 2147483648, false⟩] ++ ⟨2147483664, 2147483656, true⟩ :: []) :=
    hsound₁.consistent hapart
  obtain ⟨h', xs', prev, next, ys', merged, hfree, habsorbs, habsorbed⟩ :=
    free_absorbs (a := ⟨h₁, Arena.withLimit 4096 4294967328, .default⟩) hconsistent
  obtain rfl : next = none := Option.eq_none_iff_forall_ne_some.mpr fun j hj =>
    nomatch ((habsorbs.next_iff j).mp hj).1
  obtain rfl : prev = none := Option.eq_none_iff_forall_ne_some.mpr fun i hi => by
    obtain ⟨hlast, -, hmax⟩ := (habsorbs.prev_iff i).mp hi
    obtain rfl := Option.some.inj hlast
    exact absurd hmax (by decide)
  obtain rfl : [⟨16, 2147483648, false⟩] = xs' := by simpa using habsorbs.before
  obtain rfl : [] = ys' := habsorbs.behind
  obtain ⟨offset, size, allocated⟩ := merged
  obtain rfl : offset = 2147483664 := habsorbed.offset
  obtain rfl : size = 0 + 2147483656 + 0 := habsorbed.size
  obtain rfl : allocated = false := habsorbed.free
  exact ⟨_, h', hconsistent, hfree, habsorbed.consistent⟩

end Allocator

end SegregatedFit
