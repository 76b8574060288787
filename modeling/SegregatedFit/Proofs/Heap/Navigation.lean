import SegregatedFit.Proofs.Heap.Layout
import Mathlib.Order.Interval.Finset.Nat

/-!
Adjacent blocks. A block is written at its two ends and nowhere else, so that the blocks of a run can be
written in any order, and what has been written leads from each block to the next and back again.
-/

namespace SegregatedFit

variable {m m' : Memory} {bs order : List BlockInfo} {i j : BlockInfo} {start stop : Nat}

namespace BlockInfo

-- A tag can hold the size, and there is room for a header and a footer. The prologue has no more than that.
structure Taggable (i : BlockInfo) : Prop where
  aligned : i.size % alignment = 0
  le_size : overhead ≤ i.size
  size_le : i.size ≤ maxBlockSize

theorem Taggable.bounds (h : i.Taggable) : i.size % 8 = 0 ∧ 8 ≤ i.size ∧ i.size ≤ 4294967288 :=
  ⟨h.aligned, h.le_size, h.size_le⟩

instance : Decidable i.Taggable :=
  decidable_of_iff (i.size % alignment = 0 ∧ overhead ≤ i.size ∧ i.size ≤ maxBlockSize)
    ⟨fun ⟨h, h', h''⟩ => ⟨h, h', h''⟩, fun ⟨h, h', h''⟩ => ⟨h, h', h''⟩⟩

-- The bytes of the header and of the footer.
def words (i : BlockInfo) : Finset Nat :=
  Finset.Ico (i.offset - 4) i.offset ∪ Finset.Ico (i.offset + i.size - 8) (i.offset + i.size - 4)

theorem not_mem_words {x : Nat} : x ∉ i.words ↔ (x < i.offset - 4 ∨ i.offset ≤ x) ∧
    (x < i.offset + i.size - 8 ∨ i.offset + i.size - 4 ≤ x) := by
  simp only [words, Finset.mem_union, Finset.mem_Ico]
  omega

end BlockInfo

namespace Block

-- The blocks that `count` steps lead through, the first and the last included.
def places (step : Block → Except Fault Block) : (count : Nat) → Block → Except Fault (List Block)
  | 0, b => return [b]
  | count + 1, b => return b :: (← places step count (← step b))

end Block

namespace Memory

-- What the accessors answer on both sides of a block.
structure Legible (m : Memory) (i : BlockInfo) : Prop where
  tag : Block.tag m i.offset = .ok i.tag
  footerTag : Block.footerTag m i.offset = .ok i.tag
  size : Block.size m i.offset = .ok i.size
  next : Block.next m i.offset = .ok (i.offset + i.size)
  prevTag : Block.prevTag m (i.offset + i.size) = .ok i.tag
  prev : Block.prev m (i.offset + i.size) = .ok i.offset

theorem Tagged.legible (h : m.Tagged i) (hoffset : 8 ≤ i.offset) : m.Legible i := by
  have htag : Block.tag m i.offset = .ok i.tag := Block.tag_eq (by omega) h.header
  have hsize : Block.size m i.offset = .ok i.size := Block.size_eq htag
  have hprevTag : Block.prevTag m (i.offset + i.size) = .ok i.tag :=
    Block.prevTag_eq (by omega) h.readTag_footer
  have hprev : Block.prev m (i.offset + i.size) = .ok (i.offset + i.size - i.size) :=
    Block.prev_eq hprevTag (Nat.le_add_left ..)
  exact {
    tag := htag
    footerTag := Block.footerTag_eq hsize (by omega) h.readTag_footer
    size := hsize
    next := Block.next_eq hsize
    prevTag := hprevTag
    prev := by rwa [Nat.add_sub_cancel] at hprev }

-- Two memories that differ at most in the two words of `i`.
def SameBeside (m m' : Memory) (i : BlockInfo) : Prop := ∀ x ∉ i.words, m'.bytes[x]? = m.bytes[x]?

-- Everything a block has in its words lies before, or behind, the words of a block beside it.
theorem Tagged.beside (h : m.Tagged j) (hsame : m.SameBeside m' i) (hi : i.Taggable) (hj : j.Taggable)
    (hoffset : 8 ≤ j.offset)
    (hapart : i.offset + i.size ≤ j.offset ∨ j.offset + j.size ≤ i.offset) : m'.Tagged j := by
  have hsize := hi.bounds
  have hsize' := hj.bounds
  have hwithin : m.SameOff m' (i.offset - 4) (i.offset + i.size - 4) := fun x hx =>
    hsame x (BlockInfo.not_mem_words.mpr (by omega))
  exact h.frame hwithin (by omega) (by omega)

end Memory

theorem Block.exists_write_taggable (m : Memory) (hoffset : 8 ≤ i.offset) (hi : i.Taggable)
    (hfit : i.offset + i.size ≤ m.size) :
    ∃ m', Block.write m i.offset i.tag = .ok m' ∧ m'.size = m.size ∧ m'.Tagged i ∧
      m.SameBeside m' i := by
  have hsize := hi.bounds
  obtain ⟨m', hwrite, hsize', htagged, hsame⟩ := Block.exists_write m i.offset i.size i.allocated
    (by omega) hi.aligned (by omega) hi.size_le (by omega)
  refine ⟨m', hwrite, hsize', htagged, fun x hx => ?_⟩
  obtain ⟨hheader, hfooter⟩ := BlockInfo.not_mem_words.mp hx
  exact hsame x hheader hfooter

-- A later write finds every earlier block beside it, or writes the same block once more.
theorem Block.exists_writes (m : Memory) (order : List BlockInfo)
    (hfits : ∀ i ∈ order, 8 ≤ i.offset ∧ i.Taggable ∧ i.offset + i.size ≤ m.size)
    (hapart : ∀ i ∈ order, ∀ j ∈ order, i ≠ j →
      i.offset + i.size ≤ j.offset ∨ j.offset + j.size ≤ i.offset) :
    ∃ m', order.foldlM (fun m i => Block.write m i.offset i.tag) m = .ok m' ∧ m'.size = m.size ∧
      (∀ i ∈ order, m'.Tagged i) ∧
      ∀ x, (∀ i ∈ order, x ∉ i.words) → m'.bytes[x]? = m.bytes[x]? := by
  induction order using List.reverseRecOn with
  | nil => exact ⟨m, rfl, rfl, by simp, fun _ _ => rfl⟩
  | append_singleton earlier i ih =>
      have hmem : ∀ {j}, j ∈ earlier → j ∈ earlier ++ [i] := List.mem_append_left _
      have hi : i ∈ earlier ++ [i] := by simp
      obtain ⟨m₁, hearlier, hsize₁, htagged₁, hsame₁⟩ := ih (fun j hj => hfits j (hmem hj))
        fun j hj k hk => hapart j (hmem hj) k (hmem hk)
      obtain ⟨hoffset, htaggable, hfit⟩ := hfits i hi
      obtain ⟨m₂, hwrite, hsize₂, htagged₂, hsame₂⟩ :=
        exists_write_taggable m₁ hoffset htaggable (hsize₁ ▸ hfit)
      refine ⟨m₂, ?_, hsize₂.trans hsize₁, fun j hj => ?_, fun x hx => ?_⟩
      · simp [List.foldlM_append, hearlier, hwrite]
      · by_cases hne : i = j
        · exact hne ▸ htagged₂
        have hj' : j ∈ earlier := by
          rcases List.mem_append.mp hj with hj | hj
          · exact hj
          · exact absurd (List.mem_singleton.mp hj).symm hne
        obtain ⟨hoffset', htaggable', -⟩ := hfits j hj
        exact (htagged₁ j hj').beside hsame₂ htaggable htaggable' hoffset' (hapart i hi j hj hne)
      · rw [hsame₂ x (hx i hi), hsame₁ x fun j hj => hx j (hmem hj)]

namespace Tiles

theorem places_next (h : Tiles start bs stop) (hlegible : ∀ i ∈ bs, m.Legible i) :
    Block.places (Block.next m) bs.length start = .ok (bs.map (·.offset) ++ [stop]) := by
  induction bs generalizing start with
  | nil =>
      obtain rfl : start = stop := h
      rfl
  | cons i bs ih =>
      obtain ⟨rfl, hrest⟩ := h
      have hlater := ih hrest fun j hj => hlegible j (List.mem_cons_of_mem _ hj)
      simp only [List.length_cons, Block.places, (hlegible i List.mem_cons_self).next]
      simp [hlater]

theorem places_prev (h : Tiles start bs stop) (hlegible : ∀ i ∈ bs, m.Legible i) :
    Block.places (Block.prev m) bs.length stop = .ok (bs.map (·.offset) ++ [stop]).reverse := by
  induction bs using List.reverseRecOn generalizing stop with
  | nil => rfl
  | append_singleton bs i ih =>
      obtain ⟨_, hearlier, rfl, hstop⟩ := tiles_append.mp h
      obtain rfl : i.offset + i.size = stop := hstop
      have hback := ih hearlier fun j hj => hlegible j (List.mem_append_left _ hj)
      simp only [List.length_append, List.length_singleton, Block.places,
        (hlegible i (by simp)).prev]
      simp [hback]

end Tiles

-- Writing a block and going from block to block. The blocks of a run may be written in any order, also
-- more than once.
theorem Block.navigable_of_write :
    (∀ (m : Memory) (i : BlockInfo), 8 ≤ i.offset → i.Taggable → i.offset + i.size ≤ m.size →
      ∃ m', Block.write m i.offset i.tag = .ok m' ∧ m'.size = m.size ∧
        (∀ x ∉ i.words, m'.bytes[x]? = m.bytes[x]?) ∧ m'.Legible i) ∧
    ∀ (m : Memory) (start stop : Nat) (bs order : List BlockInfo), 8 ≤ start → Tiles start bs stop →
      stop ≤ m.size → (∀ i ∈ bs, i.Taggable) → (∀ i, i ∈ order ↔ i ∈ bs) →
      ∃ m', order.foldlM (fun m i => Block.write m i.offset i.tag) m = .ok m' ∧ m'.size = m.size ∧
        (∀ x, (∀ i ∈ bs, x ∉ i.words) → m'.bytes[x]? = m.bytes[x]?) ∧ (∀ i ∈ bs, m'.Legible i) ∧
        ∃ route, route = bs.map (·.offset) ++ [stop] ∧
          Block.places (Block.next m') bs.length start = .ok route ∧
          Block.places (Block.prev m') bs.length stop = .ok route.reverse := by
  constructor
  · intro m i hoffset htaggable hfit
    obtain ⟨m', hwrite, hsize, htagged, hsame⟩ := exists_write_taggable m hoffset htaggable hfit
    exact ⟨m', hwrite, hsize, hsame, htagged.legible hoffset⟩
  · intro m start stop bs order hstart htiles hstop htaggable horder
    have hoffset : ∀ i ∈ bs, 8 ≤ i.offset := fun i hi => hstart.trans (htiles.bounds hi).1
    obtain ⟨m', hwrites, hsize, htagged, hsame⟩ := exists_writes m order
      (fun i hi => by
        rw [horder] at hi
        exact ⟨hoffset i hi, htaggable i hi, (htiles.bounds hi).2.trans hstop⟩)
      (fun i hi j hj => htiles.disjoint ((horder i).mp hi) ((horder j).mp hj))
    have hlegible : ∀ i ∈ bs, m'.Legible i := fun i hi =>
      (htagged i ((horder i).mpr hi)).legible (hoffset i hi)
    refine ⟨m', hwrites, hsize, fun x hx => ?_, hlegible, _, rfl, htiles.places_next hlegible,
      htiles.places_prev hlegible⟩
    exact hsame x fun i hi => hx i ((horder i).mp hi)

-- A block of eight bytes is all header and footer; it is written first and read last.
theorem Block.navigable_of_three_writes :
    (∃ m, Block.write (.zeroed 64) 8 ⟨24, true⟩ = .ok m ∧ Block.next m 8 = .ok 32 ∧
      Block.prev m 32 = .ok 8) ∧
    ∃ m, [⟨48, 8, true⟩, ⟨8, 24, true⟩, ⟨32, 16, false⟩].foldlM
        (fun m (i : BlockInfo) => Block.write m i.offset i.tag) (.zeroed 64) = .ok m ∧
      m.bytes[16]? = some 0 ∧ Block.places (Block.next m) 3 8 = .ok [8, 32, 48, 56] ∧
      Block.places (Block.prev m) 3 56 = .ok [56, 48, 32, 8] := by
  obtain ⟨hsingle, hrun⟩ := Block.navigable_of_write
  constructor
  · obtain ⟨m, hwrite, -, -, hlegible⟩ := hsingle (.zeroed 64) ⟨8, 24, true⟩ (by decide)
      (by decide) (by decide)
    exact ⟨m, hwrite, hlegible.next, hlegible.prev⟩
  · obtain ⟨m, hwrites, -, hsame, -, route, rfl, hforward, hbackward⟩ := hrun (.zeroed 64) 8 56
      [⟨8, 24, true⟩, ⟨32, 16, false⟩, ⟨48, 8, true⟩] [⟨48, 8, true⟩, ⟨8, 24, true⟩, ⟨32, 16, false⟩]
      (by decide) ⟨rfl, rfl, rfl, rfl⟩ (by decide) (by decide)
      fun _ => List.Perm.mem_iff (by decide)
    refine ⟨m, hwrites, ?_, hforward, hbackward⟩
    rw [hsame 16 (by decide)]
    rfl

end SegregatedFit
