import SegregatedFit.Proofs.Heap.Adjacency
import SegregatedFit.Proofs.Heap.BlockWalk
import SegregatedFit.Proofs.Heap.Walk

/-!
Intact heaps. What the check of the blocks accepts is said here without it: the blocks fill the memory from
the prologue up to the epilogue, each of them stands by itself, and no two neighbours could still be merged.
The walk of the check and that of the allocator meet the same blocks there.
-/

namespace SegregatedFit.Heap

variable {m : Memory} {base start free b n : Nat} {t : Tag} {i j : BlockInfo} {xs bs : List BlockInfo}
  {visited : List Nat} {verdict : Except Corruption Nat} {h : Heap}

-- A block that is large enough, in a place where one may be, and has the same tag word at both ends.
structure Standing (m : Memory) (base : Nat) (i : BlockInfo) : Prop where
  size_ge : minBlockSize ≤ i.size
  aligned : (base + i.offset) % alignment = 0
  tagged : m.Tagged i

theorem Standing.bounded (hstanding : Standing m base i) (hpad : 4 ≤ i.offset)
    (hinside : i.offset + i.size ≤ m.size) : Bounded m base i.offset i.tag :=
  ⟨Block.tag_eq hpad hstanding.tagged.header, hstanding.aligned, hstanding.size_ge, hinside⟩

-- It passes when the block behind it is one that it cannot be merged with.
theorem Standing.pass (hstanding : Standing m base i) (hpad : 4 ≤ i.offset)
    (hinside : i.offset + i.size ≤ m.size) (hafter : Block.tag m (i.offset + i.size) = .ok j.tag)
    (hsettled : i.Settled j) : BlockTest m base i.offset (.ok (some i.tag)) := by
  obtain ⟨word, hword, hword', -⟩ := hstanding.tagged.exists_word
  refine .pass (hstanding.bounded hpad hinside) hword hword' fun hfree => ⟨j.tag, hafter, ?_⟩
  rintro ⟨-, hfree', hmax⟩
  exact Nat.not_lt_of_le hmax (hsettled hfree (Bool.eq_false_iff.mpr hfree'))

theorem BlockTest.standing (htest : BlockTest m base b (.ok (some t))) :
    Standing m base ⟨b, t.size, t.allocated⟩ := by
  cases htest with
  | pass hbounded hfront hback hsettled =>
      obtain ⟨-, word, hword, htag⟩ := Block.tag_eq_ok_iff.mp hbounded.tag
      obtain rfl := Except.ok.inj (hword.symm.trans hfront)
      exact ⟨hbounded.size_ge, hbounded.aligned, .of_words hword hback htag⟩

theorem BlockTest.settled (htest : BlockTest m base b (.ok (some t)))
    (hafter : Block.tag m (b + t.size) = .ok j.tag) (hsize : j.size ≠ 0) :
    BlockInfo.Settled ⟨b, t.size, t.allocated⟩ j := by
  intro hfree hfree'
  cases htest with
  | pass hbounded hfront hback hsettled =>
      obtain ⟨after, hafter', hgood⟩ := hsettled hfree
      obtain rfl := Except.ok.inj (hafter.symm.trans hafter')
      exact Nat.lt_of_not_le fun hmax => hgood ⟨hsize, Bool.eq_false_iff.mp hfree', hmax⟩

-- The blocks `bs` from `start` on, and the epilogue behind them, make up the rest of the memory.
structure Filled (m : Memory) (base start : Nat) (bs : List BlockInfo) : Prop where
  tiles : Tiles start bs m.size
  standing : ∀ i ∈ bs, Standing m base i
  apart : Apart bs
  epilogue : m.readTag (m.size - 4) = .ok .epilogue

-- A walk that reaches the end has met such blocks, and has counted the free ones.
theorem BlockWalk.filled (hwalk : BlockWalk m base start free visited (.ok n)) :
    ∃ bs, Filled m base start bs ∧ n = free + bs.countP (!·.allocated) := by
  generalize hverdict : (Except.ok n : Except Corruption Nat) = verdict at hwalk
  induction hwalk with
  | fail htest => cases hverdict
  | finish htest =>
      obtain rfl := Except.ok.inj hverdict
      cases htest with
      | @finish t htag hzero hend =>
          obtain ⟨hused, rfl⟩ := hend
          obtain ⟨-, word, hword, rfl⟩ := Block.tag_eq_ok_iff.mp htag
          have hepilogue : Tag.unpack word = .epilogue := congrArg₂ Tag.mk hzero hused
          exact ⟨[], ⟨rfl, by simp, .nil, Memory.readTag_eq_ok_iff.mpr ⟨word, hword, hepilogue⟩⟩, rfl⟩
  | @step b free t visited verdict htest hrest ih =>
      obtain ⟨bs, hfilled, rfl⟩ := ih hverdict
      refine ⟨⟨b, t.size, t.allocated⟩ :: bs, ⟨⟨rfl, hfilled.tiles⟩, ?_, ?_, hfilled.epilogue⟩, ?_⟩
      · intro i hi
        rcases List.mem_cons.mp hi with rfl | hi
        · exact htest.standing
        · exact hfilled.standing i hi
      · refine List.isChain_cons.mpr ⟨fun j hj => ?_, hfilled.apart⟩
        have hmem := List.mem_of_head? hj
        have hoffset : j.offset = b + t.size := by
          cases bs with
          | nil => cases hmem
          | cons k bs =>
              obtain rfl := Option.some.inj hj
              exact hfilled.tiles.1
        have hstanding := hfilled.standing j hmem
        have hpad := (Block.tag_bounds htest.bounded.tag).1
        have hafter := Block.tag_eq (by omega) hstanding.tagged.header
        rw [hoffset] at hafter
        exact htest.settled hafter (Nat.ne_zero_of_lt hstanding.size_ge)
      · rw [List.countP_cons]
        cases t.allocated <;> simp [Nat.add_assoc, Nat.add_comm]

-- The walk passes the blocks in front of the block `j`, and counts the free ones.
theorem BlockWalk.of_front (htiles : Tiles start xs j.offset) (hstart : 4 ≤ start) (hstop : j.offset ≤ m.size)
    (hstanding : ∀ i ∈ xs, Standing m base i) (hapart : Apart (xs ++ [j]))
    (htag : Block.tag m j.offset = .ok j.tag)
    (hrest : BlockWalk m base j.offset (free + xs.countP (!·.allocated)) visited verdict) :
    ∃ visited', BlockWalk m base start free visited' verdict := by
  induction xs generalizing start free with
  | nil =>
      obtain rfl : start = j.offset := htiles
      exact ⟨visited, hrest⟩
  | cons i xs ih =>
      obtain ⟨rfl, htiles⟩ := htiles
      obtain ⟨hsettled, hapart⟩ := List.isChain_cons.mp hapart
      have hself := hstanding i List.mem_cons_self
      have hafter : ∃ k ∈ (xs ++ [j]).head?, Block.tag m (i.offset + i.size) = .ok k.tag := by
        cases xs with
        | nil =>
            have hoffset : i.offset + i.size = j.offset := htiles
            exact ⟨j, rfl, hoffset ▸ htag⟩
        | cons k xs =>
            have hoffset := htiles.1
            have htag := Block.tag_eq (by omega) (hstanding k (by simp)).tagged.header
            exact ⟨k, rfl, hoffset ▸ htag⟩
      obtain ⟨k, hk, hafter⟩ := hafter
      have htest := hself.pass hstart (Nat.le_trans htiles.le hstop) hafter (hsettled k hk)
      have hcount : free + (i :: xs).countP (!·.allocated) =
          free + (if i.tag.allocated then 0 else 1) + xs.countP (!·.allocated) := by
        rw [List.countP_cons, BlockInfo.tag]
        cases i.allocated <;> simp [Nat.add_assoc, Nat.add_comm]
      rw [hcount] at hrest
      obtain ⟨visited', hwalk⟩ := ih htiles (by omega) (fun i hi => hstanding i (List.mem_cons_of_mem _ hi))
        hapart hrest
      exact ⟨_, .step htest hwalk⟩

theorem Filled.tag_end (hfilled : Filled m base start bs) (hstart : 4 ≤ start) :
    Block.tag m m.size = .ok .epilogue :=
  Block.tag_eq (Nat.le_trans hstart hfilled.tiles.le) hfilled.epilogue

-- The epilogue counts as a block in use, of size zero.
theorem Filled.walk (hfilled : Filled m base start bs) (hstart : 4 ≤ start) (free : Nat) :
    ∃ visited, BlockWalk m base start free visited (.ok (free + bs.countP (!·.allocated))) := by
  have hend := hfilled.tag_end hstart
  have hapart : Apart (bs ++ [⟨m.size, 0, true⟩]) :=
    (Apart.append_used rfl).mpr ⟨hfilled.apart, .nil⟩
  exact BlockWalk.of_front hfilled.tiles hstart (Nat.le_refl _) hfilled.standing hapart hend
    (.finish (.finish hend rfl ⟨rfl, rfl⟩))

-- A heap whose prologue is as it was set up, and that the blocks `bs` fill.
structure Intact (h : Heap) (base : Nat) (bs : List BlockInfo) : Prop where
  seeded : Seeded h.memory h.prologue
  header : h.memory.readTag (h.prologue - 4) = .ok (.used overhead)
  footer : h.memory.readTag h.prologue = .ok (.used overhead)
  filled : Filled h.memory base (h.prologue + 8) bs

theorem checkBlocks_eq_ok_iff : h.checkBlocks base = .ok (.ok n) ↔
    ∃ bs, h.Intact base bs ∧ bs.countP (!·.allocated) = n := by
  refine checkBlocks_eq_ok_iff_walk.trans ⟨?_, ?_⟩
  · rintro ⟨hseeded, hheader, hfooter, visited, hwalk⟩
    obtain ⟨bs, hfilled, rfl⟩ := hwalk.filled
    exact ⟨bs, ⟨hseeded, hheader, hfooter, hfilled⟩, (Nat.zero_add _).symm⟩
  · rintro ⟨bs, ⟨hseeded, hheader, hfooter, hfilled⟩, rfl⟩
    obtain ⟨visited, hwalk⟩ := hfilled.walk (by omega) 0
    rw [Nat.zero_add] at hwalk
    exact ⟨hseeded, hheader, hfooter, visited, hwalk⟩

theorem Bounded.proper (hbounded : Bounded m base i.offset i.tag) : i.Proper := by
  obtain ⟨-, -, hmax, haligned⟩ := Block.tag_bounds hbounded.tag
  exact ⟨haligned, hbounded.size_ge, hmax⟩

theorem Intact.bounded (hintact : h.Intact base bs) (hi : i ∈ bs) :
    Bounded h.memory base i.offset i.tag := by
  have hbounds := hintact.filled.tiles.bounds hi
  exact (hintact.filled.standing i hi).bounded (by omega) hbounds.2

-- A heap that is laid out is intact when its blocks are apart.
theorem intact_of_laid (hlaid : Laid h.memory h.prologue bs) (hbase : base % 8 = 0) (hapart : Apart bs) :
    h.Intact base bs := by
  have hpad := hlaid.pad
  refine ⟨⟨by omega, hlaid.tiles.le⟩, hlaid.prologueHeader, hlaid.prologueFooter, hlaid.tiles, fun i hi => ?_, hapart,
    hlaid.epilogue⟩
  have hbounds := hlaid.mem_bounds hi
  refine ⟨(hlaid.proper i hi).le_size, ?_, hlaid.tagged i hi⟩
  simp only [alignment]
  omega

-- The walk of the allocator meets the blocks that the check has met.
theorem Intact.blocks_eq (hintact : h.Intact base bs) : h.blocks = .ok bs :=
  blocks_of_trail <| trail_of_tiles (Block.tag_eq hintact.seeded.pad hintact.header) hintact.filled.tiles
    (fun _ hi => (hintact.bounded hi).tag) (fun _ hi => (hintact.bounded hi).proper)
    (hintact.filled.tag_end (by omega))

end SegregatedFit.Heap
