import SegregatedFit.Proofs.Heap.Intact

/-!
Damage to an intact heap. One word has been overwritten: the blocks in front of it stand as before, though
the last of them may now have a free block behind it, and the place where the word is read as a header is no
longer one that the walk passes, or where it may end.
-/

namespace SegregatedFit.Heap

variable {m m' : Memory} {base start b pos lo hi : Nat} {i : BlockInfo} {xs bs : List BlockInfo} {h h' : Heap}
  {word header : UInt32}

-- Overwrites one word of the region.
def forge : Heap → (pos : Nat) → UInt32 → Except Fault Heap
  | ⟨memory, index, prologue⟩, pos, word => return ⟨← memory.writeWord pos word, index, prologue⟩

theorem exists_forge (h : Heap) (word : UInt32) (hpos : pos + 4 ≤ h.memory.size) :
    ∃ h', h.forge pos word = .ok h' := by
  obtain ⟨m', hwrite⟩ := Memory.writeWord_isOk_iff.mpr hpos
  exact ⟨⟨m', h.index, h.prologue⟩, by rw [forge, hwrite]; rfl⟩

-- What is left alone.
structure Forged (h h' : Heap) (pos : Nat) (word : UInt32) : Prop where
  prologue : h'.prologue = h.prologue
  size : h'.memory.size = h.memory.size
  read : h'.memory.readWord pos = .ok word
  same : h.memory.SameOff h'.memory pos (pos + 4)

theorem forged_of_forge (hforge : h.forge pos word = .ok h') : Forged h h' pos word := by
  obtain ⟨m', hwrite, hh'⟩ := bind_eq_ok_iff.mp hforge
  obtain rfl := Except.ok.inj hh'
  exact ⟨rfl, Memory.size_of_writeWord hwrite, Memory.readWord_of_writeWord hwrite,
    fun _ hi => Memory.byte_of_writeWord hwrite hi⟩

-- From `b` on the walk meets a violation.
def Reported (m : Memory) (base b : Nat) : Prop :=
  ∀ free, ∃ visited corruption, BlockWalk m base b free visited (.error corruption)

-- It does where it can neither end nor pass.
theorem reported_of_test (hb : 4 ≤ b) (hfinish : ¬BlockTest m base b (.ok none))
    (hpass : ∀ t, ¬BlockTest m base b (.ok (some t))) : Reported m base b := by
  intro free
  obtain ⟨found, htest⟩ := exists_blockTest m base hb
  cases found with
  | error corruption => exact ⟨_, corruption, .fail htest⟩
  | ok passed =>
      cases passed with
      | none => exact absurd htest hfinish
      | some t => exact absurd htest (hpass t)

-- All that there is to report of a block that stands is what is behind it.
theorem Standing.pass_or_uncoalesced (hstanding : Standing m base i) (hpad : 4 ≤ i.offset)
    (hinside : i.offset + i.size ≤ m.size) : BlockTest m base i.offset (.ok (some i.tag)) ∨
      BlockTest m base i.offset (.error (.uncoalesced i.offset)) := by
  have hbounded := hstanding.bounded hpad hinside
  obtain ⟨word, hword, hword', -⟩ := hstanding.tagged.exists_word
  obtain ⟨after, hafter⟩ := @exists_tag m (i.offset + i.size) (by omega) hinside
  by_cases hmerge : i.allocated = false ∧ after.size ≠ 0 ∧ ¬after.allocated ∧
      i.size + after.size ≤ maxBlockSize
  · exact .inr (.uncoalesced hbounded hword hword' hmerge.1 hafter hmerge.2)
  · exact .inl (.pass hbounded hword hword' fun hfree => ⟨after, hafter, fun hbad => hmerge ⟨hfree, hbad⟩⟩)

theorem Reported.of_front (htiles : Tiles start xs b) (hstart : 4 ≤ start) (hstop : b ≤ m.size)
    (hstanding : ∀ i ∈ xs, Standing m base i) (hrest : Reported m base b) : Reported m base start := by
  induction xs generalizing start with
  | nil =>
      obtain rfl : start = b := htiles
      exact hrest
  | cons i xs ih =>
      obtain ⟨rfl, htiles⟩ := htiles
      intro free
      have hinside := Nat.le_trans htiles.le hstop
      rcases (hstanding i List.mem_cons_self).pass_or_uncoalesced hstart hinside with htest | htest
      · obtain ⟨visited, corruption, hwalk⟩ := ih htiles (by omega)
          (fun j hj => hstanding j (List.mem_cons_of_mem i hj)) (free + if i.tag.allocated then 0 else 1)
        exact ⟨_, corruption, .step htest hwalk⟩
      · exact ⟨_, _, .fail htest⟩

-- A block stands as before when the change begins behind its footer.
theorem Standing.frame (hstanding : Standing m base i) (hsame : m.SameOff m' lo hi)
    (hlo : i.offset + i.size ≤ lo + 4) : Standing m' base i := by
  have hsize := hstanding.size_ge
  simp only [minBlockSize] at hsize
  exact ⟨hstanding.size_ge, hstanding.aligned, hstanding.tagged.frame hsame (by omega) (by omega)⟩

-- A word that is no header of the block `i`: another one for the same size, one whose size no block has, or
-- one whose block would end behind the memory.
def BadHeader (m : Memory) (i : BlockInfo) (header word : UInt32) : Prop :=
  (word ≠ header ∧ (Tag.unpack word).size = i.size) ∨ (Tag.unpack word).size < minBlockSize ∨
    m.size < i.offset + (Tag.unpack word).size

namespace Intact

-- The part of a heap in front of the block `i`.
theorem split (hintact : h.Intact base bs) (hi : i ∈ bs) :
    ∃ xs, Tiles (h.prologue + 8) xs i.offset ∧ (∀ j ∈ xs, Standing h.memory base j) ∧ Apart (xs ++ [i]) := by
  obtain ⟨xs, ys, rfl⟩ := List.append_of_mem hi
  obtain ⟨b, hx, hb, -⟩ := tiles_append.mp hintact.filled.tiles
  have hapart := hintact.filled.apart
  rw [List.append_cons] at hapart
  exact ⟨xs, hb ▸ hx, fun j hj => hintact.filled.standing j (List.mem_append_left _ hj),
    hapart.left_of_append⟩

theorem mem_bounds (hintact : h.Intact base bs) (hi : i ∈ bs) :
    12 ≤ i.offset ∧ 16 ≤ i.size ∧ i.offset + i.size ≤ h.memory.size := by
  have hpad := hintact.seeded.pad
  have hbounds := hintact.filled.tiles.bounds hi
  exact ⟨by omega, (hintact.filled.standing i hi).size_ge, hbounds.2⟩

-- The prologue is as before when the change begins behind the footers of the blocks `xs`.
theorem verdict_eq (hintact : h.Intact base bs) (hforged : Forged h h' pos word)
    (htiles : Tiles (h.prologue + 8) xs b) (hpos : b ≤ pos + 4) {visited : List Nat} {verdict : Except Corruption Nat}
    (hwalk : BlockWalk h'.memory base (h.prologue + 8) 0 visited verdict) :
    h'.checkBlocks base = .ok verdict := by
  obtain ⟨m', ix, p⟩ := h'
  obtain ⟨hpad, hinside⟩ := hintact.seeded
  have hle := htiles.le
  obtain ⟨rfl, hsize, -, hsame⟩ := hforged
  dsimp only at hle hsize hsame
  exact checkBlocks_of_walk ix ⟨hpad, hsize ▸ hinside⟩ (hsame.readTag hintact.header (by omega))
    (hsame.readTag hintact.footer (by omega)) hwalk

-- The check gets as far as the blocks that stand.
theorem error_of_reported (hintact : h.Intact base bs) (hforged : Forged h h' pos word)
    (htiles : Tiles (h.prologue + 8) xs b) (hstop : b ≤ h.memory.size) (hpos : b = pos + 4)
    (hstanding : ∀ i ∈ xs, Standing h.memory base i) (hrest : Reported h'.memory base b) :
    ∃ corruption, h'.checkBlocks base = .ok (.error corruption) := by
  have hpad := hintact.seeded.pad
  have hle := htiles.le
  have hfront : Reported h'.memory base (h.prologue + 8) :=
    hrest.of_front htiles (by omega) (hforged.size ▸ hstop) fun i hi =>
      (hstanding i hi).frame hforged.same (hpos ▸ (htiles.bounds hi).2)
  obtain ⟨visited, corruption, hwalk⟩ := hfront 0
  exact ⟨corruption, hintact.verdict_eq hforged htiles (Nat.le_of_eq hpos) hwalk⟩

-- A footer that is not the word of the header. What the walk sees in front of it has not changed.
theorem checkBlocks_of_footer (hintact : h.Intact base bs) (hi : i ∈ bs)
    (hforged : Forged h h' (i.offset + i.size - 8) word)
    (hheader : h.memory.readWord (i.offset - 4) = .ok header) (hne : word ≠ header) :
    h'.checkBlocks base = .ok (.error (.tagMismatch i.offset header word)) := by
  obtain ⟨xs, hx, hfront, hapart⟩ := hintact.split hi
  obtain ⟨hstart, hmin, hend⟩ := hintact.mem_bounds hi
  have hself := hintact.filled.standing i hi
  have hsize := hforged.size
  have htag : Block.tag h'.memory i.offset = .ok i.tag :=
    Block.tag_eq (by omega) (hforged.same.readTag hself.tagged.header (by omega))
  have hbounded : Bounded h'.memory base i.offset i.tag :=
    ⟨htag, hself.aligned, hself.size_ge, hsize ▸ hend⟩
  have hfail : BlockTest h'.memory base i.offset (.error (.tagMismatch i.offset header word)) :=
    .tagMismatch hbounded (hforged.same.readWord hheader (by omega)) hforged.read hne.symm
  have hstanding : ∀ j ∈ xs, Standing h'.memory base j := fun j hj =>
    (hfront j hj).frame hforged.same (by have := (hx.bounds hj).2; omega)
  have hpad := hintact.seeded.pad
  obtain ⟨visited, hwalk⟩ := BlockWalk.of_front hx (by omega) (by omega) hstanding hapart htag (.fail hfail)
  exact hintact.verdict_eq hforged hx (by omega) hwalk

theorem error_of_header (hintact : h.Intact base bs) (hi : i ∈ bs)
    (hforged : Forged h h' (i.offset - 4) word) (hheader : h.memory.readWord (i.offset - 4) = .ok header)
    (hbad : BadHeader h.memory i header word) :
    ∃ corruption, h'.checkBlocks base = .ok (.error corruption) := by
  obtain ⟨xs, hx, hfront, -⟩ := hintact.split hi
  obtain ⟨hstart, hmin, hend⟩ := hintact.mem_bounds hi
  have hsize := hforged.size
  refine hintact.error_of_reported hforged hx (by omega) (by omega) hfront ?_
  have htag : Block.tag h'.memory i.offset = .ok (Tag.unpack word) :=
    Block.tag_eq_ok_iff.mpr ⟨by omega, word, hforged.read, rfl⟩
  refine reported_of_test (by omega) (fun htest => ?_) fun t htest => ?_
  · cases htest with
    | finish _ _ hlast => omega
  · obtain rfl := Except.ok.inj (htest.bounded.tag.symm.trans htag)
    have hinside := htest.bounded.inside
    rcases hbad with ⟨hne, hkept⟩ | hsmall | hbeyond
    · -- the footer is still the old word
      obtain ⟨old, hold, hfooter, -⟩ := (hintact.filled.standing i hi).tagged.exists_word
      obtain rfl := Except.ok.inj (hold.symm.trans hheader)
      have hfooter := hforged.same.readWord hfooter (by omega)
      cases htest with
      | pass _ hfront hback _ =>
          obtain rfl := Except.ok.inj (hforged.read.symm.trans hfront)
          rw [hkept] at hback
          exact hne (Except.ok.inj (hback.symm.trans hfooter))
    · exact Nat.not_lt_of_le htest.bounded.size_ge hsmall
    · omega

-- A prologue with another tag at one of its ends.
theorem checkBlocks_of_prologue (hintact : h.Intact base bs) (hforged : Forged h h' pos word)
    (hpos : pos = h.prologue - 4 ∨ pos = h.prologue) (hne : Tag.unpack word ≠ .used overhead) :
    h'.checkBlocks base = .ok (.error (.badPrologue h.prologue)) := by
  obtain ⟨m', ix, p⟩ := h'
  obtain ⟨hpad, hinside⟩ := hintact.seeded
  obtain ⟨rfl, -, hread, hsame⟩ := hforged
  dsimp only at hread hsame
  have hword := Memory.readTag_eq_ok_iff.mpr ⟨word, hread, rfl⟩
  rcases hpos with rfl | rfl
  · have hback := hsame.readTag hintact.footer (by omega)
    rw [checkBlocks_of_words ix base hpad hword hback, if_neg fun hkept => hne hkept.1]
  · have hfront := hsame.readTag hintact.header (by omega)
    rw [checkBlocks_of_words ix base hpad hfront hword, if_neg fun hkept => hne hkept.2]

-- Behind the last block there is no room for another one.
theorem error_of_epilogue (hintact : h.Intact base bs) (hforged : Forged h h' (h.memory.size - 4) word)
    (hne : Tag.unpack word ≠ .epilogue) : ∃ corruption, h'.checkBlocks base = .ok (.error corruption) := by
  have hle := hintact.filled.tiles.le
  have hsize := hforged.size
  refine hintact.error_of_reported hforged hintact.filled.tiles (Nat.le_refl _) (by omega)
    hintact.filled.standing ?_
  have htag : Block.tag h'.memory h.memory.size = .ok (Tag.unpack word) :=
    Block.tag_eq_ok_iff.mpr ⟨by omega, word, hforged.read, rfl⟩
  refine reported_of_test (by omega) (fun htest => ?_) fun t htest => ?_
  · cases htest with
    | finish hfound hzero hlast =>
        obtain rfl := Except.ok.inj (hfound.symm.trans htag)
        exact hne (congrArg₂ Tag.mk hzero hlast.1)
  · have hmin := htest.bounded.size_ge
    have hinside := htest.bounded.inside
    simp only [minBlockSize] at hmin
    omega

theorem error_of_sentinel (hintact : h.Intact base bs)
    (hpos : pos ∈ [h.prologue - 4, h.prologue, h.memory.size - 4]) :
    pos + 4 ≤ h.memory.size ∧ ∃ tag, h.memory.readTag pos = .ok tag ∧
      ∀ h' word, Forged h h' pos word → Tag.unpack word ≠ tag →
        ∃ corruption, h'.checkBlocks base = .ok (.error corruption) := by
  obtain ⟨hpad, hinside⟩ := hintact.seeded
  simp only [List.mem_cons, List.not_mem_nil, or_false] at hpos
  rcases hpos with rfl | rfl | rfl
  · exact ⟨by omega, _, hintact.header, fun h' word hforged hne =>
      ⟨_, hintact.checkBlocks_of_prologue hforged (.inl rfl) hne⟩⟩
  · exact ⟨by omega, _, hintact.footer, fun h' word hforged hne =>
      ⟨_, hintact.checkBlocks_of_prologue hforged (.inr rfl) hne⟩⟩
  · exact ⟨by omega, _, hintact.filled.epilogue, fun h' word hforged hne =>
      hintact.error_of_epilogue hforged hne⟩

end Intact

theorem check_of_error {corruption : Corruption} (hblocks : h.checkBlocks base = .ok (.error corruption)) :
    h.check base = .ok (.error corruption) := by
  rw [check, hblocks]
  rfl

end SegregatedFit.Heap
