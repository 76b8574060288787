import SegregatedFit.Proofs.Heap.Tiling

/-!
Memories that are laid out as a heap: what reading a tag answers there, what writing one does, and how
a change of a few adjacent blocks carries over to the whole.
-/

namespace SegregatedFit

variable {m m' : Memory} {p b : Nat} {bs xs ys new : List BlockInfo} {i j : BlockInfo}

-- The memory `m`, whose prologue is `p`, consists of the blocks `bs` between the two sentinels.
structure Laid (m : Memory) (p : Nat) (bs : List BlockInfo) : Prop where
  aligned : p % 8 = 0
  pad : 8 ≤ p
  prologueHeader : m.readTag (p - 4) = .ok (.used overhead)
  prologueFooter : m.readTag p = .ok (.used overhead)
  tiles : Tiles (p + 8) bs m.size
  proper : ∀ i ∈ bs, i.Proper
  tagged : ∀ i ∈ bs, m.Tagged i
  epilogue : m.readTag (m.size - 4) = .ok .epilogue

namespace Block

theorem tag_eq {t : Tag} (hb : 4 ≤ b) (htag : m.readTag (b - 4) = .ok t) : tag m b = .ok t := by
  simp [tag, header, Memory.wordSize, subtract_eq_ok hb, htag]

theorem prevTag_eq {t : Tag} (hb : 8 ≤ b) (htag : m.readTag (b - 8) = .ok t) :
    prevTag m b = .ok t := by
  simp [prevTag, overhead, subtract_eq_ok hb, htag]

theorem size_eq {t : Tag} (h : tag m b = .ok t) : size m b = .ok t.size := by
  simp [size, h]

theorem next_eq {n : Nat} (h : size m b = .ok n) : next m b = .ok (b + n) := by
  simp [next, h]

theorem prev_eq {t : Tag} (h : prevTag m b = .ok t) (hb : t.size ≤ b) :
    prev m b = .ok (b - t.size) := by
  simp [prev, h, subtract_eq_ok hb]

theorem footerTag_eq {t : Tag} {n : Nat} (h : size m b = .ok n) (hb : 8 ≤ b + n)
    (htag : m.readTag (b + n - 8) = .ok t) : footerTag m b = .ok t := by
  simp [footerTag, footer, h, overhead, subtract_eq_ok hb, htag]

theorem usableSize_eq {n : Nat} (h : size m b = .ok n) (hn : 8 ≤ n) :
    usableSize m b = .ok (n - 8) := by
  simp [usableSize, h, overhead, subtract_eq_ok hn]

theorem exists_writeHeader (m : Memory) (t : Tag) (hb : 4 ≤ b) (hfit : b ≤ m.size)
    (hmax : t.size ≤ maxBlockSize) :
    ∃ m', writeHeader m b t = .ok m' ∧ m'.size = m.size ∧ m'.readWord (b - 4) = .ok t.pack ∧
      m.SameOff m' (b - 4) b := by
  obtain ⟨m', hwrite, hsize, hread, hsame⟩ :=
    Memory.exists_writeTag m (b - 4) t (by omega) hmax
  refine ⟨m', ?_, hsize, hread, hsame.mono (by omega) (by omega)⟩
  simpa [writeHeader, header, Memory.wordSize, subtract_eq_ok hb] using hwrite

-- Writing a tag changes the two words of the block and nothing else.
theorem exists_write (m : Memory) (b size : Nat) (allocated : Bool) (hb : 4 ≤ b)
    (haligned : size % 8 = 0) (hsize : 8 ≤ size) (hmax : size ≤ maxBlockSize)
    (hfit : b + size ≤ m.size + 4) :
    ∃ m', write m b ⟨size, allocated⟩ = .ok m' ∧ m'.size = m.size ∧ m'.Tagged ⟨b, size, allocated⟩ ∧
      ∀ i, i < b - 4 ∨ b ≤ i → i < b + size - 8 ∨ b + size - 4 ≤ i → m'.bytes[i]? = m.bytes[i]? := by
  obtain ⟨m₁, hhead, hsize₁, hread₁, hsame₁⟩ :=
    exists_writeHeader m ⟨size, allocated⟩ hb (by omega) hmax
  obtain ⟨m₂, hfoot, hsize₂, hread₂, hsame₂⟩ :=
    Memory.exists_writeTag m₁ (b + size - 8) ⟨size, allocated⟩ (by omega) hmax
  have hkept : m₂.readWord (b - 4) = .ok (Tag.mk size allocated).pack :=
    hsame₂.readWord hread₁ (by omega)
  refine ⟨m₂, ?_, hsize₂.trans hsize₁, .of_words hkept hread₂ (Tag.unpack_pack haligned hmax), ?_⟩
  · have hsub : subtract (b + size) overhead = .ok (b + size - 8) :=
      subtract_eq_ok (by simp only [overhead]; omega)
    simp [write, hhead, hsub, hfoot]
  · intro i hi hi'
    rw [hsame₂ i (by omega), hsame₁ i (by omega)]

end Block

namespace Laid

theorem mem_bounds (h : Laid m p bs) (hi : i ∈ bs) :
    p + 8 ≤ i.offset ∧ i.offset + i.size ≤ m.size ∧ i.offset % 8 = 0 ∧ i.size % 8 = 0 ∧
      16 ≤ i.size ∧ i.size ≤ 4294967288 := by
  have hbounds := h.tiles.bounds hi
  have hsize := (h.proper i hi).bounds
  have haligned := (h.tiles.aligned h.proper (by have := h.aligned; omega)).1 i hi
  exact ⟨hbounds.1, hbounds.2, haligned, hsize⟩

theorem size_bounds (h : Laid m p bs) : p + 8 ≤ m.size ∧ m.size % 8 = 0 := by
  have haligned := (h.tiles.aligned h.proper (by have := h.aligned; omega)).2
  exact ⟨h.tiles.le, haligned⟩

theorem tag_eq (h : Laid m p bs) (hi : i ∈ bs) : Block.tag m i.offset = .ok i.tag := by
  have hbounds := h.mem_bounds hi
  exact Block.tag_eq (by omega) (h.tagged i hi).header

theorem size_eq (h : Laid m p bs) (hi : i ∈ bs) : Block.size m i.offset = .ok i.size :=
  Block.size_eq (h.tag_eq hi)

theorem next_eq (h : Laid m p bs) (hi : i ∈ bs) :
    Block.next m i.offset = .ok (i.offset + i.size) :=
  Block.next_eq (h.size_eq hi)

theorem usableSize_eq (h : Laid m p bs) (hi : i ∈ bs) :
    Block.usableSize m i.offset = .ok (i.size - 8) :=
  Block.usableSize_eq (h.size_eq hi) (by have := h.mem_bounds hi; omega)

theorem footerTag_eq (h : Laid m p bs) (hi : i ∈ bs) : Block.footerTag m i.offset = .ok i.tag := by
  have hbounds := h.mem_bounds hi
  exact Block.footerTag_eq (h.size_eq hi) (by omega) (h.tagged i hi).readTag_footer

theorem tag_prologue (h : Laid m p bs) : Block.tag m p = .ok (.used overhead) := by
  have hpad := h.pad
  exact Block.tag_eq (by omega) h.prologueHeader

theorem footerTag_prologue (h : Laid m p bs) : Block.footerTag m p = .ok (.used overhead) := by
  have hpad := h.pad
  exact Block.footerTag_eq (n := 8) (Block.size_eq h.tag_prologue) (by omega) h.prologueFooter

theorem tag_epilogue (h : Laid m p bs) : Block.tag m m.size = .ok Tag.epilogue := by
  have hsize := h.size_bounds
  exact Block.tag_eq (by omega) h.epilogue

-- The tag behind a block: that of its successor, or the epilogue.
theorem tag_after (h : Laid m p (xs ++ i :: ys)) :
    Block.tag m (i.offset + i.size) = .ok (ys.head?.elim Tag.epilogue BlockInfo.tag) := by
  obtain ⟨_, -, rfl, hy⟩ := tiles_append.mp h.tiles
  cases ys with
  | nil =>
      have hstop : i.offset + i.size = m.size := hy
      rw [hstop]
      exact h.tag_epilogue
  | cons j ys =>
      rw [← hy.1]
      exact h.tag_eq (by simp)

-- The tag before a block: that of its predecessor, or the prologue.
theorem prevTag_eq (h : Laid m p (xs ++ i :: ys)) :
    Block.prevTag m i.offset = .ok (xs.getLast?.elim (Tag.used overhead) BlockInfo.tag) := by
  have hi := h.mem_bounds (i := i) (by simp)
  rcases List.eq_nil_or_concat' xs with rfl | ⟨xs, j, rfl⟩
  · have hstart : i.offset = p + 8 := h.tiles.1
    have htag : m.readTag (i.offset - 8) = .ok (.used overhead) := by
      rw [hstart]
      exact h.prologueFooter
    exact Block.prevTag_eq (by omega) htag
  · have hj : j ∈ xs ++ [j] ++ i :: ys := by simp
    have hstop : i.offset = j.offset + j.size := by
      obtain ⟨_, hx, rfl, -⟩ := tiles_append.mp h.tiles
      obtain ⟨_, -, hlast⟩ := tiles_append.mp hx
      exact (hlast.1 ▸ hlast.2).symm
    have htag : m.readTag (i.offset - 8) = .ok j.tag := by
      rw [hstop]
      exact (h.tagged j hj).readTag_footer
    rw [Block.prevTag_eq (by omega) htag]
    simp

-- What a change behind `stop - 4` keeps: the prologue and the blocks up to `stop`.
private theorem front {stop hi : Nat} (h : Laid m p bs) (hold : ∀ i ∈ xs, i ∈ bs)
    (hx : Tiles (p + 8) xs stop) (hsame : m.SameOff m' (stop - 4) hi) :
    m'.readTag (p - 4) = .ok (.used overhead) ∧ m'.readTag p = .ok (.used overhead) ∧
      ∀ i ∈ xs, m'.Tagged i := by
  have hstop := hx.le
  have hpad := h.pad
  refine ⟨hsame.readTag h.prologueHeader (by omega), hsame.readTag h.prologueFooter (by omega), ?_⟩
  intro i hi
  have hbounds := h.mem_bounds (hold i hi)
  have hend := (hx.bounds hi).2
  exact (h.tagged i (hold i hi)).frame hsame (by omega) (by omega)

-- Other blocks in the place of some adjacent ones.
theorem replace {start stop : Nat} (h : Laid m p bs) (new : List BlockInfo)
    (hold : ∀ i ∈ xs ++ ys, i ∈ bs) (hx : Tiles (p + 8) xs start) (hnew : Tiles start new stop)
    (hy : Tiles stop ys m.size) (hproper : ∀ i ∈ new, i.Proper) (htagged : ∀ i ∈ new, m'.Tagged i)
    (hsize : m'.size = m.size) (hsame : m.SameOff m' (start - 4) (stop - 4)) : Laid m' p (xs ++ new ++ ys) := by
  obtain ⟨hheader, hfooter, htags⟩ :=
    h.front (fun i hi => hold i (List.mem_append_left _ hi)) hx hsame
  have hstop := hy.le
  have hstart := hx.le
  have hmid := hnew.le
  have hpad := h.pad
  refine ⟨h.aligned, h.pad, hheader, hfooter, ?_, ?_, ?_, ?_⟩
  · rw [hsize]
    exact tiles_append.mpr ⟨stop, tiles_append.mpr ⟨start, hx, hnew⟩, hy⟩
  · intro i hi
    simp only [List.mem_append] at hi hold
    rcases hi with (hi | hi) | hi
    · exact h.proper i (hold i (.inl hi))
    · exact hproper i hi
    · exact h.proper i (hold i (.inr hi))
  · intro i hi
    simp only [List.mem_append] at hi hold
    rcases hi with (hi | hi) | hi
    · exact htags i hi
    · exact htagged i hi
    · have hbounds := h.mem_bounds (hold i (.inr hi))
      have hbegin := (hy.bounds hi).1
      exact (h.tagged i (hold i (.inr hi))).frame hsame (by omega) (by omega)
  · rw [hsize]
    exact hsame.readTag h.epilogue (by omega)

-- Other blocks in the place of the last ones, up to a new end of the memory.
theorem regrow {start hi : Nat} (h : Laid m p bs) (new : List BlockInfo) (hold : ∀ i ∈ xs, i ∈ bs)
    (hx : Tiles (p + 8) xs start) (hnew : Tiles start new m'.size) (hproper : ∀ i ∈ new, i.Proper)
    (htagged : ∀ i ∈ new, m'.Tagged i) (hsame : m.SameOff m' (start - 4) hi)
    (hepilogue : m'.readTag (m'.size - 4) = .ok .epilogue) : Laid m' p (xs ++ new) := by
  obtain ⟨hheader, hfooter, htags⟩ := h.front hold hx hsame
  refine ⟨h.aligned, h.pad, hheader, hfooter, tiles_append.mpr ⟨start, hx, hnew⟩, ?_, ?_, hepilogue⟩
  · intro i hi
    rcases List.mem_append.mp hi with hi | hi
    · exact h.proper i (hold i hi)
    · exact hproper i hi
  · intro i hi
    rcases List.mem_append.mp hi with hi | hi
    · exact htags i hi
    · exact htagged i hi

end Laid

end SegregatedFit
