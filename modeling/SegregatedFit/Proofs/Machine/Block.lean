import SegregatedFit.Proofs.Machine
import SegregatedFit.Proofs.Heap.Layout

/-!
Words and blocks on a machine. A step that succeeds on blocks of any size has met nothing that a machine
would stop at, as long as the memory ends two blocks before the end of the address range: what is read or
written lies inside the memory, and no tag says more than the largest size.
-/

namespace SegregatedFit

variable {m m' : Memory} {t : Tag} {b pos n : Nat} {word : UInt32}

theorem Memory.writeWord_bounds (h : m.writeWord pos word = .ok m') : pos + 4 ≤ m.size :=
  writeWord_isOk_iff.mp ⟨m', h⟩

theorem Memory.slice_bounds {count : Nat} {content : ByteArray} (h : m.slice pos count = .ok content) :
    pos + count ≤ m.size := by
  by_contra hout
  rw [slice, if_neg (show ¬pos + count ≤ m.bytes.size from hout)] at h
  cases h

theorem Tag.size_unpack_mod (word : UInt32) : (unpack word).size % 8 = 0 := by
  simp only [unpack]
  omega

namespace Block

theorem tag_eq_ok_iff : tag m b = .ok t ↔
    4 ≤ b ∧ ∃ word, m.readWord (b - 4) = .ok word ∧ Tag.unpack word = t := by
  simp only [tag, header, Memory.wordSize, Memory.readTag, bind_eq_ok_iff, subtract_eq_ok_iff,
    pure_eq_ok, Except.ok.injEq]
  constructor
  · rintro ⟨_, ⟨hb, rfl⟩, word, hword, ht⟩
    exact ⟨hb, word, hword, ht⟩
  · rintro ⟨hb, word, hword, ht⟩
    exact ⟨_, ⟨hb, rfl⟩, word, hword, ht⟩

-- A tag that can be read is a tag of something inside the memory.
theorem tag_bounds (h : tag m b = .ok t) :
    4 ≤ b ∧ b ≤ m.size ∧ t.size ≤ 4294967288 ∧ t.size % 8 = 0 := by
  obtain ⟨hb, word, hword, rfl⟩ := tag_eq_ok_iff.mp h
  have hpos := Memory.readWord_isOk_iff.mp ⟨word, hword⟩
  have hmax := Tag.size_unpack_le word
  simp only [maxBlockSize] at hmax
  exact ⟨hb, by omega, hmax, Tag.size_unpack_mod word⟩

theorem prevTag_bounds (h : prevTag m b = .ok t) : t.size ≤ 4294967288 ∧ t.size % 8 = 0 := by
  simp only [prevTag, Memory.readTag, bind_eq_ok_iff, pure_eq_ok, Except.ok.injEq] at h
  obtain ⟨_, -, word, -, rfl⟩ := h
  exact ⟨Tag.size_unpack_le word, Tag.size_unpack_mod word⟩

theorem size_eq_ok_iff : size m b = .ok n ↔ ∃ t, tag m b = .ok t ∧ t.size = n := by
  simp only [size, bind_eq_ok_iff, pure_eq_ok, Except.ok.injEq]

theorem size_bounds (h : size m b = .ok n) : 4 ≤ b ∧ b ≤ m.size ∧ n ≤ 4294967288 ∧ n % 8 = 0 := by
  obtain ⟨t, ht, rfl⟩ := size_eq_ok_iff.mp h
  exact tag_bounds ht

end Block

namespace Machine

-- Two more blocks of any size fit between the end of the memory and that of the address range.
def Spacious (m : Memory) : Prop := m.size + 8589934592 ≤ wordLimit

-- As is one that ends in the first half of that range, or no more than two blocks behind it.
theorem Spacious.of_lt (hsize : m.size < 9223372036854775808 + 8589934592) : Spacious m := by
  rw [Spacious, wordLimit]
  omega

theorem Spacious.lt (hm : Spacious m) (hn : n < m.size + 8589934592) : n < wordLimit :=
  Nat.lt_of_lt_of_le hn hm

theorem add_eq_some {a b : Nat} (h : a + b < wordLimit) : add a b = some (a + b) := if_pos h

theorem sub_eq_some {a b : Nat} (h : b ≤ a) : sub a b = some (a - b) := if_pos h

theorem sub_of_subtract {a b c : Nat} (h : subtract a b = .ok c) : sub a b = some c := by
  obtain ⟨hle, rfl⟩ := subtract_eq_ok_iff.mp h
  exact sub_eq_some hle

theorem alignUp_eq_some (hn : n ≤ 4294967288) : alignUp n = some (SegregatedFit.alignUp n) := by
  have hsum : n + alignment < wordLimit := by
    simp only [alignment, wordLimit]
    omega
  have hone : 1 ≤ n + alignment := Nat.le_add_left ..
  simp only [alignUp, add_eq_some hsum, Option.bind_eq_bind, Option.bind_some, sub_eq_some hone,
    Option.pure_def]
  rfl

-- A request whose padded size is no word is too large for every tag.
theorem blockSizeFor_eq (request : Nat) : blockSizeFor request = SegregatedFit.blockSizeFor request := by
  have hsum : request + overhead + (alignment - 1) = request + (overhead + alignment - 1) := by
    simp only [overhead, alignment]
  unfold blockSizeFor SegregatedFit.blockSizeFor
  by_cases hsmall : request ≤ overhead
  · rw [if_pos hsmall, if_pos hsmall]
  rw [if_neg hsmall, if_neg hsmall, SegregatedFit.alignUp, hsum]
  by_cases hword : request + (overhead + alignment - 1) < wordLimit
  · rw [add_eq_some hword]
  · have hlarge : ¬(request + (overhead + alignment - 1)) / alignment * alignment ≤ maxBlockSize := by
      simp only [overhead, alignment, wordLimit, maxBlockSize] at hword ⊢
      omega
    rw [add, if_neg hword, if_neg hlarge]

theorem readWord_of (hm : Spacious m) (h : m.readWord pos = .ok word) :
    readWord m pos = some word := by
  have hpos := Memory.readWord_isOk_iff.mp ⟨word, h⟩
  have hsum : pos + Memory.wordSize < wordLimit := hm.lt (by simp only [Memory.wordSize]; omega)
  simp [readWord, add_eq_some hsum, h, Except.toOption]

theorem writeWord_of (hm : Spacious m) (h : m.writeWord pos word = .ok m') :
    writeWord m pos word = some m' := by
  have hpos := Memory.writeWord_bounds h
  have hsum : pos + Memory.wordSize < wordLimit := hm.lt (by simp only [Memory.wordSize]; omega)
  simp [writeWord, add_eq_some hsum, h, Except.toOption]

theorem readTag_of (hm : Spacious m) (h : m.readTag pos = .ok t) : readTag m pos = some t := by
  simp only [Memory.readTag, bind_eq_ok_iff, pure_eq_ok, Except.ok.injEq] at h
  obtain ⟨word, hword, rfl⟩ := h
  simp [readTag, readWord_of hm hword]

-- A tag is written unchanged when its size is a multiple of the alignment unit.
theorem writeTag_of (hm : Spacious m) (haligned : t.size % 8 = 0) (h : m.writeTag pos t = .ok m') :
    writeTag m pos t = some m' := by
  by_cases hmax : t.size ≤ maxBlockSize
  · rw [Memory.writeTag, if_pos hmax] at h
    rw [writeTag, if_pos (Tag.unpack_pack haligned hmax), writeWord_of hm h]
  · rw [Memory.writeTag, if_neg hmax] at h
    cases h

theorem tag_of (hm : Spacious m) (h : Block.tag m b = .ok t) : tag m b = some t := by
  obtain ⟨hb, word, hword, rfl⟩ := Block.tag_eq_ok_iff.mp h
  simp [tag, header, Memory.wordSize, sub_eq_some hb, readTag, readWord_of hm hword]

theorem size_of (hm : Spacious m) (h : Block.size m b = .ok n) : size m b = some n := by
  obtain ⟨t, ht, rfl⟩ := Block.size_eq_ok_iff.mp h
  simp [size, tag_of hm ht]

-- The end of a block is a number on the machine.
theorem add_size_of (hm : Spacious m) (h : Block.tag m b = .ok t) :
    add b t.size = some (b + t.size) := by
  have hbounds := Block.tag_bounds h
  exact add_eq_some (hm.lt (by omega))

theorem prevTag_of (hm : Spacious m) (h : Block.prevTag m b = .ok t) : prevTag m b = some t := by
  simp only [Block.prevTag, bind_eq_ok_iff] at h
  obtain ⟨pos, hpos, htag⟩ := h
  simp [prevTag, sub_of_subtract hpos, readTag_of hm htag]

theorem next_of (hm : Spacious m) {behind : Nat} (h : Block.next m b = .ok behind) :
    next m b = some behind := by
  simp only [Block.next, bind_eq_ok_iff, pure_eq_ok, Except.ok.injEq] at h
  obtain ⟨n, hn, rfl⟩ := h
  obtain ⟨t, htag, rfl⟩ := Block.size_eq_ok_iff.mp hn
  simp [next, size_of hm hn, add_size_of hm htag]

theorem footer_of (hm : Spacious m) (h : Block.footer m b = .ok pos) : footer m b = some pos := by
  simp only [Block.footer, bind_eq_ok_iff] at h
  obtain ⟨n, hn, hpos⟩ := h
  obtain ⟨t, htag, rfl⟩ := Block.size_eq_ok_iff.mp hn
  simp [footer, size_of hm hn, add_size_of hm htag, sub_of_subtract hpos]

theorem footerTag_of (hm : Spacious m) (h : Block.footerTag m b = .ok t) :
    footerTag m b = some t := by
  simp only [Block.footerTag, bind_eq_ok_iff] at h
  obtain ⟨pos, hpos, htag⟩ := h
  simp [footerTag, footer_of hm hpos, readTag_of hm htag]

theorem usableSize_of (hm : Spacious m) (h : Block.usableSize m b = .ok n) :
    usableSize m b = some n := by
  simp only [Block.usableSize, bind_eq_ok_iff] at h
  obtain ⟨own, hown, hn⟩ := h
  simp [usableSize, size_of hm hown, sub_of_subtract hn]

theorem writeHeader_of (hm : Spacious m) (haligned : t.size % 8 = 0)
    (h : Block.writeHeader m b t = .ok m') : writeHeader m b t = some m' := by
  simp only [Block.writeHeader, bind_eq_ok_iff] at h
  obtain ⟨pos, hpos, hwrite⟩ := h
  simp [writeHeader, header, sub_of_subtract hpos, writeTag_of hm haligned hwrite]

-- Writing needs as much room as reading, and leaves it.
theorem size_of_writeTag (h : m.writeTag pos t = .ok m') :
    m'.size = m.size ∧ pos + 4 ≤ m.size ∧ t.size ≤ 4294967288 := by
  by_cases hmax : t.size ≤ maxBlockSize
  · rw [Memory.writeTag, if_pos hmax] at h
    exact ⟨Memory.size_of_writeWord h, Memory.writeWord_bounds h, hmax⟩
  · rw [Memory.writeTag, if_neg hmax] at h
    cases h

theorem size_of_writeHeader (h : Block.writeHeader m b t = .ok m') :
    m'.size = m.size ∧ b ≤ m.size ∧ t.size ≤ 4294967288 := by
  simp only [Block.writeHeader, Block.header, Memory.wordSize, bind_eq_ok_iff,
    subtract_eq_ok_iff] at h
  obtain ⟨pos, ⟨hb, rfl⟩, hwrite⟩ := h
  have hbounds := size_of_writeTag hwrite
  omega

theorem size_of_write (h : Block.write m b t = .ok m') : m'.size = m.size := by
  simp only [Block.write, bind_eq_ok_iff] at h
  obtain ⟨m₁, hhead, pos, -, hfoot⟩ := h
  exact (size_of_writeTag hfoot).1.trans (size_of_writeHeader hhead).1

theorem write_of (hm : Spacious m) (haligned : t.size % 8 = 0) (h : Block.write m b t = .ok m') :
    write m b t = some m' := by
  simp only [Block.write, bind_eq_ok_iff] at h
  obtain ⟨m₁, hhead, pos, hpos, hfoot⟩ := h
  have hbounds := size_of_writeHeader hhead
  have hm₁ : Spacious m₁ := by
    simp only [Spacious] at hm ⊢
    omega
  have hsum : b + t.size < wordLimit := hm.lt (by omega)
  simp [write, writeHeader_of hm haligned hhead, add_eq_some hsum, sub_of_subtract hpos,
    writeTag_of hm₁ haligned hfoot]

theorem Spacious.write (hm : Spacious m) (h : Block.write m b t = .ok m') : Spacious m' := by
  rw [Spacious, size_of_write h]
  exact hm

end Machine

end SegregatedFit
