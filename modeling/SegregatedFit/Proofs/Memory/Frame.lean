import SegregatedFit.Memory.Lemmas
import SegregatedFit.Tag

/-!
What an access leaves alone. `SameOff m m' lo hi` says that two memories hold the same bytes outside
the range from `lo` up to `hi`; every way of changing a memory is described by such a range and by
what stands in it afterwards.
-/

namespace SegregatedFit.Memory

theorem getElem?_bytes (bytes : ByteArray) (i : Nat) : bytes[i]? = bytes.data[i]? := by
  by_cases h : i < bytes.size
  · rw [getElem?_pos bytes i h, Array.getElem?_eq_getElem (by simpa using h)]
    rfl
  · rw [getElem?_neg bytes i h, Array.getElem?_eq_none (by simpa using h)]

theorem readTag_eq_ok_iff {m : Memory} {t : Tag} :
    m.readTag pos = .ok t ↔ ∃ word, m.readWord pos = .ok word ∧ Tag.unpack word = t := by
  rw [readTag]
  cases m.readWord pos <;> simp [bind, Except.bind, pure, Except.pure]

def SameOff (m m' : Memory) (lo hi : Nat) : Prop :=
  ∀ i, i < lo ∨ hi ≤ i → m'.bytes[i]? = m.bytes[i]?

namespace SameOff

theorem refl (m : Memory) (lo hi : Nat) : SameOff m m lo hi := fun _ _ => rfl

theorem mono (h : SameOff m m' lo hi) (hlo : lo' ≤ lo) (hhi : hi ≤ hi') : SameOff m m' lo' hi' :=
  fun i hi => h i (by omega)

theorem trans (h : SameOff m m' lo hi) (h' : SameOff m' m'' lo hi) : SameOff m m'' lo hi :=
  fun i hi => (h' i hi).trans (h i hi)

-- A word is kept by a change beside it, also when the memory grows.
theorem readWord (h : SameOff m m' lo hi) (hword : m.readWord pos = .ok word)
    (hpos : pos + 4 ≤ lo ∨ hi ≤ pos) : m'.readWord pos = .ok word := by
  have hbound : pos + 4 ≤ m.size := readWord_isOk_iff.mp ⟨word, hword⟩
  rw [← hword]
  exact (readWord_congr hbound fun i _ _ => (h i (by omega)).symm).symm

theorem readTag {t : Tag} (h : SameOff m m' lo hi) (htag : m.readTag pos = .ok t)
    (hpos : pos + 4 ≤ lo ∨ hi ≤ pos) : m'.readTag pos = .ok t := by
  obtain ⟨word, hword, rfl⟩ := readTag_eq_ok_iff.mp htag
  exact readTag_eq_ok_iff.mpr ⟨word, h.readWord hword hpos, rfl⟩

end SameOff

theorem exists_writeWord (m : Memory) (pos : Nat) (word : UInt32) (hpos : pos + 4 ≤ m.size) :
    ∃ m', m.writeWord pos word = .ok m' ∧ m'.size = m.size ∧ m'.readWord pos = .ok word ∧
      SameOff m m' pos (pos + 4) := by
  obtain ⟨m', h⟩ := writeWord_isOk_iff.mpr hpos
  exact ⟨m', h, size_of_writeWord h, readWord_of_writeWord h, fun i hi => byte_of_writeWord h hi⟩

theorem exists_writeTag (m : Memory) (pos : Nat) (t : Tag) (hpos : pos + 4 ≤ m.size)
    (hsize : t.size ≤ maxBlockSize) :
    ∃ m', m.writeTag pos t = .ok m' ∧ m'.size = m.size ∧ m'.readWord pos = .ok t.pack ∧
      SameOff m m' pos (pos + 4) := by
  obtain ⟨m', h, hm'⟩ := exists_writeWord m pos t.pack hpos
  exact ⟨m', by rw [writeTag, if_pos hsize, h], hm'⟩

theorem sameOff_append (m : Memory) (fresh : ByteArray) :
    SameOff m (m.append fresh) m.size (m.append fresh).size := by
  intro i hi
  simp only [size, append, ByteArray.size_append] at hi ⊢
  rw [getElem?_bytes, getElem?_bytes, ByteArray.data_append]
  rcases hi with hi | hi
  · rw [Array.getElem?_append_left (by simpa using hi)]
  · rw [Array.getElem?_eq_none (by simp; omega), Array.getElem?_eq_none (by simp; omega)]

-- Overwriting puts the source in its place and nothing anywhere else.
theorem exists_overwrite (m : Memory) (pos : Nat) (source : ByteArray)
    (hpos : pos + source.size ≤ m.size) :
    ∃ m', m.overwrite pos source = .ok m' ∧ m'.size = m.size ∧
      (∀ i < source.size, m'.bytes[pos + i]? = source[i]?) ∧
      SameOff m m' pos (pos + source.size) := by
  obtain ⟨bytes⟩ := m
  simp only [size] at hpos
  have hdata : (source.copySlice 0 bytes pos source.size).data =
      bytes.data.extract 0 pos ++ (source.data ++ bytes.data.extract (pos + source.size)) := by
    have hwhole : source.data.extract 0 source.size = source.data := Array.extract_size
    simp [ByteArray.copySlice, hwhole]
  have hleft : (bytes.data.extract 0 pos).size = pos := by simp; omega
  have hsource : source.data.size = source.size := rfl
  have hbytes : bytes.data.size = bytes.size := rfl
  refine ⟨⟨source.copySlice 0 bytes pos source.size⟩, by simp only [overwrite, if_pos hpos],
    ?_, ?_, ?_⟩
  · rw [size, ← ByteArray.size_data, hdata]
    simp only [Array.size_append, Array.size_extract, size, hsource, hbytes]
    omega
  · intro i hi
    rw [getElem?_bytes, getElem?_bytes, hdata, Array.getElem?_append_right (by omega), hleft,
      Nat.add_sub_cancel_left, Array.getElem?_append_left (by omega)]
  · intro i hi
    rw [getElem?_bytes, getElem?_bytes, hdata]
    rcases hi with hi | hi
    · rw [Array.getElem?_append_left (by omega), Array.getElem?_extract, if_pos (by omega),
        Nat.zero_add]
    · rw [Array.getElem?_append_right (by omega), Array.getElem?_append_right (by omega)]
      simp only [hleft, hsource, Array.getElem?_extract, hbytes]
      split
      · congr 1
        omega
      · rw [Array.getElem?_eq_none (by omega)]

theorem slice_eq_ok {m : Memory} (hpos : pos + count ≤ m.size) :
    m.slice pos count = .ok (m.bytes.extract pos (pos + count)) := if_pos hpos

theorem getElem?_of_slice {m : Memory} {found : ByteArray} (h : m.slice pos count = .ok found) :
    found.size = count ∧ ∀ i < count, found[i]? = m.bytes[pos + i]? := by
  by_cases hpos : pos + count ≤ m.bytes.size
  · obtain rfl := Except.ok.inj ((slice_eq_ok hpos).symm.trans h)
    refine ⟨by rw [ByteArray.size_extract]; omega, ?_⟩
    intro i hi
    have hsize : m.bytes.data.size = m.bytes.size := rfl
    rw [getElem?_bytes, getElem?_bytes, ByteArray.data_extract, Array.getElem?_extract,
      if_pos (by omega)]
  · rw [slice, if_neg hpos] at h
    cases h

-- A slice depends on its own bytes alone.
theorem slice_congr {m m' : Memory} (hpos : pos + count ≤ m.size) (hpos' : pos + count ≤ m'.size)
    (hbytes : ∀ i, pos ≤ i → i < pos + count → m'.bytes[i]? = m.bytes[i]?) :
    m'.slice pos count = m.slice pos count := by
  rw [slice_eq_ok hpos, slice_eq_ok hpos']
  congr 1
  apply ByteArray.ext_getElem
  · simp only [size] at hpos hpos'
    rw [ByteArray.size_extract, ByteArray.size_extract]
    omega
  · intro i hi hi'
    rw [ByteArray.size_extract] at hi hi'
    have h := hbytes (pos + i) (by omega) (by omega)
    rw [getElem?_pos _ _ (by omega), getElem?_pos _ _ (by omega)] at h
    rw [ByteArray.getElem_extract, ByteArray.getElem_extract]
    exact Option.some.inj h

end SegregatedFit.Memory
