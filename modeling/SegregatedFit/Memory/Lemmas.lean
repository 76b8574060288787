import SegregatedFit.Memory

/-!
Reading what was written. A written word is read back, and an access touches no byte outside the
range that it names. Whether an access succeeds depends on the size of the memory alone.
-/

namespace SegregatedFit.Memory

@[simp] theorem size_append (m : Memory) (fresh : ByteArray) :
    (m.append fresh).size = m.size + fresh.size := by
  simp [append, size]

theorem joinBytes_wordByte (word : UInt32) :
    joinBytes (wordByte word 1) (wordByte word 256) (wordByte word 65536)
      (wordByte word 16777216) = word := by
  apply UInt32.toNat_inj.mp
  have h := word.toNat_lt
  simp only [joinBytes, wordByte, UInt32.toNat_ofNat', UInt8.toNat_ofNat', Nat.reducePow,
    Nat.div_one]
  omega

theorem readWord_isOk_iff {m : Memory} {pos : Nat} :
    (∃ word, m.readWord pos = .ok word) ↔ pos + 4 ≤ m.size := by
  unfold readWord size
  split <;> simp_all

theorem readWord_eq_ok {m : Memory} {pos : Nat} {b₀ b₁ b₂ b₃ : UInt8} (h₀ : m.bytes[pos]? = some b₀)
    (h₁ : m.bytes[pos + 1]? = some b₁) (h₂ : m.bytes[pos + 2]? = some b₂)
    (h₃ : m.bytes[pos + 3]? = some b₃) : m.readWord pos = .ok (joinBytes b₀ b₁ b₂ b₃) := by
  obtain ⟨_, rfl⟩ := getElem?_eq_some_iff.mp h₀
  obtain ⟨_, rfl⟩ := getElem?_eq_some_iff.mp h₁
  obtain ⟨_, rfl⟩ := getElem?_eq_some_iff.mp h₂
  obtain ⟨hlast, rfl⟩ := getElem?_eq_some_iff.mp h₃
  unfold readWord
  rw [dif_pos (by omega)]

-- A word is read from its four bytes and from nothing else.
theorem readWord_congr {m m' : Memory} {pos : Nat} (hpos : pos + 4 ≤ m.size)
    (hbytes : ∀ i, pos ≤ i → i < pos + 4 → m.bytes[i]? = m'.bytes[i]?) :
    m.readWord pos = m'.readWord pos := by
  unfold size at hpos
  have hbyte : ∀ i, pos ≤ i → i < pos + 4 → ∃ b, m.bytes[i]? = some b ∧ m'.bytes[i]? = some b := by
    intro i h h'
    have hi := getElem?_pos m.bytes i (by omega)
    exact ⟨_, hi, hbytes i h h' ▸ hi⟩
  obtain ⟨b₀, h₀, h₀'⟩ := hbyte pos (by omega) (by omega)
  obtain ⟨b₁, h₁, h₁'⟩ := hbyte (pos + 1) (by omega) (by omega)
  obtain ⟨b₂, h₂, h₂'⟩ := hbyte (pos + 2) (by omega) (by omega)
  obtain ⟨b₃, h₃, h₃'⟩ := hbyte (pos + 3) (by omega) (by omega)
  rw [readWord_eq_ok h₀ h₁ h₂ h₃, readWord_eq_ok h₀' h₁' h₂' h₃']

theorem writeWord_isOk_iff {m : Memory} {pos : Nat} {word : UInt32} :
    (∃ m', m.writeWord pos word = .ok m') ↔ pos + 4 ≤ m.size := by
  obtain ⟨bytes⟩ := m
  simp only [writeWord, size]
  split <;> simp_all

theorem size_of_writeWord {m m' : Memory} {pos : Nat} {word : UInt32}
    (h : m.writeWord pos word = .ok m') : m'.size = m.size := by
  obtain ⟨bytes⟩ := m
  simp only [writeWord] at h
  split at h
  · cases h
    simp [size]
  · cases h

theorem getElem?_set!_ne (bytes : ByteArray) {i j : Nat} (value : UInt8) (hij : j ≠ i) :
    (bytes.set! j value)[i]? = bytes[i]? := by
  by_cases hi : i < bytes.size
  · rw [getElem?_pos _ i (by simpa using hi), getElem?_pos bytes i hi,
      ByteArray.getElem_set!_ne _ _ _ _ hij]
  · rw [getElem?_neg _ i (by simpa using hi), getElem?_neg bytes i hi]

theorem getElem?_set!_self (bytes : ByteArray) {i : Nat} (value : UInt8) (hi : i < bytes.size) :
    (bytes.set! i value)[i]? = some value := by
  rw [getElem?_pos _ i (by simpa using hi), ByteArray.getElem_set!_self _ _ _ hi]

theorem byte_of_writeWord {m m' : Memory} {pos : Nat} {word : UInt32}
    (h : m.writeWord pos word = .ok m') {i : Nat} (hi : i < pos ∨ pos + 4 ≤ i) :
    m'.bytes[i]? = m.bytes[i]? := by
  obtain ⟨bytes⟩ := m
  simp only [writeWord] at h
  split at h
  · cases h
    simp only
    rw [getElem?_set!_ne _ _ (by omega), getElem?_set!_ne _ _ (by omega),
      getElem?_set!_ne _ _ (by omega), getElem?_set!_ne _ _ (by omega)]
  · cases h

theorem readWord_of_writeWord {m m' : Memory} {pos : Nat} {word : UInt32}
    (h : m.writeWord pos word = .ok m') : m'.readWord pos = .ok word := by
  obtain ⟨bytes⟩ := m
  simp only [writeWord] at h
  split at h
  · cases h
    refine (readWord_eq_ok ?_ ?_ ?_ ?_).trans (congrArg Except.ok (joinBytes_wordByte word))
    · rw [getElem?_set!_ne _ _ (by omega), getElem?_set!_ne _ _ (by omega),
        getElem?_set!_ne _ _ (by omega), getElem?_set!_self _ _ (by omega)]
    · rw [getElem?_set!_ne _ _ (by omega), getElem?_set!_ne _ _ (by omega),
        getElem?_set!_self _ _ (by simp; omega)]
    · rw [getElem?_set!_ne _ _ (by omega), getElem?_set!_self _ _ (by simp; omega)]
    · rw [getElem?_set!_self _ _ (by simp; omega)]
  · cases h

theorem readWord_of_writeWord_disjoint {m m' : Memory} {pos other : Nat} {word : UInt32}
    (h : m.writeWord pos word = .ok m') (hdisjoint : other + 4 ≤ pos ∨ pos + 4 ≤ other) :
    m'.readWord other = m.readWord other := by
  have hsize := size_of_writeWord h
  by_cases hother : other + 4 ≤ m.size
  · exact (readWord_congr hother fun i _ _ => (byte_of_writeWord h (by omega)).symm).symm
  · unfold readWord
    simp only [size] at hsize hother
    rw [dif_neg (by omega), dif_neg hother]

end SegregatedFit.Memory
