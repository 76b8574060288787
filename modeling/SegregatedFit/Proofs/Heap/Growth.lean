import SegregatedFit.Proofs.Heap.Merging
import SegregatedFit.Proofs.Heap.Placement

/-!
Growth. Fresh bytes at the end of the region become a free block or the end of the last block, and a
new epilogue follows them. A block grows inside the region by taking in its free successor.
-/

namespace SegregatedFit

variable {m : Memory} {ix : Index} {p b size : Nat} {xs ys old bs : List BlockInfo} {ls : Lists}

-- A tag from `start` up to the end of the fresh bytes, and the epilogue behind it.
theorem Laid.exists_extend {start : Nat} (h : Laid m p (xs ++ old)) (fresh : ByteArray)
    (allocated : Bool) (own : List Nat) (hx : Tiles (p + 8) xs start)
    (hend : start + size = m.size + fresh.size) (hstart : start ≤ m.size)
    (hproper : BlockInfo.Proper ⟨start, size, allocated⟩)
    (hown : ∀ i ∈ old ++ [⟨start, size, allocated⟩], i.allocated = true → i.offset ∈ own) :
    ∃ m₁ m₂, Block.write (m.append fresh) start ⟨size, allocated⟩ = .ok m₁ ∧
      Block.next m₁ start = .ok (start + size) ∧
      Block.writeHeader m₁ (start + size) .epilogue = .ok m₂ ∧ m₂.size = m.size + fresh.size ∧
      Laid m₂ p (xs ++ [⟨start, size, allocated⟩]) ∧
      Spares own m m₂ (xs ++ old) (xs ++ [⟨start, size, allocated⟩]) ∧
      ∀ k, start ≤ k → k < m.size - 8 → m₂.bytes[k]? = m.bytes[k]? := by
  have hbounds := hproper.bounds
  have hpad := h.pad
  have hle := hx.le
  have hsize := Memory.size_append m fresh
  dsimp only at hbounds
  obtain ⟨m₁, hwrite, hsize₁, htagged, hbytes⟩ :=
    Block.exists_write (m.append fresh) start size allocated (by omega) hproper.aligned (by omega)
      hproper.size_le (by omega)
  obtain ⟨m₂, hepilogue, hsize₂, hread, hsame₂⟩ :=
    Block.exists_writeHeader (b := start + size) m₁ .epilogue (by omega) (by omega) (by decide)
  have hsame₁ : (m.append fresh).SameOff m₁ (start - 4) (m.size + fresh.size) := fun i _ =>
    hbytes i (by omega) (by omega)
  have hsame : m.SameOff m₂ (start - 4) (m.size + fresh.size) := by
    refine .trans (.trans ((m.sameOff_append fresh).mono ?_ ?_) hsame₁) (hsame₂.mono ?_ ?_) <;> omega
  have hnext : Block.next m₁ start = .ok (start + size) := by
    apply Block.next_eq
    apply Block.size_eq (t := ⟨size, allocated⟩)
    exact Block.tag_eq (b := start) (by omega) htagged.header
  have hsize' : m₂.size = m.size + fresh.size := by omega
  refine ⟨m₁, m₂, hwrite, hnext, hepilogue, hsize', ?_, ?_, ?_⟩
  · refine h.regrow _ (fun i hi => List.mem_append_left _ hi) hx ⟨rfl, ?_⟩ (by simpa using hproper) ?_
      hsame ?_
    · show start + size = m₂.size
      omega
    · simp only [List.mem_singleton, forall_eq]
      exact htagged.frame hsame₂ (by dsimp only; omega) (by dsimp only; omega)
    · rw [hsize', ← hend]
      exact Memory.readTag_eq_ok_iff.mpr ⟨_, hread, rfl⟩
  · have hlaid : Laid m p (xs ++ old ++ []) := by simpa using h
    have hend : Tiles m.size [] m.size := rfl
    have hspares := Spares.of_replace hlaid hx hend hsame (.inr rfl) hown
    simpa using hspares
  · intro k hk hk'
    rw [hsame₂ k (by omega), hbytes k (by omega) (by omega), m.sameOff_append fresh k (by omega)]

-- The site of a block that has been added at the end.
def Site.tail (bs : List BlockInfo) (offset size : Nat) (ls : Lists) : Site :=
  ⟨bs.reverse, offset, size, [], ls⟩

namespace Heap

-- Sixteen fresh bytes become a heap without blocks.
theorem seed_spec {start : Nat} (hsize : m.size = start + 16) (haligned : start % 8 = 0) :
    ∃ h, seed m start = .ok h ∧ h.prologue = start + 8 ∧ h.Sound [] .empty ∧
      h.memory.size = m.size := by
  obtain ⟨m₁, hpad, hsize₁, -, -⟩ := Memory.exists_writeWord m start 0 (by omega)
  obtain ⟨m₂, hwrite, hsize₂, htagged, -⟩ :=
    Block.exists_write m₁ (start + 8) 8 true (by omega) rfl (by omega) (by decide) (by omega)
  obtain ⟨m₃, hepilogue, hsize₃, hread, hsame⟩ :=
    Block.exists_writeHeader (b := start + 16) m₂ .epilogue (by omega) (by omega) (by decide)
  have hnext : Block.next m₂ (start + 8) = .ok (start + 16) := by
    refine Block.next_eq (Block.size_eq (t := ⟨8, true⟩) ?_)
    exact Block.tag_eq (b := start + 8) (by omega) htagged.header
  refine ⟨⟨m₃, .empty, start + 8⟩, ?_, rfl, ⟨?_, Index.holds_empty, Filed.empty⟩, ?_⟩
  · simp [seed, hpad, Tag.used, overhead, hwrite, hnext, hepilogue]
  · have hlast : m₃.size - 4 = start + 16 - 4 := by omega
    refine ⟨by dsimp only; omega, by dsimp only; omega, ?_, ?_, ?_, by simp, by simp, ?_⟩
    · exact hsame.readTag htagged.header (by dsimp only; omega)
    · exact hsame.readTag htagged.readTag_footer (by dsimp only; omega)
    · show start + 8 + 8 = m₃.size
      omega
    · rw [hlast]
      exact Memory.readTag_eq_ok_iff.mpr ⟨_, hread, rfl⟩
  · dsimp only
    omega

-- Fresh bytes become a free block at the end.
theorem annex_laid (hsound : Sound ⟨m, ix, p⟩ bs ls) (fresh : ByteArray)
    (hproper : BlockInfo.Proper ⟨m.size, fresh.size, false⟩) :
    ∃ m₁ m₂, Block.write (m.append fresh) m.size (.free fresh.size) = .ok m₁ ∧
      Block.next m₁ m.size = .ok (m.size + fresh.size) ∧
      Block.writeHeader m₁ (m.size + fresh.size) .epilogue = .ok m₂ ∧ m₂.size = m.size + fresh.size ∧
      Laid m₂ p ((Site.tail bs m.size fresh.size ls).blocks false) ∧
      Spares [] m m₂ bs ((Site.tail bs m.size fresh.size ls).blocks false) ∧
      Filed ls ((Site.tail bs m.size fresh.size ls).left ++ []) := by
  have hlaid : Laid m p (bs ++ []) := by simpa using hsound.laid
  obtain ⟨m₁, m₂, hwrite, hnext, hepilogue, hsize, hlaid', hspares, -⟩ :=
    hlaid.exists_extend fresh false [] hsound.laid.tiles rfl (Nat.le_refl _) hproper (by simp)
  have hsite : (Site.tail bs m.size fresh.size ls).blocks false =
      bs ++ [⟨m.size, fresh.size, false⟩] := by
    simp [Site.blocks, Site.tail]
  rw [← hsite] at hlaid' hspares
  rw [List.append_nil] at hspares
  refine ⟨m₁, m₂, hwrite, hnext, hepilogue, hsize, hlaid', hspares, ?_⟩
  apply hsound.filed.congr
  intro i _
  simp [Site.tail]

-- The fresh block is merged with a free block before it.
theorem annex_spec (hsound : Sound ⟨m, ix, p⟩ bs ls) (fresh : ByteArray)
    (hproper : BlockInfo.Proper ⟨m.size, fresh.size, false⟩) :
    ∃ h₁ h', annex ⟨m.append fresh, ix, p⟩ m.size fresh.size = .ok h₁ ∧
      coalesce h₁ m.size = .ok ((Site.tail bs m.size fresh.size ls).merge.offset, h') ∧
      Becomes [] ⟨m, ix, p⟩ bs h' ((Site.tail bs m.size fresh.size ls).merge.blocks false)
        (Site.tail bs m.size fresh.size ls).merge.filedLists := by
  obtain ⟨m₁, m₂, hwrite, hnext, hepilogue, hsize, hlaid, hspares, hfiled⟩ :=
    annex_laid hsound fresh hproper
  obtain ⟨h', hcoalesce, hbecomes⟩ := coalesce_spec hlaid hsound.holds hfiled
  refine ⟨⟨m₂, ix, p⟩, h', ?_, hcoalesce, hbecomes.sound, hbecomes.prologue, ?_,
    hspares.trans hbecomes.spares⟩
  · simp [annex, hwrite, hnext, hepilogue]
  · have hle := hbecomes.size_le
    dsimp only at hle ⊢
    omega

-- The last block, an allocated one, takes up the fresh bytes behind it.
theorem stretch_spec {need : Nat} (hsound : Sound ⟨m, ix, p⟩ (xs ++ [⟨b, size, true⟩]) ls)
    (fresh : ByteArray) (hsize : need = size + fresh.size)
    (hproper : BlockInfo.Proper ⟨b, need, true⟩) :
    ∃ h', stretch ⟨m.append fresh, ix, p⟩ b need = .ok h' ∧
      Becomes [b] ⟨m, ix, p⟩ (xs ++ [⟨b, size, true⟩]) h' (xs ++ [⟨b, need, true⟩]) ls ∧
      m.SamePayload h'.memory ⟨b, size, true⟩ := by
  obtain ⟨_, hx, rfl, hend⟩ := tiles_append.mp hsound.laid.tiles
  have hend : b + size = m.size := hend
  obtain ⟨m₁, m₂, hwrite, hnext, hepilogue, hsize', hlaid, hspares, hpayload⟩ :=
    hsound.laid.exists_extend fresh true [b] hx (by dsimp only; omega) (by dsimp only; omega) hproper
      (by simp)
  refine ⟨⟨m₂, ix, p⟩, ?_, ⟨⟨hlaid, hsound.holds, ?_⟩, rfl, ?_, hspares⟩, ?_⟩
  · dsimp only at hwrite hnext hepilogue
    simp [stretch, Tag.used, hwrite, hnext, hepilogue]
  · apply hsound.filed.congr
    intro i hi
    have hne : ∀ size, i ≠ ⟨b, size, true⟩ := fun size => by
      rintro rfl
      cases hi
    simp [hne]
  · dsimp only at hsize' ⊢
    omega
  · intro k hk hk'
    exact hpayload k hk (hend ▸ hk')

-- An allocated block takes in its free successor.
theorem absorb_spec {gain : Nat}
    (hsound : Sound ⟨m, ix, p⟩ (xs ++ ⟨b, size, true⟩ :: ⟨b + size, gain, false⟩ :: ys) ls)
    (hmax : size + gain ≤ maxBlockSize) :
    ∃ h', absorb ⟨m, ix, p⟩ b (b + size) gain (size + gain) = .ok h' ∧
      Becomes [b] ⟨m, ix, p⟩ (xs ++ ⟨b, size, true⟩ :: ⟨b + size, gain, false⟩ :: ys) h'
        (xs ++ ⟨b, size + gain, true⟩ :: ys) (ls.remove (b + size) gain) ∧
      m.SamePayload h'.memory ⟨b, size, true⟩ := by
  have hlaid := hsound.laid
  have hb := (hlaid.proper ⟨b, size, true⟩ (by simp)).bounds
  have hgain := (hlaid.proper ⟨b + size, gain, false⟩ (by simp)).bounds
  obtain ⟨_, hx, rfl, -, hy⟩ := tiles_append.mp hlaid.tiles
  dsimp only at hb hgain hy hlaid
  have hproper : BlockInfo.Proper ⟨b, size + gain, true⟩ := by
    refine ⟨?_, ?_, hmax⟩ <;> simp only [alignment, minBlockSize] <;> omega
  have hsplit : xs ++ ⟨b, size, true⟩ :: ⟨b + size, gain, false⟩ :: ys =
      xs ++ [⟨b, size, true⟩, ⟨b + size, gain, false⟩] ++ ys := by simp
  have hsound' := hsound
  rw [List.append_cons] at hsound'
  obtain ⟨hholds, hfiled⟩ := hsound'.filed_remove
  rw [hsplit] at hlaid
  obtain ⟨m', hwrite, hsize, hlaid', hspares, hpayload⟩ :=
    hlaid.exists_write true [b] hx (by rw [← Nat.add_assoc]; exact hy) hproper (by simp)
  refine ⟨⟨m', ix.remove (b + size) gain, p⟩, ?_, ⟨⟨hlaid', hholds, ?_⟩, rfl, Nat.le_of_eq hsize.symm,
    by rw [hsplit]; exact hspares⟩, fun k hk hk' => hpayload k hk ?_⟩
  · simp [absorb, Tag.used, hwrite]
  · apply hfiled.congr
    intro i hi
    have hne : ∀ size, i ≠ ⟨b, size, true⟩ := fun size => by
      rintro rfl
      cases hi
    simp [hne]
  · dsimp only at hk' ⊢
    omega

end Heap

end SegregatedFit
