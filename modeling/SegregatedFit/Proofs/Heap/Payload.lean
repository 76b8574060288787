import SegregatedFit.Proofs.Heap.Sparing

/-!
Payloads. Reading one succeeds and gives the bytes between the two tags of the block; writing into one
leaves the layout and every other payload as they are.
-/

namespace SegregatedFit

variable {m m' : Memory} {ix : Index} {p b size : Nat} {bs : List BlockInfo} {ls : Lists} {h h' : Heap}

-- Nothing of the layout stands inside a payload.
theorem Laid.of_payload {i : BlockInfo} (h : Laid m p bs) (hi : i ∈ bs) (hsize : m'.size = m.size)
    (hsame : m.SameOff m' i.offset (i.offset + i.size - 8)) : Laid m' p bs := by
  have hself := h.mem_bounds hi
  have hpad := h.pad
  refine ⟨h.aligned, h.pad, hsame.readTag h.prologueHeader (by omega),
    hsame.readTag h.prologueFooter (by omega), hsize ▸ h.tiles, h.proper, fun j hj => ?_, ?_⟩
  · have hother := h.mem_bounds hj
    by_cases hij : i = j
    · subst hij
      exact (h.tagged i hi).frame hsame (by omega) (by omega)
    · have hdisjoint := h.tiles.disjoint hi hj hij
      exact (h.tagged j hj).frame hsame (by omega) (by omega)
  · rw [hsize]
    exact hsame.readTag h.epilogue (by omega)

namespace Heap

-- Writing at the start of a payload.
theorem overwrite_spec (hsound : Sound ⟨m, ix, p⟩ bs ls) (hb : ⟨b, size, true⟩ ∈ bs)
    (source : ByteArray) (hfit : source.size ≤ size - 8) :
    ∃ m', m.overwrite b source = .ok m' ∧ Becomes [b] ⟨m, ix, p⟩ bs ⟨m', ix, p⟩ bs ls ∧
      (∀ k < source.size, m'.bytes[b + k]? = source[k]?) ∧ m.SameOff m' b (b + source.size) := by
  have hbounds := hsound.laid.mem_bounds hb
  dsimp only at hbounds
  obtain ⟨m', hwrite, hsize, hbytes, hsame⟩ :=
    Memory.exists_overwrite m b source (by omega)
  have hlaid := hsound.laid.of_payload hb hsize (hsame.mono (Nat.le_refl _) (by dsimp only; omega))
  refine ⟨m', hwrite, ⟨⟨hlaid, hsound.holds, hsound.filed⟩, rfl, Nat.le_of_eq hsize.symm,
    fun _ _ _ => Iff.rfl, ?_⟩, hbytes, hsame⟩
  intro j hj _ hout k hk hk'
  have hne : j ≠ ⟨b, size, true⟩ := by
    rintro rfl
    simp at hout
  have hdisjoint := hsound.laid.tiles.disjoint hj hb hne
  have hother := hsound.laid.mem_bounds hj
  dsimp only at hdisjoint
  exact hsame k (by omega)

theorem fill_spec (hsound : Sound ⟨m, ix, p⟩ bs ls) (hb : ⟨b, size, true⟩ ∈ bs)
    (source : ByteArray) (hfit : source.size ≤ size - 8) :
    ∃ m', fill ⟨m, ix, p⟩ b source = .ok ⟨m', ix, p⟩ ∧ Becomes [b] ⟨m, ix, p⟩ bs ⟨m', ix, p⟩ bs ls ∧
      (∀ k < source.size, m'.bytes[b + k]? = source[k]?) ∧ m.SameOff m' b (b + source.size) := by
  have hbounds := hsound.laid.mem_bounds hb
  have husable := hsound.laid.usableSize_eq hb
  obtain ⟨m', hwrite, hbecomes⟩ := overwrite_spec hsound hb source hfit
  dsimp only at hbounds husable
  have hroom : ¬(size - 8 < source.size ∨ m.size < b + (size - 8)) := by omega
  refine ⟨m', ?_, hbecomes⟩
  simp [fill, husable, hroom, hwrite]

-- Copying bytes of one payload to the start of another one.
theorem copy_spec {source count : Nat} (hsound : Sound ⟨m, ix, p⟩ bs ls) (hb : ⟨b, size, true⟩ ∈ bs)
    (hsource : source + count ≤ m.size) (hfit : count ≤ size - 8) :
    ∃ m', copy ⟨m, ix, p⟩ source b count = .ok ⟨m', ix, p⟩ ∧
      Becomes [b] ⟨m, ix, p⟩ bs ⟨m', ix, p⟩ bs ls ∧
      ∀ k < count, m'.bytes[b + k]? = m.bytes[source + k]? := by
  have hslice := Memory.slice_eq_ok hsource
  obtain ⟨hsize, hfound⟩ := Memory.getElem?_of_slice hslice
  obtain ⟨m', hwrite, hbecomes, hbytes, -⟩ := overwrite_spec hsound hb _ (hsize.symm ▸ hfit)
  refine ⟨m', ?_, hbecomes, ?_⟩
  · simp [copy, hslice, hwrite]
  · intro k hk
    rw [hbytes k (hsize.symm ▸ hk), hfound k hk]

theorem payload_spec (hsound : h.Sound bs ls) (hb : ⟨b, size, true⟩ ∈ bs) :
    ∃ content, h.payload b = .ok content ∧ content.size = size - 8 ∧
      ∀ k < size - 8, content[k]? = h.memory.bytes[b + k]? := by
  have hbounds := hsound.laid.mem_bounds hb
  have husable := hsound.laid.usableSize_eq hb
  dsimp only at hbounds husable
  have hslice := Memory.slice_eq_ok (m := h.memory) (by omega : b + (size - 8) ≤ h.memory.size)
  exact ⟨_, by simp [payload, husable, hslice], Memory.getElem?_of_slice hslice⟩

-- A block that is spared keeps its payload.
theorem payload_eq_of_same (hsound : h.Sound bs ls) (hb : ⟨b, size, true⟩ ∈ bs)
    (hsound' : h'.Sound bs' ls') (hb' : ⟨b, size, true⟩ ∈ bs')
    (hsame : h.memory.SamePayload h'.memory ⟨b, size, true⟩) : h'.payload b = h.payload b := by
  have hbounds := hsound.laid.mem_bounds hb
  have hbounds' := hsound'.laid.mem_bounds hb'
  have husable := hsound.laid.usableSize_eq hb
  have husable' := hsound'.laid.usableSize_eq hb'
  dsimp only at hbounds hbounds' husable husable'
  have hslice : h'.memory.slice b (size - 8) = h.memory.slice b (size - 8) := by
    apply Memory.slice_congr (by omega) (by omega)
    intro k hk hk'
    apply hsame k hk
    dsimp only
    omega
  simp [payload, husable, husable', hslice]

end Heap

end SegregatedFit
