import SegregatedFit.Proofs.Heap.Sparing

/-!
Placement. The block that is found becomes an allocated one of the size that is needed, with a free
block behind it when enough is left over, and otherwise it is handed out whole.
-/

namespace SegregatedFit

-- The blocks that stand in the place of a free one of `size` bytes after `need` bytes are placed in it.
def placed (b size need : Nat) : List BlockInfo :=
  if minBlockSize ≤ size - need then [⟨b, need, true⟩, ⟨b + need, size - need, false⟩]
  else [⟨b, size, true⟩]

def Lists.place (ls : Lists) (b size need : Nat) : Lists :=
  if minBlockSize ≤ size - need then (ls.remove b size).insert (b + need) (size - need)
  else ls.remove b size

variable {m : Memory} {ix : Index} {p b size need : Nat} {xs ys : List BlockInfo} {ls : Lists}

-- Two tags over one block make two blocks of it.
theorem Laid.exists_split (h : Laid m p (xs ++ ⟨b, size, false⟩ :: ys))
    (hproper : BlockInfo.Proper ⟨b, need, true⟩) (hneed : need ≤ size)
    (hleft : minBlockSize ≤ size - need) :
    ∃ m₁ m₂, Block.write m b ⟨need, true⟩ = .ok m₁ ∧ Block.next m₁ b = .ok (b + need) ∧
      Block.write m₁ (b + need) ⟨size - need, false⟩ = .ok m₂ ∧ m₂.size = m.size ∧
      Laid m₂ p (xs ++ [⟨b, need, true⟩, ⟨b + need, size - need, false⟩] ++ ys) ∧
      Spares [b] m m₂ (xs ++ ⟨b, size, false⟩ :: ys)
        (xs ++ [⟨b, need, true⟩, ⟨b + need, size - need, false⟩] ++ ys) := by
  have hbounds := h.mem_bounds (i := ⟨b, size, false⟩) (by simp)
  have hneeds := hproper.bounds
  have hpad := h.pad
  obtain ⟨_, hx, rfl, hy⟩ := tiles_append.mp h.tiles
  simp only [minBlockSize] at hleft
  dsimp only at hbounds hneeds hx hy h
  obtain ⟨m₁, hwrite₁, hsize₁, htagged₁, hbytes₁⟩ :=
    Block.exists_write m b need true (by omega) hproper.aligned (by omega) hproper.size_le (by omega)
  obtain ⟨m₂, hwrite₂, hsize₂, htagged₂, hbytes₂⟩ :=
    Block.exists_write m₁ (b + need) (size - need) false (by omega) (by omega) (by omega)
      (by simp only [maxBlockSize]; omega) (by omega)
  have hsame₁ : m.SameOff m₁ (b - 4) (b + need - 4) := fun i _ => hbytes₁ i (by omega) (by omega)
  have hsame₂ : m₁.SameOff m₂ (b + need - 4) (b + size - 4) := fun i _ =>
    hbytes₂ i (by omega) (by omega)
  have hsame : m.SameOff m₂ (b - 4) (b + size - 4) :=
    (hsame₁.mono (Nat.le_refl _) (by omega)).trans (hsame₂.mono (by omega) (Nat.le_refl _))
  have hnext : Block.next m₁ b = .ok (b + need) := by
    apply Block.next_eq
    apply Block.size_eq (t := ⟨need, true⟩)
    exact Block.tag_eq (b := b) (by omega) htagged₁.header
  have hrest : BlockInfo.Proper ⟨b + need, size - need, false⟩ := by
    refine ⟨?_, ?_, ?_⟩ <;> simp only [alignment, minBlockSize, maxBlockSize] <;> omega
  have htagged₁' : m₂.Tagged ⟨b, need, true⟩ :=
    htagged₁.frame hsame₂ (by dsimp only; omega) (by dsimp only; omega)
  rw [List.append_cons] at h
  rw [List.append_cons xs ⟨b, size, false⟩]
  refine ⟨m₁, m₂, hwrite₁, hnext, hwrite₂, hsize₂.trans hsize₁, ?_, ?_⟩
  · refine h.replace _ (fun i hi => ?_) hx ⟨rfl, rfl, (by omega : b + need + (size - need) = b + size)⟩ hy
      (by simp [hproper, hrest]) (by simp [htagged₁', htagged₂]) (hsize₂.trans hsize₁) hsame
    simp only [List.mem_append] at hi ⊢
    tauto
  · exact Spares.of_replace h hx hy hsame (.inl (Nat.le_refl _)) (by simp)

namespace Heap.Sound

-- The heap without the block in question: its lists, and the blocks that they hold.
theorem filed_remove (h : Heap.Sound ⟨m, ix, p⟩ (xs ++ ⟨b, size, false⟩ :: ys) ls) :
    (ix.remove b size).Holds (ls.remove b size) ∧ Filed (ls.remove b size) (xs ++ ys) := by
  have hmem : (⟨b, size, false⟩ : BlockInfo) ∈ xs ++ ⟨b, size, false⟩ :: ys := by simp
  refine ⟨h.holds.remove (h.filed.mem hmem), ?_⟩
  have hfiled : Filed ls (⟨b, size, false⟩ :: (xs ++ ys)) := by
    apply h.filed.congr
    intro i _
    simp only [List.mem_cons, List.mem_append]
    tauto
  apply hfiled.remove h.holds.nodup
  intro i hi
  have hi' : i ∈ xs ++ ⟨b, size, false⟩ :: ys := by
    simp only [List.mem_cons, List.mem_append] at hi ⊢
    tauto
  have houtside := h.laid.tiles.outside hi
  have hself := h.laid.mem_bounds hmem
  have hbounds := h.laid.mem_bounds hi'
  dsimp only at houtside hself
  omega

-- The rest lies inside the old block, so no other block starts there.
theorem rest_notMem (h : Heap.Sound ⟨m, ix, p⟩ (xs ++ ⟨b, size, false⟩ :: ys) ls)
    (hproper : BlockInfo.Proper ⟨b, need, true⟩) (hleft : minBlockSize ≤ size - need) (c : SizeClass) :
    b + need ∉ ls.remove b size c := by
  intro hc
  obtain ⟨size', hother, -⟩ := (h.filed_remove.2 c (b + need)).mp hc
  have houtside := h.laid.tiles.outside hother
  have hbounds := h.laid.mem_bounds (i := ⟨b + need, size', false⟩) (by
    simp only [List.mem_append, List.mem_cons] at hother ⊢
    tauto)
  have hneeds := hproper.bounds
  simp only [minBlockSize] at hleft
  dsimp only at houtside hbounds hneeds
  omega

end Heap.Sound

namespace Heap

-- A block that is handed out whole.
private theorem place_whole (hsound : Sound ⟨m, ix, p⟩ (xs ++ ⟨b, size, false⟩ :: ys) ls)
    (hneed : need ≤ size) (hleft : ¬minBlockSize ≤ size - need) :
    ∃ h', place ⟨m, ix, p⟩ b need = .ok h' ∧
      Becomes [b] ⟨m, ix, p⟩ (xs ++ ⟨b, size, false⟩ :: ys) h' (xs ++ ⟨b, size, true⟩ :: ys)
        (ls.remove b size) := by
  have hmem : (⟨b, size, false⟩ : BlockInfo) ∈ xs ++ ⟨b, size, false⟩ :: ys := by simp
  have hlaid := hsound.laid
  have hproper := hlaid.proper _ hmem
  have hread := hlaid.size_eq hmem
  obtain ⟨hholds, hfiled⟩ := hsound.filed_remove
  obtain ⟨_, hx, rfl, hy⟩ := tiles_append.mp hlaid.tiles
  rw [List.append_cons] at hlaid
  obtain ⟨m', hwrite, hsize, hlaid', hspares, -⟩ := hlaid.exists_write true [b] hx hy
    ⟨hproper.aligned, hproper.le_size, hproper.size_le⟩ (by simp)
  refine ⟨⟨m', ix.remove b size, p⟩, ?_, ⟨hlaid', hholds, ?_⟩, rfl, Nat.le_of_eq hsize.symm, ?_⟩
  · dsimp only at hread hwrite
    simp [place, hread, subtract_eq_ok hneed, hleft, Tag.used, hwrite]
  · apply hfiled.congr
    intro i hi
    have hne : i ≠ ⟨b, size, true⟩ := by
      rintro rfl
      cases hi
    simp [hne]
  · simpa using hspares

-- A block of which enough is left over for a free one.
private theorem place_split (hsound : Sound ⟨m, ix, p⟩ (xs ++ ⟨b, size, false⟩ :: ys) ls)
    (hproper : BlockInfo.Proper ⟨b, need, true⟩) (hneed : need ≤ size)
    (hleft : minBlockSize ≤ size - need) :
    ∃ h', place ⟨m, ix, p⟩ b need = .ok h' ∧
      Becomes [b] ⟨m, ix, p⟩ (xs ++ ⟨b, size, false⟩ :: ys) h'
        (xs ++ [⟨b, need, true⟩, ⟨b + need, size - need, false⟩] ++ ys)
        ((ls.remove b size).insert (b + need) (size - need)) := by
  obtain ⟨hholds, hfiled⟩ := hsound.filed_remove
  have hread := hsound.laid.size_eq (i := ⟨b, size, false⟩) (by simp)
  obtain ⟨m₁, m₂, hwrite₁, hnext, hwrite₂, hsize, hlaid, hspares⟩ :=
    hsound.laid.exists_split hproper hneed hleft
  refine ⟨⟨m₂, (ix.remove b size).insert (b + need) (size - need), p⟩, ?_, ⟨hlaid, ?_, ?_⟩, rfl,
    Nat.le_of_eq hsize.symm, hspares⟩
  · dsimp only at hread
    simp [place, hread, subtract_eq_ok hneed, hleft, Tag.used, Tag.free, hwrite₁, hnext, hwrite₂]
  · exact hholds.insert (hsound.rest_notMem hproper hleft) (size - need)
  · apply (hfiled.insert (b + need) (size - need)).congr
    intro i hi
    have hne : i ≠ ⟨b, need, true⟩ := by
      rintro rfl
      cases hi
    simp only [List.append_assoc, List.cons_append, List.nil_append, List.mem_append, List.mem_cons,
      hne, false_or]
    tauto

-- Placing makes the blocks `placed` of a free one, and the heap is sound again.
theorem place_spec (hsound : Sound ⟨m, ix, p⟩ (xs ++ ⟨b, size, false⟩ :: ys) ls)
    (hproper : BlockInfo.Proper ⟨b, need, true⟩) (hneed : need ≤ size) :
    ∃ h', place ⟨m, ix, p⟩ b need = .ok h' ∧
      Becomes [b] ⟨m, ix, p⟩ (xs ++ ⟨b, size, false⟩ :: ys) h' (xs ++ placed b size need ++ ys)
        (ls.place b size need) := by
  by_cases hleft : minBlockSize ≤ size - need
  · rw [placed, if_pos hleft, Lists.place, if_pos hleft]
    exact place_split hsound hproper hneed hleft
  · rw [placed, if_neg hleft, Lists.place, if_neg hleft]
    simpa using place_whole hsound hneed hleft

end Heap

end SegregatedFit
