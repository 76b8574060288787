import SegregatedFit.Proofs.Heap.Layout
import SegregatedFit.Proofs.Index.Lists

/-!
Which blocks the lists hold. `Filed ls bs` says that the lists hold the free ones among the blocks `bs`,
each under the class of its size, and nothing else. A sound heap is one whose memory is laid out as a
list of blocks, and whose index holds lists of exactly the free ones.
-/

namespace SegregatedFit

def Filed (ls : Lists) (bs : List BlockInfo) : Prop :=
  ∀ c b, b ∈ ls c ↔ ∃ size, ⟨b, size, false⟩ ∈ bs ∧ SizeClass.ofSize size = c

namespace Filed

variable {ls : Lists} {bs bs' : List BlockInfo} {i : BlockInfo} {offset size : Nat}

theorem empty : Filed .empty [] := by
  intro c b
  simp [Lists.empty]

theorem mem (h : Filed ls bs) (hi : ⟨offset, size, false⟩ ∈ bs) :
    offset ∈ ls (SizeClass.ofSize size) :=
  (h _ _).mpr ⟨size, hi, rfl⟩

-- Only the free blocks count.
theorem congr (h : Filed ls bs) (hsame : ∀ i : BlockInfo, i.allocated = false → (i ∈ bs' ↔ i ∈ bs)) :
    Filed ls bs' := by
  intro c b
  simp only [h c b, fun size => hsame ⟨b, size, false⟩ rfl]

theorem insert (h : Filed ls bs) (offset size : Nat) :
    Filed (ls.insert offset size) (⟨offset, size, false⟩ :: bs) := by
  intro c b
  rw [Lists.mem_insert, h c b]
  constructor
  · rintro (⟨rfl, rfl⟩ | ⟨size', hb, rfl⟩)
    · exact ⟨size, by simp, rfl⟩
    · exact ⟨size', List.mem_cons_of_mem _ hb, rfl⟩
  · rintro ⟨size', hb, rfl⟩
    rcases List.mem_cons.mp hb with hb | hb
    · obtain ⟨rfl, rfl, -⟩ := BlockInfo.mk.inj hb
      exact .inl ⟨rfl, rfl⟩
    · exact .inr ⟨size', hb, rfl⟩

theorem remove (h : Filed ls (⟨offset, size, false⟩ :: bs)) (hnodup : ∀ c, (ls c).Nodup)
    (hother : ∀ i ∈ bs, i.offset ≠ offset) : Filed (ls.remove offset size) bs := by
  intro c b
  have hmem : b ∈ ls.remove offset size c ↔
      (c = SizeClass.ofSize size → b ≠ offset) ∧ b ∈ ls c := by
    by_cases hc : c = SizeClass.ofSize size
    · rw [Lists.remove, if_pos hc, (hnodup c).mem_erase_iff]
      simp [hc]
    · simp [Lists.remove, hc]
  rw [hmem, h c b]
  constructor
  · rintro ⟨hne, size', hb, rfl⟩
    rcases List.mem_cons.mp hb with hb | hb
    · obtain ⟨rfl, rfl, -⟩ := BlockInfo.mk.inj hb
      exact absurd rfl (hne rfl)
    · exact ⟨size', hb, rfl⟩
  · rintro ⟨size', hb, rfl⟩
    exact ⟨fun _ => hother _ hb, size', List.mem_cons_of_mem _ hb, rfl⟩

end Filed

structure Heap.Sound (h : Heap) (bs : List BlockInfo) (ls : Lists) : Prop where
  laid : Laid h.memory h.prologue bs
  holds : h.index.Holds ls
  filed : Filed ls bs

end SegregatedFit
