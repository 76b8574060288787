import SegregatedFit.Proofs.Heap.Filing

/-!
The walk over a memory that blocks tile. It meets the blocks one by one, ends at the epilogue, and its
fuel lasts, since no block is smaller than sixteen bytes. Of a block it reads nothing but the header.
-/

namespace SegregatedFit

variable {m : Memory} {bs : List BlockInfo} {h : Heap}

namespace Heap

theorem walkFrom_of_tiles {fuel start : Nat} (htiles : Tiles start bs m.size)
    (htag : ∀ i ∈ bs, Block.tag m i.offset = .ok i.tag) (hproper : ∀ i ∈ bs, i.Proper)
    (hend : Block.tag m m.size = .ok .epilogue) (hfuel : bs.length < fuel) (met : Array BlockInfo) :
    walkFrom m fuel start met = (met ++ bs.toArray, none) := by
  induction bs generalizing fuel start met with
  | nil =>
      obtain ⟨fuel, rfl⟩ := Nat.exists_eq_succ_of_ne_zero (Nat.ne_zero_of_lt hfuel)
      have hstart : start = m.size := htiles
      simp [walkFrom, hstart, hend, Tag.epilogue]
  | cons i bs ih =>
      obtain ⟨fuel, rfl⟩ := Nat.exists_eq_succ_of_ne_zero (Nat.ne_zero_of_lt hfuel)
      obtain ⟨rfl, hrest⟩ := htiles
      have hnonzero : ¬i.tag.size = 0 := Nat.ne_zero_of_lt (hproper i List.mem_cons_self).le_size
      simp only [walkFrom, htag i List.mem_cons_self, if_neg hnonzero]
      exact (ih hrest (fun j hj => htag j (List.mem_cons_of_mem i hj))
        (fun j hj => hproper j (List.mem_cons_of_mem i hj)) (by simpa using hfuel) _).trans
          (by simp [BlockInfo.tag])

theorem trail_of_tiles (hprologue : Block.tag h.memory h.prologue = .ok (.used overhead))
    (htiles : Tiles (h.prologue + 8) bs h.memory.size)
    (htag : ∀ i ∈ bs, Block.tag h.memory i.offset = .ok i.tag) (hproper : ∀ i ∈ bs, i.Proper)
    (hend : Block.tag h.memory h.memory.size = .ok .epilogue) : h.trail = (bs.toArray, none) := by
  have hnext : h.prologue.next h.memory = .ok (h.prologue + 8) :=
    Block.next_eq (Block.size_eq hprologue)
  have hlength := htiles.length_le hproper
  have hwalk := walkFrom_of_tiles htiles htag hproper hend
    (by omega : bs.length < h.memory.size / 8 + 2) #[]
  simp [trail, hnext, hwalk]

theorem trail_eq (hlaid : Laid h.memory h.prologue bs) : h.trail = (bs.toArray, none) :=
  trail_of_tiles hlaid.tag_prologue hlaid.tiles (fun _ hi => hlaid.tag_eq hi) hlaid.proper
    hlaid.tag_epilogue

theorem blocks_of_trail (htrail : h.trail = (bs.toArray, none)) : h.blocks = .ok bs := by
  simp [blocks, htrail]

theorem blocks_eq (hlaid : Laid h.memory h.prologue bs) : h.blocks = .ok bs :=
  blocks_of_trail (trail_eq hlaid)

end Heap

end SegregatedFit
