import SegregatedFit.Proofs.Allocator.Supply
import SegregatedFit.Proofs.Heap.Payload

/-!
Giving blocks back and resizing them. A block that is too small takes in its free successor, grows
together with the region, or moves; in each case it ends up with the content that it had, and when none
of this is possible the heap stays as it is.
-/

namespace SegregatedFit.Allocator

variable {ρ : Type} {a : Allocator ρ} {bs xs ys : List BlockInfo} {ls : Lists}

theorem free_spec {z : Site} (hsound : a.heap.Sound (z.blocks true) z.lists) :
    ∃ h', (a.free (some z.offset)).result = .ok ⟨h', a.reserve, a.chunk⟩ ∧
      Heap.Becomes [z.offset] a.heap (z.blocks true) h' (z.merge.blocks false) z.merge.filedLists := by
  obtain ⟨h', hrelease, hbecomes⟩ := Heap.release_spec hsound
  exact ⟨h', by simp [free, update, hrelease], hbecomes⟩

-- What becomes of the block `b` of `size` bytes, between the blocks `xs` and `ys`, when `request` bytes
-- are asked for, which take a block of `need` bytes: the answer, and the heap that is left.
inductive Resizing (h : Heap) (chunk : Nat) (xs : List BlockInfo) (b size : Nat) (ys : List BlockInfo)
    (ls : Lists) (request need : Nat) : Option Block → Heap → List BlockInfo → Lists → Prop
  | stay (hneed : need ≤ size) :
      Resizing h chunk xs b size ys ls request need (some b) h (xs ++ ⟨b, size, true⟩ :: ys) ls
  | absorb (hneed : size < need) (hys : ys = ⟨b + size, gain, false⟩ :: rest)
      (hfits : need ≤ size + gain) (hmax : size + gain ≤ maxBlockSize)
      (hbecomes : Heap.Becomes [b] h (xs ++ ⟨b, size, true⟩ :: ys) h'
        (xs ++ ⟨b, size + gain, true⟩ :: rest) (ls.remove (b + size) gain))
      (hpayload : h.memory.SamePayload h'.memory ⟨b, size, true⟩) :
      Resizing h chunk xs b size ys ls request need (some b) h' (xs ++ ⟨b, size + gain, true⟩ :: rest)
        (ls.remove (b + size) gain)
  | stretch (hneed : size < need) (hys : ys = [])
      (hbecomes : Heap.Becomes [b] h (xs ++ ⟨b, size, true⟩ :: ys) h' (xs ++ [⟨b, need, true⟩]) ls)
      (hpayload : h.memory.SamePayload h'.memory ⟨b, size, true⟩) :
      Resizing h chunk xs b size ys ls request need (some b) h' (xs ++ [⟨b, need, true⟩]) ls
  | refuse (hneed : size < need) :
      Resizing h chunk xs b size ys ls request need none h (xs ++ ⟨b, size, true⟩ :: ys) ls
  | move (moved : Nat) (z : Site) (hneed : size < need)
      (hallot : Allotment h chunk (xs ++ ⟨b, size, true⟩ :: ys) ls request moved h₁ bs₁ ls₁)
      (hcopy : Heap.Becomes [moved] h₁ bs₁ h₂ bs₁ ls₁)
      (hbytes : ∀ k < size - 8, h₂.memory.bytes[moved + k]? = h₁.memory.bytes[b + k]?)
      (hsite : z.blocks true = bs₁ ∧ z.offset = b ∧ z.size = size ∧ z.lists = ls₁)
      (hrelease : Heap.Becomes [b] h₂ bs₁ h₃ (z.merge.blocks false) z.merge.filedLists) :
      Resizing h chunk xs b size ys ls request need (some moved) h₃ (z.merge.blocks false)
        z.merge.filedLists

-- A moving block: a new one is handed out, the content is copied, and the old one is given back.
theorem move_spec {h₁ : Heap} {bs₁ : List BlockInfo} {ls₁ : Lists} {b size request moved : Nat}
    (reserve : ρ) (chunk : ChunkSize) {least : Nat} (hb : ⟨b, size, true⟩ ∈ bs)
    (hfits : size ≤ request + 8) (hallot : Allotment h least bs ls request moved h₁ bs₁ ls₁) :
    ∃ m₂ h₃ z, Heap.copy h₁ b moved (size - 8) = .ok ⟨m₂, h₁.index, h₁.prologue⟩ ∧
      (free ⟨⟨m₂, h₁.index, h₁.prologue⟩, reserve, chunk⟩ (some b)).result = .ok ⟨h₃, reserve, chunk⟩ ∧
      Heap.Becomes [moved] h₁ bs₁ ⟨m₂, h₁.index, h₁.prologue⟩ bs₁ ls₁ ∧
      (∀ k < size - 8, m₂.bytes[moved + k]? = h₁.memory.bytes[b + k]?) ∧
      (Site.blocks z true = bs₁ ∧ z.offset = b ∧ z.size = size ∧ z.lists = ls₁) ∧
      Heap.Becomes [b] ⟨m₂, h₁.index, h₁.prologue⟩ bs₁ h₃ (z.merge.blocks false) z.merge.filedLists := by
  obtain ⟨total, hmoved, htotal⟩ := hallot.block
  have hsound := hallot.becomes.sound
  obtain ⟨-, hb₁⟩ := hallot.kept hb
  have hbounds := hsound.laid.mem_bounds hb₁
  dsimp only at hbounds
  obtain ⟨m₂, hcopy, hcopied, hbytes⟩ :=
    Heap.copy_spec hsound hmoved (by omega : b + (size - 8) ≤ h₁.memory.size) (by omega)
  obtain ⟨xs₁, ys₁, hsplit⟩ := List.append_of_mem hb₁
  have hsite : (Site.mk xs₁.reverse b size ys₁ ls₁).blocks true = bs₁ := by
    rw [hsplit]
    simp [Site.blocks]
  have hsound₂ := hcopied.sound
  rw [← hsite] at hsound₂
  obtain ⟨h₃, hfree, hreleased⟩ := free_spec (a := ⟨⟨m₂, h₁.index, h₁.prologue⟩, reserve, chunk⟩) hsound₂
  rw [hsite] at hreleased
  exact ⟨m₂, h₃, _, hcopy, hfree, hcopied, hbytes, ⟨hsite, rfl, rfl, rfl⟩, hreleased⟩

variable [Reserve ρ]

-- Every resizing ends in one of these ways, whatever the reserve answers.
theorem resize_spec {b size request need : Nat} (hsound : a.heap.Sound (xs ++ ⟨b, size, true⟩ :: ys) ls)
    (hneed : blockSizeFor request = some need) :
    ∃ answer h' reserve bs' ls',
      (a.resize b request need).result = .ok (answer, ⟨h', reserve, a.chunk⟩) ∧
        Resizing a.heap a.chunk.val xs b size ys ls request need answer h' bs' ls' := by
  have hmem : (⟨b, size, true⟩ : BlockInfo) ∈ xs ++ ⟨b, size, true⟩ :: ys := by simp
  have hlaid := hsound.laid
  have hread := hlaid.size_eq hmem
  have hnext := hlaid.next_eq hmem
  have hafter := hlaid.tag_after
  have hself := hlaid.mem_bounds hmem
  have hbounds := (blockSizeFor_spec hneed).1
  dsimp only at hread hnext hafter hself
  simp only [resize, Run.result_bind, Run.result_lift, hread, ok_bind]
  by_cases hstay : need ≤ size
  · exact ⟨some b, a.heap, a.reserve, _, _, by simp [hstay], .stay hstay⟩
  rw [if_neg hstay]
  have hgrow := Nat.lt_of_not_le hstay
  obtain ⟨after, htag⟩ : ∃ after, ys.head?.elim Tag.epilogue BlockInfo.tag = after := ⟨_, rfl⟩
  rw [htag] at hafter
  simp only [Run.result_bind, Run.result_lift, hnext, hafter, ok_bind]
  by_cases habsorb : ¬after.allocated ∧ need ≤ size + after.size ∧ size + after.size ≤ maxBlockSize
  · cases ys with
    | nil =>
        obtain rfl : Tag.epilogue = after := htag
        exact absurd rfl habsorb.1
    | cons j ys =>
        obtain rfl : j.tag = after := htag
        obtain ⟨gain, rfl⟩ : ∃ gain, j = ⟨b + size, gain, false⟩ := by
          obtain ⟨_, -, rfl, hadjacent, -⟩ := tiles_append.mp hlaid.tiles
          have hfree : j.allocated = false := Bool.eq_false_iff.mpr habsorb.1
          exact ⟨j.size, by rw [← hfree, ← hadjacent]⟩
        obtain ⟨h', hstep, hbecomes, hpayload⟩ := Heap.absorb_spec hsound habsorb.2.2
        refine ⟨some b, h', a.reserve, _, _, ?_,
          .absorb hgrow rfl habsorb.2.1 habsorb.2.2 hbecomes hpayload⟩
        rw [if_pos habsorb]
        simp [update, BlockInfo.tag, hstep]
  rw [if_neg habsorb]
  cases ys with
  | nil =>
      obtain rfl : Tag.epilogue = after := htag
      have hend : a.heap.memory.size = b + size := by
        obtain ⟨_, -, rfl, hend⟩ := tiles_append.mp hlaid.tiles
        exact hend.symm
      have hzero : Tag.epilogue.size = 0 := rfl
      rw [if_pos hzero]
      rcases a.extend_cases (need - size) with
        ⟨cause, -, hextend⟩ | ⟨⟨fresh, hfresh⟩, -, hextend⟩
      · exact ⟨none, a.heap, (a.request (need - size)).reserve, _, _, by simp [hextend], .refuse hgrow⟩
      · have hproper : BlockInfo.Proper ⟨b, need, true⟩ := ⟨hbounds.1, hbounds.2.1, hbounds.2.2.1⟩
        obtain ⟨h', hstretch, hbecomes, hpayload⟩ :=
          Heap.stretch_spec hsound fresh (by omega) hproper
        refine ⟨some b, h', (a.request (need - size)).reserve, _, _, ?_,
          .stretch hgrow rfl hbecomes hpayload⟩
        simp [hextend, update, hstretch]
  | cons j ys =>
      obtain rfl : j.tag = after := htag
      have hj := hlaid.mem_bounds (i := j) (by simp)
      have hnonzero : ¬j.tag.size = 0 := by
        simp only [BlockInfo.tag]
        omega
      rw [if_neg hnonzero]
      rcases allocate_spec hsound request with
        ⟨reserve, hallocate, -⟩ | ⟨moved, h₁, reserve, bs₁, ls₁, hallocate, hallot, -⟩
      · exact ⟨none, a.heap, reserve, _, _, by simp [hallocate], .refuse hgrow⟩
      · -- the content fits as a whole, since the block was too small for the request
        have hfits := le_of_lt_blockSizeFor hneed hself.2.2.2.1 hself.2.2.2.2.1 hgrow
        obtain ⟨m₂, h₃, z, hcopy, hfree, hcopied, hbytes, hsite, hreleased⟩ :=
          move_spec reserve a.chunk hmem hfits hallot
        have hsub : subtract size overhead = .ok (size - 8) :=
          subtract_eq_ok (by simp only [overhead]; omega)
        have hcount : min (size - 8) request = size - 8 := by omega
        refine ⟨some moved, h₃, reserve, _, _, ?_,
          .move moved z hgrow hallot hcopied hbytes hsite hreleased⟩
        simp [hallocate, hsub, hcount, update, hcopy, hfree]

-- The block that is answered has room for the request, and begins with the old content.
theorem Resizing.content {h h' : Heap} {chunk b size request need q : Nat} {bs' : List BlockInfo}
    {ls' : Lists} (hresizing : Resizing h chunk xs b size ys ls request need (some q) h' bs' ls')
    (hneed : blockSizeFor request = some need) :
    ∃ total, ⟨q, total, true⟩ ∈ bs' ∧ request + 8 ≤ total ∧
      ∀ k < min (size - 8) request, h'.memory.bytes[q + k]? = h.memory.bytes[b + k]? := by
  have hroom := (blockSizeFor_spec hneed).1.2.2.2
  have hself : ∀ {size' : Nat} {rest : List BlockInfo},
      (⟨b, size', true⟩ : BlockInfo) ∈ xs ++ ⟨b, size', true⟩ :: rest :=
    List.mem_append_right _ List.mem_cons_self
  cases hresizing with
  | stay hfits => exact ⟨size, hself, by omega, fun k hk => rfl⟩
  | absorb hgrow hys hfits hmax hbecomes hpayload =>
      exact ⟨_, hself, by omega, fun k hk => hpayload (b + k) (by simp) (by dsimp only; omega)⟩
  | stretch hgrow hys hbecomes hpayload =>
      exact ⟨_, hself, by omega, fun k hk => hpayload (b + k) (by simp) (by dsimp only; omega)⟩
  | move _ z hgrow hallot hcopy hbytes hsite hrelease =>
      obtain ⟨total, hblock, htotal⟩ := hallot.block
      have hne := hallot.fresh _ hself rfl
      refine ⟨total, (hrelease.spares.kept _ rfl ?_).mpr hblock, htotal, ?_⟩
      · simpa using hne.symm
      · intro k hk
        -- back through the release, the copy and the allotment
        rw [hrelease.spares.payload _ hblock rfl (by simpa using hne.symm) (q + k) (by simp)
            (by dsimp only; omega), hbytes k (by omega),
          hallot.becomes.spares.payload _ hself rfl (by simpa using hne) (b + k) (by simp)
            (by dsimp only; omega)]

end SegregatedFit.Allocator
