import SegregatedFit.Proofs.Allocator.Resize
import SegregatedFit.Proofs.Client

/-!
What a request does. Every admissible request succeeds, and its effect on the heap is one of the cases
of `Change`; what a run of requests preserves is derived from them.
-/

namespace SegregatedFit

variable {ρ : Type} [Reserve ρ]

-- What a request does to a sound heap `h` of blocks `bs` and lists `ls`: the answer, and the heap that
-- is left.
inductive Change (h : Heap) (chunk : Nat) (bs : List BlockInfo) (ls : Lists) :
    Request → Option Block → Heap → List BlockInfo → Lists → Prop
  -- nothing happens, and no handle is handed out
  | decline {r : Request} (hr : (∃ size, r = .allocate size ∨ ∃ b, 0 < size ∧ r = .reallocate b size) ∨
      r = .free none ∨ r = .reallocate none 0) : Change h chunk bs ls r none h bs ls
  | allot {r : Request} (b size : Nat) (hr : r = .allocate size ∨ r = .reallocate none size)
      (hallot : Allocator.Allotment h chunk bs ls size b h' bs' ls') :
      Change h chunk bs ls r (some b) h' bs' ls'
  | release {r : Request} (z : Site) (hr : r = .free (some z.offset) ∨ r = .reallocate (some z.offset) 0)
      (hsite : z.blocks true = bs ∧ z.lists = ls)
      (hbecomes : Heap.Becomes [z.offset] h bs h' (z.merge.blocks false) z.merge.filedLists) :
      Change h chunk bs ls r none h' (z.merge.blocks false) z.merge.filedLists
  | resize (b size : Nat) {total need : Nat} (hsize : 0 < size) (hneed : blockSizeFor size = some need)
      (hsplit : bs = xs ++ ⟨b, total, true⟩ :: ys)
      (hresizing : Allocator.Resizing h chunk xs b total ys ls size need answer h' bs' ls') :
      Change h chunk bs ls (.reallocate (some b) size) answer h' bs' ls'
  | write (b : Nat) (content : ByteArray) {total : Nat} (hmem : ⟨b, total, true⟩ ∈ bs)
      (hfits : content.size ≤ total - 8) (hbecomes : Heap.Becomes [b] h bs h' bs ls)
      (hbytes : ∀ k < content.size, h'.memory.bytes[b + k]? = content[k]?)
      (hsame : h.memory.SameOff h'.memory b (b + content.size)) :
      Change h chunk bs ls (.write b content) none h' bs ls

namespace Client

-- The heap is sound, and its allocated blocks are the live handles.
structure Inv (c : Client ρ) (bs : List BlockInfo) (ls : Lists) : Prop where
  sound : c.allocator.heap.Sound bs ls
  live : ∀ b, b ∈ c.live ↔ ∃ size, ⟨b, size, true⟩ ∈ bs

variable {c : Client ρ} {bs : List BlockInfo} {ls : Lists} {r : Request}

omit [Reserve ρ] in
-- The site of a live handle.
theorem Inv.exists_site (hinv : c.Inv bs ls) (hb : b ∈ c.live) :
    ∃ z : Site, z.offset = b ∧ z.blocks true = bs ∧ z.lists = ls := by
  obtain ⟨size, hmem⟩ := (hinv.live b).mp hb
  obtain ⟨xs, ys, rfl⟩ := List.append_of_mem hmem
  exact ⟨⟨xs.reverse, b, size, ys, ls⟩, rfl, by simp [Site.blocks], rfl⟩

theorem Inv.exists_allocate (hinv : c.Inv bs ls) (hr : r = .allocate size ∨ r = .reallocate none size) :
    ∃ answer h' reserve bs' ls',
      (c.allocator.allocate size).result = .ok (answer, ⟨h', reserve, c.allocator.chunk⟩) ∧
        Change c.allocator.heap c.allocator.chunk.val bs ls r answer h' bs' ls' := by
  rcases Allocator.allocate_spec hinv.sound size with
    ⟨reserve, hallocate, -⟩ | ⟨b, h', reserve, bs', ls', hallocate, hallot, -⟩
  · refine ⟨none, _, reserve, bs, ls, hallocate, .decline ?_⟩
    rcases hr with rfl | rfl
    · exact .inl ⟨size, .inl rfl⟩
    · by_cases hzero : size = 0
      · subst hzero
        exact .inr (.inr rfl)
      · exact .inl ⟨size, .inr ⟨none, Nat.pos_of_ne_zero hzero, rfl⟩⟩
  · exact ⟨some b, h', reserve, bs', ls', hallocate, .allot b size hr hallot⟩

omit [Reserve ρ] in
theorem Inv.exists_free {b : Nat} (hinv : c.Inv bs ls) (hb : b ∈ c.live)
    (hr : r = .free (some b) ∨ r = .reallocate (some b) 0) :
    ∃ h' bs' ls', (c.allocator.free (some b)).result =
        .ok ⟨h', c.allocator.reserve, c.allocator.chunk⟩ ∧
      Change c.allocator.heap c.allocator.chunk.val bs ls r none h' bs' ls' := by
  obtain ⟨z, rfl, hblocks, hlists⟩ := hinv.exists_site hb
  have hsound := hinv.sound
  rw [← hblocks, ← hlists] at hsound
  obtain ⟨h', hfree, hbecomes⟩ := Allocator.free_spec hsound
  rw [hblocks] at hbecomes
  exact ⟨h', _, _, hfree, .release z hr ⟨hblocks, hlists⟩ hbecomes⟩

-- Every admissible request is answered, and what it does is one of the changes.
theorem Inv.exists_change (hinv : c.Inv bs ls) (hadmits : c.Admits r) :
    ∃ answer h' reserve bs' ls',
      (r.run c.allocator).result = .ok (answer, ⟨h', reserve, c.allocator.chunk⟩) ∧
        Change c.allocator.heap c.allocator.chunk.val bs ls r answer h' bs' ls' := by
  obtain ⟨htarget, hmore⟩ := hadmits
  cases r with
  | allocate size => exact hinv.exists_allocate (.inl rfl)
  | free block =>
      cases block with
      | none =>
          exact ⟨none, _, c.allocator.reserve, bs, ls, rfl, .decline (.inr (.inl rfl))⟩
      | some b =>
          obtain ⟨h', bs', ls', hrun, hchange⟩ := hinv.exists_free (htarget b rfl) (.inl rfl)
          exact ⟨none, h', c.allocator.reserve, bs', ls', by simp [Request.run, hrun], hchange⟩
  | reallocate block size =>
      cases block with
      | none => exact hinv.exists_allocate (.inr rfl)
      | some b =>
          by_cases hzero : size = 0
          · subst hzero
            obtain ⟨h', bs', ls', hrun, hchange⟩ := hinv.exists_free (htarget b rfl) (.inr rfl)
            refine ⟨none, h', c.allocator.reserve, bs', ls', ?_, hchange⟩
            simp [Request.run, Allocator.reallocate, hrun]
          have hsize := Nat.pos_of_ne_zero hzero
          cases hneed : blockSizeFor size with
          | none =>
              refine ⟨none, _, c.allocator.reserve, bs, ls, ?_,
                .decline (.inl ⟨size, .inr ⟨some b, hsize, rfl⟩⟩)⟩
              simp [Request.run, Allocator.reallocate, hzero, hneed]
          | some need =>
              obtain ⟨total, hmem⟩ := (hinv.live b).mp (htarget b rfl)
              obtain ⟨xs, ys, hsplit⟩ := List.append_of_mem hmem
              obtain ⟨answer, h', reserve, bs', ls', hrun, hresizing⟩ :=
                Allocator.resize_spec (hsplit ▸ hinv.sound) hneed
              refine ⟨answer, h', reserve, bs', ls', ?_, .resize b size hsize hneed hsplit hresizing⟩
              simp [Request.run, Allocator.reallocate, hzero, hneed, hrun]
  | write b content =>
      obtain ⟨total, hmem⟩ := (hinv.live b).mp (htarget b rfl)
      have husable : c.allocator.usableSize b = .ok (total - 8) :=
        hinv.sound.laid.usableSize_eq hmem
      have hroom : content.size ≤ total - 8 := by simpa [husable, Except.toOption] using hmore
      obtain ⟨m', hfill, hbecomes, hbytes, hsame⟩ := Heap.fill_spec hinv.sound hmem content hroom
      refine ⟨none, _, c.allocator.reserve, bs, ls, ?_, .write b content hmem hroom hbecomes hbytes hsame⟩
      simp [Request.run, Allocator.update, hfill]

end Client

namespace Change

variable {h h' : Heap} {chunk : Nat} {bs bs' : List BlockInfo} {ls ls' : Lists} {r : Request}
  {answer : Option Block}

-- A change works on the block that the request names and on the one that it hands out.
theorem becomes (hchange : Change h chunk bs ls r answer h' bs' ls') (hsound : h.Sound bs ls) :
    Heap.Becomes (r.target.toList ++ answer.toList) h bs h' bs' ls' := by
  cases hchange with
  | decline hr => exact .refl hsound _
  | allot b size hr hallot => exact hallot.becomes.mono (by simp)
  | release z hr hsite hbecomes =>
      refine hbecomes.mono ?_
      rcases hr with rfl | rfl <;> simp [Request.target]
  | resize b size hsize hneed hsplit hresizing =>
      cases hresizing with
      | stay hfits => exact hsplit ▸ .refl hsound _
      | absorb hneed hys hfits hmax hbecomes hpayload =>
          rw [hsplit]
          exact hbecomes.mono (by simp [Request.target])
      | stretch hneed hys hbecomes hpayload =>
          rw [hsplit]
          exact hbecomes.mono (by simp [Request.target])
      | refuse hneed => exact hsplit ▸ .refl hsound _
      | move moved z hneed hallot hcopy hbytes hsite hrelease =>
          rw [hsplit]
          refine .trans (hallot.becomes.mono ?_) (.trans (hcopy.mono ?_) (hrelease.mono ?_)) <;>
            simp [Request.target]
  | write b content hmem hfits hbecomes hbytes hsame => exact hbecomes.mono (by simp [Request.target])

-- A handle that is handed out for a new block has not been live.
theorem fresh (hchange : Change h chunk bs ls r (some b) h' bs' ls') (hb : r.target ≠ some b)
    (size : Nat) : ⟨b, size, true⟩ ∉ bs := by
  intro hmem
  cases hchange with
  | allot b size hr hallot => exact hallot.fresh _ hmem rfl rfl
  | resize b size hsize hneed hsplit hresizing =>
      cases hresizing with
      | stay => exact hb rfl
      | absorb => exact hb rfl
      | stretch => exact hb rfl
      | move moved z hneed hallot => exact hallot.fresh _ (hsplit ▸ hmem) rfl rfl

-- The handles after the change are those that the client's book says.
theorem live (hchange : Change h chunk bs ls r answer h' bs' ls') (hsound : h.Sound bs ls)
    {live : Finset Nat} (hlive : ∀ b, b ∈ live ↔ ∃ size, ⟨b, size, true⟩ ∈ bs) (b : Nat) :
    b ∈ r.liveAfter live answer ↔ ∃ size, ⟨b, size, true⟩ ∈ bs' := by
  have hspares := (hchange.becomes hsound).spares
  cases hchange with
  | decline hr =>
      rcases hr with ⟨size, rfl | ⟨b', hsize, rfl⟩⟩ | rfl | rfl
      · exact hlive b
      · simp [Request.liveAfter, Nat.ne_of_gt hsize, hlive]
      · exact hlive b
      · exact hlive b
  | allot q size hr hallot =>
      have hafter : r.liveAfter live (some q) = insert q live := by
        rcases hr with rfl | rfl <;> simp [Request.liveAfter]
      rw [hafter, Finset.mem_insert]
      by_cases hb : b = q
      · subst hb
        obtain ⟨total, hmem, -⟩ := hallot.block
        exact iff_of_true (.inl rfl) ⟨total, hmem⟩
      · rw [hallot.becomes.spares.handle_iff (by simpa using hb), ← hlive]
        simp [hb]
  | release z hr hsite hbecomes =>
      have hafter : r.liveAfter live none = live.erase z.offset := by
        rcases hr with rfl | rfl <;> simp [Request.liveAfter]
      have hlaid : Laid h.memory h.prologue (z.blocks true) := hsite.1 ▸ hsound.laid
      rw [hafter, Finset.mem_erase]
      by_cases hb : b = z.offset
      · subst hb
        apply iff_of_false (fun hne => hne.1 rfl)
        rintro ⟨size, hmem⟩
        exact Site.not_handle_merge hlaid size hmem
      · rw [hbecomes.spares.handle_iff (by simpa using hb), ← hlive]
        simp [hb]
  | resize p size hsize hneed hsplit hresizing =>
      have hmoved : ∀ q, b ∈ (Request.reallocate (some p) size).liveAfter live (some q) ↔
          b = q ∨ b ≠ p ∧ b ∈ live := by simp [Request.liveAfter]
      have hinPlace : answer = some p → (∃ total, ⟨p, total, true⟩ ∈ bs') →
          (b ∈ (Request.reallocate (some p) size).liveAfter live answer ↔
            ∃ total, ⟨b, total, true⟩ ∈ bs') := by
        rintro rfl hself
        rw [hmoved]
        by_cases hb : b = p
        · subst hb
          exact iff_of_true (.inl rfl) hself
        · rw [hspares.handle_iff (by simpa [Request.target] using hb), ← hlive]
          simp [hb]
      cases hresizing with
      | stay => exact hinPlace rfl ⟨_, List.mem_append_right _ List.mem_cons_self⟩
      | absorb => exact hinPlace rfl ⟨_, List.mem_append_right _ List.mem_cons_self⟩
      | stretch => exact hinPlace rfl ⟨_, List.mem_append_right _ List.mem_cons_self⟩
      | refuse =>
          rw [← hsplit, ← hlive]
          simp [Request.liveAfter, Nat.ne_of_gt hsize]
      | move moved z hneed hallot hcopy hbytes hsite hrelease =>
          obtain ⟨hblocks, rfl, -, -⟩ := hsite
          obtain ⟨total, hblock, -⟩ := hallot.block
          have hfresh := hallot.fresh _ (List.mem_append_right _ List.mem_cons_self) rfl
          rw [hmoved]
          by_cases hb : b = moved
          · subst hb
            refine iff_of_true (.inl rfl) ((hrelease.spares.handle_iff ?_).mpr ⟨total, hblock⟩)
            simpa using hfresh.symm
          by_cases hp : b = z.offset
          · subst hp
            apply iff_of_false (by simp [hfresh])
            rintro ⟨size, hmem⟩
            exact Site.not_handle_merge (hblocks ▸ hcopy.sound.laid) size hmem
          · rw [hspares.handle_iff (by simp [Request.target, hb, hp]), ← hlive]
            simp [hb, hp]
  | write => exact hlive b

end Change

namespace Client

variable {c c' : Client ρ} {bs : List BlockInfo} {ls : Lists} {r : Request} {answer : Option Block}

-- Every admissible request is answered, and the invariant holds afterwards.
theorem Inv.exists_step (hinv : c.Inv bs ls) (hadmits : c.Admits r) :
    ∃ answer c' bs' ls', c.step r = .ok (answer, c') ∧ c'.Inv bs' ls' ∧
      Change c.allocator.heap c.allocator.chunk.val bs ls r answer c'.allocator.heap bs' ls' := by
  obtain ⟨answer, h', reserve, bs', ls', hrun, hchange⟩ := hinv.exists_change hadmits
  refine ⟨answer, ⟨⟨h', reserve, c.allocator.chunk⟩, r.liveAfter c.live answer⟩, bs', ls', ?_, ?_,
    hchange⟩
  · simp [step, hrun]
  · exact ⟨(hchange.becomes hinv.sound).sound, hchange.live hinv.sound hinv.live⟩

theorem Inv.of_step (hinv : c.Inv bs ls) (hadmits : c.Admits r) (hstep : c.step r = .ok (answer, c')) :
    ∃ bs' ls', c'.Inv bs' ls' ∧
      Change c.allocator.heap c.allocator.chunk.val bs ls r answer c'.allocator.heap bs' ls' := by
  obtain ⟨answer', c'', bs', ls', hstep', hinv', hchange⟩ := hinv.exists_step hadmits
  obtain ⟨rfl, rfl⟩ := Prod.mk.inj (Except.ok.inj (hstep.symm.trans hstep'))
  exact ⟨bs', ls', hinv', hchange⟩

theorem exists_inv_init {region : Region ρ} {chunk : ChunkSize} {a : Allocator ρ}
    (haligned : region.memory.size % alignment = 0)
    (hinit : (Allocator.init region chunk).result = .ok (.ok a)) :
    ∃ b ls, (Client.mk a ∅).Inv [⟨b, chunk.val, false⟩] ls := by
  rcases Allocator.init_spec region chunk haligned with ⟨cause, hfail, -⟩ | ⟨h, hok, -, hsound⟩
  · cases hfail.symm.trans hinit
  · obtain rfl := Except.ok.inj (Except.ok.inj (hok.symm.trans hinit))
    exact ⟨_, _, hsound, by simp⟩

theorem Reachable.exists_inv (hreachable : Reachable c) : ∃ bs ls, c.Inv bs ls := by
  induction hreachable with
  | init haligned hinit =>
      obtain ⟨b, ls, hinv⟩ := exists_inv_init haligned hinit
      exact ⟨_, ls, hinv⟩
  | step _ hadmits hstep ih =>
      obtain ⟨bs, ls, hinv⟩ := ih
      obtain ⟨bs', ls', hinv', -⟩ := hinv.of_step hadmits hstep
      exact ⟨bs', ls', hinv'⟩

end Client

end SegregatedFit
