import SegregatedFit.Proofs.Heap.Growth
import SegregatedFit.Proofs.Heap.Payload
import SegregatedFit.Proofs.Heap.Placement
import SegregatedFit.Proofs.Machine.Block

/-!
The steps of a heap on a machine. On a sound heap they succeed as the steps on blocks of any size do: what
is taken out of the index is filed there, and what is filed is not.
-/

namespace SegregatedFit

-- Merging writes a tag and no more.
theorem Heap.coalesce_kept {h : Heap} {b : Nat} {r : Block × Heap} (hcoalesce : h.coalesce b = .ok r) :
    r.2.memory.size = h.memory.size ∧ r.2.prologue = h.prologue := by
  obtain ⟨memory, index, prologue⟩ := h
  obtain ⟨before, -, h⟩ := bind_eq_ok_iff.mp hcoalesce
  obtain ⟨behind, -, h⟩ := bind_eq_ok_iff.mp h
  obtain ⟨after, -, h⟩ := bind_eq_ok_iff.mp h
  obtain ⟨size, -, h⟩ := bind_eq_ok_iff.mp h
  dsimp only at h
  generalize (!after.allocated && decide (size + after.size ≤ maxBlockSize)) = mergeNext at h
  generalize (if mergeNext = true then size + after.size else size) = withNext at h
  generalize (!before.allocated && decide (withNext + before.size ≤ maxBlockSize)) = mergePrev at h
  cases mergePrev with
  | false =>
      simp only [Bool.false_eq_true, if_false, ok_bind, pure_eq_ok] at h
      obtain ⟨m', hwrite, h⟩ := bind_eq_ok_iff.mp h
      obtain rfl := Except.ok.inj h
      exact ⟨Machine.size_of_write hwrite, rfl⟩
  | true =>
      simp only [if_true] at h
      obtain ⟨start, -, h⟩ := bind_eq_ok_iff.mp h
      obtain ⟨m', hwrite, h⟩ := bind_eq_ok_iff.mp h
      obtain rfl := Except.ok.inj h
      exact ⟨Machine.size_of_write hwrite, rfl⟩

namespace Machine

variable {m m' : Memory} {ix : Index} {p b size need : Nat} {bs xs ys : List BlockInfo} {ls : Lists}
  {z : Site} {t before after : Tag} {h h' : Heap}

theorem unlist_eq_some (hb : b ∈ ix.links) (size : Nat) : unlist ix b size = some (ix.remove b size) :=
  if_pos (Std.TreeMap.contains_iff_mem.mpr hb)

theorem enlist_eq_some (hb : b ∉ ix.links) (size : Nat) : enlist ix b size = some (ix.insert b size) :=
  if_neg fun hmem => hb (Std.TreeMap.contains_iff_mem.mp hmem)

-- A free block of a sound heap is filed.
theorem mem_links_of_free {i : BlockInfo} (hholds : ix.Holds ls) (hfiled : Filed ls bs) (hi : i ∈ bs)
    (hfree : i.allocated = false) : i.offset ∈ ix.links := by
  obtain ⟨offset, size, allocated⟩ := i
  obtain rfl : allocated = false := hfree
  exact hholds.mem_links_iff.mpr ⟨_, hfiled.mem hi⟩

-- What stands behind a block is filed when it is free.
theorem mem_links_behind {allocated : Bool} (hlaid : Laid m p (xs ++ ⟨b, size, allocated⟩ :: ys))
    (hholds : ix.Holds ls) (hfiled : Filed ls bs) (hsub : ys ⊆ bs)
    (hafter : Block.tag m (b + size) = .ok after) (hfree : after.allocated = false) :
    b + size ∈ ix.links := by
  have htag := hlaid.tag_after
  dsimp only at htag
  obtain rfl := Except.ok.inj (hafter.symm.trans htag)
  cases ys with
  | nil => cases hfree
  | cons j rest =>
      obtain ⟨_, -, rfl, hadjacent, -⟩ := tiles_append.mp hlaid.tiles
      dsimp only at hadjacent
      rw [← hadjacent]
      exact mem_links_of_free hholds hfiled (hsub List.mem_cons_self) hfree

section Coalesce

variable (hlaid : Laid m p (z.blocks false)) (hholds : ix.Holds z.lists)
  (hfiled : Filed z.lists (z.left ++ z.right))

include hlaid hholds hfiled

theorem mem_links_before (hbefore : Block.prevTag m z.offset = .ok before)
    (hfree : before.allocated = false) : z.offset - before.size ∈ ix.links := by
  have htag := hlaid.prevTag_eq
  dsimp only at htag
  obtain rfl := Except.ok.inj (hbefore.symm.trans htag)
  rw [List.getLast?_reverse] at hfree ⊢
  cases hleft : z.left with
  | nil =>
      rw [hleft] at hfree
      cases hfree
  | cons j rest =>
      rw [hleft] at hfree
      have hadjacent := Site.left_adjacent hlaid.tiles hleft
      have hstart : z.offset - j.size = j.offset := by omega
      simp only [List.head?_cons, Option.elim_some, BlockInfo.tag]
      rw [hstart]
      exact mem_links_of_free hholds hfiled (i := j) (by simp [hleft]) hfree

theorem not_mem_links_self : z.offset ∉ ix.links := by
  intro hmem
  obtain ⟨c, hc⟩ := hholds.mem_links_iff.mp hmem
  have hfits : z.Fits (p + 8) m.size := ⟨hlaid.tiles, hlaid.proper, hfiled, hholds.nodup⟩
  exact hfits.notMem_lists c hc

theorem coalesce_of (hm : Spacious m) {r : Block × Heap}
    (h : Heap.coalesce ⟨m, ix, p⟩ z.offset = .ok r) : coalesce ⟨m, ix, p⟩ z.offset = some r := by
  simp only [Heap.coalesce, bind_eq_ok_iff] at h
  obtain ⟨before, hbefore, behind, hbehind, after, hafter, own, hown, h⟩ := h
  have hself : (⟨z.offset, z.size, false⟩ : BlockInfo) ∈ z.blocks false := by simp [Site.blocks]
  obtain rfl : z.size = own := Except.ok.inj ((hlaid.size_eq hself).symm.trans hown)
  obtain rfl : z.offset + z.size = behind :=
    Except.ok.inj ((hlaid.next_eq hself).symm.trans hbehind)
  have hownBounds := hlaid.mem_bounds hself
  have hafterBounds := Block.tag_bounds hafter
  have hbeforeBounds := Block.prevTag_bounds hbefore
  dsimp only at hownBounds
  have hjoint : z.size + after.size < wordLimit := by
    simp only [wordLimit]
    omega
  have hprevTag := prevTag_of hm hbefore
  simp only [coalesce, hprevTag, next_of hm hbehind, tag_of hm hafter, size_of hm hown,
    add_eq_some hjoint, Option.bind_eq_bind, Option.bind_some]
  generalize hnext : (!after.allocated && decide (z.size + after.size ≤ maxBlockSize)) = mergeNext at h ⊢
  generalize hwith : (if mergeNext = true then z.size + after.size else z.size) = withNext at h ⊢
  have hwithBounds : withNext ≤ 8589934576 ∧ withNext % 8 = 0 := by
    rw [← hwith]
    split <;> omega
  have hwhole : withNext + before.size < wordLimit := by
    simp only [wordLimit]
    omega
  have hbehindFiled : mergeNext = true → z.offset + z.size ∈ ix.links := fun htrue => by
    refine mem_links_behind hlaid hholds hfiled (List.subset_append_right ..) hafter ?_
    simpa using (Bool.and_eq_true_iff.mp (hnext.trans htrue)).1
  rw [add_eq_some hwhole, Option.bind_some]
  generalize hprev : (!before.allocated && decide (withNext + before.size ≤ maxBlockSize)) = mergePrev
    at h ⊢
  have hselfNew : z.offset ∉ ix.links := not_mem_links_self hlaid hholds hfiled
  cases mergePrev with
  | false =>
      simp only [Bool.false_eq_true, if_false, ok_bind, pure_eq_ok] at h ⊢
      obtain ⟨m', hwrite, hr⟩ := bind_eq_ok_iff.mp h
      have hwrite := write_of hm hwithBounds.2 hwrite
      obtain rfl := Except.ok.inj hr
      cases mergeNext with
      | false => simp [hwrite, enlist_eq_some hselfNew]
      | true =>
          have hselfNew' : z.offset ∉ (ix.remove (z.offset + z.size) after.size).links := fun hmem =>
            hselfNew ((Index.mem_links_remove ..).mp hmem).2
          simp [hwrite, unlist_eq_some (hbehindFiled rfl), enlist_eq_some hselfNew']
  | true =>
      simp only [if_true] at h ⊢
      obtain ⟨start, hstart, h⟩ := bind_eq_ok_iff.mp h
      obtain ⟨m', hwrite, hr⟩ := bind_eq_ok_iff.mp h
      have hwrite := write_of hm (by simp only [Tag.free]; omega) hwrite
      obtain rfl := Except.ok.inj hr
      obtain ⟨hle, rfl⟩ := subtract_eq_ok_iff.mp hstart
      have hfree : before.allocated = false := by simpa using (Bool.and_eq_true_iff.mp hprev).1
      have hstartFiled := mem_links_before hlaid hholds hfiled hbefore hfree
      have hprevBlock : prev m z.offset = some (z.offset - before.size) := by
        simp [prev, hprevTag, sub_eq_some hle]
      have hstartNew : z.offset - before.size ∉ (ix.remove (z.offset - before.size) before.size).links :=
        fun hmem => ((Index.mem_links_remove ..).mp hmem).1 rfl
      cases mergeNext with
      | false => simp [hprevBlock, hwrite, unlist_eq_some hstartFiled, enlist_eq_some hstartNew]
      | true =>
          have hbehindFiled' : z.offset + z.size ∈
              (ix.remove (z.offset - before.size) before.size).links :=
            (Index.mem_links_remove ..).mpr ⟨by omega, hbehindFiled rfl⟩
          have hstartNew' : z.offset - before.size ∉ ((ix.remove (z.offset - before.size)
              before.size).remove (z.offset + z.size) after.size).links := fun hmem =>
            hstartNew ((Index.mem_links_remove ..).mp hmem).2
          simp [hprevBlock, hwrite, unlist_eq_some hstartFiled, unlist_eq_some hbehindFiled',
            enlist_eq_some hstartNew']

end Coalesce

-- The smallest excess so far orders the candidates as their sizes do.
theorem bestOf_of (hm : Spacious m) {endless : Bool} {best : Option (Block × Nat)} {least : Nat}
    {rest : List Block} {r : Option Block} (hleast : least = best.elim (wordLimit - 1) (·.2 - need))
    (hbest : ∀ found ∈ best, need < found.2) (h : Heap.bestOf m need endless best rest = .ok r) :
    bestOf m need endless (best.map (·.1)) least rest = some r := by
  induction rest generalizing best least with
  | nil =>
      rw [Heap.bestOf] at h
      rw [bestOf]
      cases endless with
      | false => exact congrArg some (Except.ok.inj h)
      | true => cases h
  | cons b rest ih =>
      rw [Heap.bestOf] at h
      obtain ⟨own, hown, h⟩ := bind_eq_ok_iff.mp h
      have hbounds := Block.size_bounds hown
      simp only [bestOf, size_of hm hown, Option.bind_eq_bind, Option.bind_some]
      by_cases hexact : own = need
      · rw [if_pos hexact] at h
        obtain rfl := Except.ok.inj h
        subst hexact
        simp [sub]
      rw [if_neg hexact] at h
      by_cases hsmall : own < need
      · have hskip : ¬need < own := by omega
        rw [if_pos hsmall]
        simp only [hskip, decide_false, Bool.false_and, Bool.false_eq_true, if_false] at h
        exact ih hleast hbest h
      have hlarge : need < own := by omega
      have hnonzero : ¬own - need = 0 := by omega
      rw [if_neg hsmall, sub_eq_some (Nat.le_of_lt hlarge), Option.bind_some, if_neg hnonzero]
      have hbetter : own - need < least ↔ best.all (own < ·.2) = true := by
        rw [hleast]
        cases best with
        | none =>
            simp only [Option.elim_none, Option.all_none, iff_true, wordLimit]
            omega
        | some found =>
            have hfound := hbest found rfl
            simp only [Option.elim_some, Option.all_some, decide_eq_true_eq]
            omega
      by_cases hcloser : own - need < least
      · rw [if_pos hcloser]
        simp only [hlarge, decide_true, Bool.true_and, hbetter.mp hcloser, if_true] at h
        have hlarge' : ∀ found ∈ some (b, own), need < found.2 := by simpa using hlarge
        exact ih rfl hlarge' h
      · have hkeep := Bool.eq_false_iff.mpr (mt hbetter.mpr hcloser)
        rw [if_neg hcloser]
        simp only [hkeep, Bool.and_false, Bool.false_eq_true, if_false] at h
        exact ih hleast hbest h

theorem findFit_of (hm : Spacious h.memory) {r : Option Block} (hfind : Heap.findFit h need = .ok r) :
    findFit h need = some r := by
  unfold Heap.findFit at hfind
  unfold findFit
  generalize SizeClass.fitting need = cs at hfind ⊢
  induction cs with
  | nil =>
      obtain rfl := Except.ok.inj hfind
      rfl
  | cons c cs ih =>
      rw [Heap.findFit.search] at hfind
      obtain ⟨found, hfound, hfind⟩ := bind_eq_ok_iff.mp hfind
      have hnone : ∀ found ∈ (none : Option (Block × Nat)), need < found.2 := by simp
      have hbest : bestOf h.memory need (h.index.endless c) none (wordLimit - 1) (h.index.chain c) =
          some found := bestOf_of hm rfl hnone hfound
      simp only [findFit.search, hbest, Option.bind_eq_bind, Option.bind_some]
      cases found with
      | none => exact ih hfind
      | some b => exact congrArg some (Except.ok.inj hfind)

theorem size_of_place (hplace : h.place b need = .ok h') : h'.memory.size = h.memory.size := by
  obtain ⟨m, ix, p⟩ := h
  obtain ⟨size, -, h⟩ := bind_eq_ok_iff.mp hplace
  obtain ⟨left, -, h⟩ := bind_eq_ok_iff.mp h
  by_cases hleft : minBlockSize ≤ left
  · rw [if_pos hleft] at h
    obtain ⟨m₁, hused, h⟩ := bind_eq_ok_iff.mp h
    obtain ⟨rest, -, h⟩ := bind_eq_ok_iff.mp h
    obtain ⟨m₂, hfree, h⟩ := bind_eq_ok_iff.mp h
    obtain rfl := Except.ok.inj h
    exact (size_of_write hfree).trans (size_of_write hused)
  · rw [if_neg hleft] at h
    obtain ⟨m₁, hused, h⟩ := bind_eq_ok_iff.mp h
    obtain rfl := Except.ok.inj h
    exact size_of_write hused

theorem place_of (hm : Spacious h.memory) (hsound : h.Sound (xs ++ ⟨b, size, false⟩ :: ys) ls)
    (hproper : BlockInfo.Proper ⟨b, need, true⟩) (hplace : h.place b need = .ok h') :
    place h b need = some h' := by
  obtain ⟨m, ix, p⟩ := h
  have hmem : (⟨b, size, false⟩ : BlockInfo) ∈ xs ++ ⟨b, size, false⟩ :: ys := by simp
  have hread := hsound.laid.size_eq hmem
  have hbounds := hsound.laid.mem_bounds hmem
  have hfiled := mem_links_of_free hsound.holds hsound.filed hmem rfl
  have hneeds := hproper.bounds
  dsimp only at hread hbounds hneeds hfiled
  simp only [Heap.place, hread, ok_bind, bind_eq_ok_iff, subtract_eq_ok_iff] at hplace
  obtain ⟨left, ⟨hneed, rfl⟩, h⟩ := hplace
  simp only [place, size_of hm hread, unlist_eq_some hfiled, sub_eq_some hneed, Option.bind_eq_bind,
    Option.bind_some]
  by_cases hleft : minBlockSize ≤ size - need
  · obtain ⟨m₁, m₂, hwrite₁, hnext, hwrite₂, -⟩ := hsound.laid.exists_split hproper hneed hleft
    have hrest : b + need ∉ (ix.remove b size).links := fun hrest => by
      obtain ⟨c, hc⟩ := hsound.filed_remove.1.mem_links_iff.mp hrest
      exact hsound.rest_notMem hproper hleft c hc
    rw [if_pos hleft] at h ⊢
    simp only [Tag.used, Tag.free, hwrite₁, hnext, hwrite₂, ok_bind] at h
    have hm₁ := hm.write hwrite₁
    have hused := write_of hm (by dsimp only; omega) hwrite₁
    have hfree := write_of hm₁ (by dsimp only; omega) hwrite₂
    simp only [Tag.used, Tag.free, hused, next_of hm₁ hnext, hfree, enlist_eq_some hrest,
      Option.bind_some]
    exact congrArg some (Except.ok.inj h)
  · rw [if_neg hleft] at h ⊢
    obtain ⟨m', hwrite, h⟩ := bind_eq_ok_iff.mp h
    rw [write_of hm (by simp only [Tag.used]; omega) hwrite]
    exact congrArg some (Except.ok.inj h)

theorem release_of (hm : Spacious h.memory) (hsound : h.Sound (z.blocks true) z.lists)
    (hrelease : h.release z.offset = .ok h') : release h z.offset = some h' := by
  obtain ⟨m, ix, p⟩ := h
  have hself : (⟨z.offset, z.size, true⟩ : BlockInfo) ∈ z.blocks true := by simp [Site.blocks]
  have hread := hsound.laid.size_eq hself
  have hbounds := hsound.laid.mem_bounds hself
  dsimp only at hread hbounds
  obtain ⟨m', hwrite, -, hlaid, -, hfiled⟩ := Heap.write_free_spec hsound
  simp only [Heap.release, hread, hwrite, ok_bind, bind_eq_ok_iff] at hrelease
  obtain ⟨r, hcoalesce, h⟩ := hrelease
  have hfree := write_of hm (by simp only [Tag.free]; omega) hwrite
  have hmerged := coalesce_of hlaid hsound.holds hfiled (hm.write hwrite) hcoalesce
  simp only [release, size_of hm hread, hfree, hmerged, Option.bind_eq_bind, Option.bind_some]
  exact congrArg some (Except.ok.inj h)

-- The last block and the epilogue behind it.
theorem writeLast_of (hm : Spacious m) (haligned : t.size % 8 = 0) {m₁ : Memory} {behind : Nat}
    (hwrite : Block.write m b t = .ok m₁) (hnext : Block.next m₁ b = .ok behind)
    (hepilogue : Block.writeHeader m₁ behind .epilogue = .ok m') : writeLast m b t = some m' := by
  have hm₁ := hm.write hwrite
  simp [writeLast, write_of hm haligned hwrite, next_of hm₁ hnext, writeHeader_of hm₁ rfl hepilogue]

theorem stretch_of (hm : Spacious h.memory) (haligned : size % 8 = 0)
    (hstretch : h.stretch b size = .ok h') : stretch h b size = some h' := by
  obtain ⟨m, ix, p⟩ := h
  simp only [Heap.stretch, bind_eq_ok_iff] at hstretch
  obtain ⟨m₁, hwrite, behind, hnext, m₂, hepilogue, h⟩ := hstretch
  obtain rfl := Except.ok.inj h
  simp [stretch, writeLast_of hm haligned hwrite hnext hepilogue]

theorem absorb_of {behind gain total : Nat} (hm : Spacious h.memory) (haligned : total % 8 = 0)
    (hfiled : behind ∈ h.index.links) (habsorb : h.absorb b behind gain total = .ok h') :
    absorb h b behind gain total = some h' := by
  obtain ⟨m, ix, p⟩ := h
  simp only [Heap.absorb, bind_eq_ok_iff] at habsorb
  obtain ⟨m', hwrite, h⟩ := habsorb
  obtain rfl := Except.ok.inj h
  simp [absorb, unlist_eq_some hfiled, write_of hm haligned hwrite]

theorem payload_of {content : ByteArray} (hm : Spacious h.memory)
    (hpayload : h.payload b = .ok content) : payload h b = some content := by
  simp only [Heap.payload, bind_eq_ok_iff] at hpayload
  obtain ⟨usable, husable, hslice⟩ := hpayload
  have hinside := Memory.slice_bounds hslice
  have hsum : b + usable < wordLimit := hm.lt (by omega)
  simp [payload, usableSize_of hm husable, add_eq_some hsum, hslice, Except.toOption]

theorem fill_of {bytes : ByteArray} (hm : Spacious h.memory) (hfill : h.fill b bytes = .ok h') :
    fill h b bytes = some h' := by
  obtain ⟨m, ix, p⟩ := h
  dsimp only at hm
  obtain ⟨usable, husable, h⟩ := bind_eq_ok_iff.mp hfill
  by_cases hout : usable < bytes.size ∨ m.size < b + usable
  · rw [if_pos hout] at h
    cases h
  rw [if_neg hout] at h
  obtain ⟨m', hwrite, h⟩ := bind_eq_ok_iff.mp h
  have hsum : b + usable < wordLimit := hm.lt (by omega)
  obtain rfl := Except.ok.inj h
  simp [fill, usableSize_of hm husable, add_eq_some hsum, if_neg hout, hwrite, Except.toOption]

theorem copy_of {source target count : Nat} (hm : Spacious h.memory)
    (hcopy : h.copy source target count = .ok h') : copy h source target count = some h' := by
  obtain ⟨m, ix, p⟩ := h
  dsimp only at hm
  simp only [Heap.copy, bind_eq_ok_iff] at hcopy
  obtain ⟨bytes, hslice, m', hwrite, h⟩ := hcopy
  have hinside := Memory.slice_bounds hslice
  have hsum : source + count < wordLimit := hm.lt (by omega)
  obtain rfl := Except.ok.inj h
  simp [copy, add_eq_some hsum, hslice, hwrite, Except.toOption]

end Machine

end SegregatedFit
