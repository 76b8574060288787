import SegregatedFit.Proofs.Client.Layout
import SegregatedFit.Proofs.Heap.Adjacency
import SegregatedFit.Proofs.Region.Arena

/-!
Adjacent free blocks in a heap in use. Neighbours that are both free are too large together for one tag,
unless a request was handed the beginning of a free block that another free block stood behind: the rest
of it is smaller, and nothing merges it.
-/

namespace SegregatedFit

-- The block that a request needs.
def Request.need : Request → Option Nat
  | allocate size => blockSizeFor size
  | reallocate _ size => blockSizeFor size
  | free _ | write .. => none

-- The free block `b` of `s` bytes is divided to hand out `need` bytes, and one of `t` bytes that is free
-- too stands behind it.
structure Cut (bs : List BlockInfo) (b need : Nat) (xs : List BlockInfo) (s t : Nat)
    (ys : List BlockInfo) : Prop where
  blocks : bs = xs ++ ⟨b, s, false⟩ :: ⟨b + s, t, false⟩ :: ys
  left : need + minBlockSize ≤ s

-- What the request leaves over could be merged with the free block behind it.
def Stranding (bs : List BlockInfo) (r : Request) (answer : Option Block) : Prop :=
  ∃ b need xs s t ys, answer = some b ∧ r.need = some need ∧ Cut bs b need xs s t ys ∧
    s - need + freedSize t ys r.target ≤ maxBlockSize

variable {m : Memory} {chunk p b need s t size : Nat} {bs bs' xs ys : List BlockInfo} {ls ls' : Lists}
  {h h' : Heap} {r : Request} {answer : Option Block}

theorem stranding_iff_of_cut (hlaid : Laid m p bs) (hcut : Cut bs b need xs s t ys)
    (hneed : r.need = some need) :
    Stranding bs r (some b) ↔ s - need + freedSize t ys r.target ≤ maxBlockSize := by
  constructor
  · rintro ⟨b', need', xs', s', t', ys', hb, hneed', hcut', hmax⟩
    obtain rfl := Option.some.inj hb
    obtain rfl := Option.some.inj (hneed.symm.trans hneed')
    have hblocks := hcut.blocks
    subst hblocks
    obtain ⟨-, hfound, hbehind⟩ :=
      hlaid.tiles.split_unique hlaid.proper hcut'.blocks rfl
    obtain ⟨hnext, rfl⟩ := List.cons.inj hbehind
    simp only [BlockInfo.mk.injEq, and_true, true_and] at hfound hnext
    obtain rfl := hfound
    obtain rfl := hnext.2
    exact hmax
  · exact fun hmax => ⟨b, need, xs, s, t, ys, rfl, hneed, hcut, hmax⟩

theorem not_stranding_of_not_cut (hneed : r.need = some need)
    (hcut : ∀ xs s t ys, ¬Cut bs b need xs s t ys) : ¬Stranding bs r (some b) := by
  rintro ⟨b', need', xs, s, t, ys, hb, hneed', hcut', -⟩
  obtain rfl := Option.some.inj hb
  obtain rfl := Option.some.inj (hneed.symm.trans hneed')
  exact hcut xs s t ys hcut'

-- A block that stays where it is strands nothing.
theorem not_stranding_of_used (hlaid : Laid m p bs) (hb : ⟨b, size, true⟩ ∈ bs) :
    ¬Stranding bs r (some b) := by
  rintro ⟨b', need, xs, s, t, ys, hb', -, hcut, -⟩
  obtain rfl := Option.some.inj hb'
  have hfree : ⟨b, s, false⟩ ∈ bs := by simp [hcut.blocks]
  cases hlaid.tiles.eq_of_offset hlaid.proper hb hfree rfl

theorem not_stranding_none : ¬Stranding bs r none := by
  rintro ⟨b, need, xs, s, t, ys, hb, -⟩
  cases hb

-- Handing out a block leaves free blocks apart, except where it divides one.
theorem Allocator.Allotment.apart_or_cut (hallot : Allocator.Allotment h chunk bs ls size b h' bs' ls')
    (hsound : h.Sound bs ls) (hapart : Apart bs) : ∃ need, blockSizeFor size = some need ∧
      ((Apart bs' ∧ ∀ xs s t ys, ¬Cut bs b need xs s t ys) ∨ ∃ xs s t ys, Cut bs b need xs s t ys ∧
        bs' = xs ++ ⟨b, need, true⟩ :: ⟨b + need, s - need, false⟩ :: ⟨b + s, t, false⟩ :: ys) := by
  have hmin : minBlockSize = 16 := rfl
  obtain ⟨need, h₁, xs, total, ys, ls₁, hneed, hsupply, rfl⟩ := hallot.shape
  refine ⟨need, hneed, ?_⟩
  have hfits := hsupply.fits
  rcases hsupply.source with ⟨hfind, rfl, rfl, rfl⟩ | ⟨hfind, rfl, hblocks⟩
  · have hlaid := hsound.laid
    by_cases hdivided : minBlockSize ≤ total - need ∧ ∃ j ∈ ys.head?, j.allocated = false
    · obtain ⟨hleft, j, hj, hfree⟩ := hdivided
      cases ys with
      | nil => cases hj
      | cons k ys =>
          obtain rfl := Option.some.inj hj
          obtain ⟨_, -, rfl, hadjacent, -⟩ := tiles_append.mp hlaid.tiles
          obtain ⟨offset, t, allocated⟩ := k
          dsimp only at hadjacent hfree
          subst hadjacent hfree
          refine .inr ⟨xs, total, t, ys, ⟨rfl, by omega⟩, ?_⟩
          rw [placed, if_pos hleft, List.append_assoc]
          rfl
    · refine .inl ⟨(apart_placed_iff hapart).mpr ?_, ?_⟩
      · intro hleft j hj
        have hused : j.allocated = true := by
          by_contra hfree
          exact hdivided ⟨hleft, j, hj, Bool.eq_false_iff.mpr hfree⟩
        exact (BlockInfo.settled_of_left hused).symm
      · intro xs' s t ys' hcut
        have hleft := hcut.left
        obtain ⟨-, hfound, rfl⟩ := hlaid.tiles.split_unique hlaid.proper hcut.blocks rfl
        simp only [BlockInfo.mk.injEq, and_true, true_and] at hfound
        exact hdivided ⟨by omega, _, rfl, rfl⟩
  · refine .inl ⟨?_, ?_⟩
    · refine (apart_placed_iff ?_).mpr (by simp)
      rw [hblocks]
      refine Site.apart_merge ?_ List.isChain_nil
      exact hapart.reverse
    · intro xs' s t ys' hcut
      -- a search that fails has met no block that could be divided
      rcases Heap.findFit_spec hsound need with ⟨b', total', hfind', -⟩ | ⟨-, hsmall⟩
      · cases hfind.symm.trans hfind'
      · have := hsmall ⟨b, s, false⟩ (by simp [hcut.blocks]) rfl
        have := hcut.left
        dsimp only at *
        omega

-- Without a block that is given back, what counts is the free block that stands behind the rest.
theorem Cut.apart_iff (hcut : Cut bs b need xs s t ys) (hapart : Apart bs) :
    Apart (xs ++ ⟨b, need, true⟩ :: ⟨b + need, s - need, false⟩ :: ⟨b + s, t, false⟩ :: ys) ↔
      maxBlockSize < s - need + t := by
  obtain ⟨hbefore, hbehind, -⟩ := List.isChain_append.mp (hcut.blocks ▸ hapart)
  have hbefore : Apart xs := hbefore
  have hbehind := (List.isChain_cons_cons.mp hbehind).2
  rw [Apart.append_used rfl, and_iff_right hbefore, Apart, List.isChain_cons_cons, and_iff_left hbehind,
    BlockInfo.settled_iff rfl rfl]

namespace Change

-- A block that moves is given back, which may enlarge the free block behind the rest.
private theorem apart_move_iff {moved : Nat} {z : Site} (hsound : h.Sound bs ls)
    (hapart : Apart bs) (hb : ⟨z.offset, z.size, true⟩ ∈ bs)
    (hallot : Allocator.Allotment h chunk bs ls size moved h' bs' ls') (hblocks : z.blocks true = bs') :
    Apart (z.merge.blocks false) ↔
      ¬Stranding bs (.reallocate (some z.offset) size) (some moved) := by
  obtain ⟨need, hneed, hcases⟩ := hallot.apart_or_cut hsound hapart
  have hneed : (Request.reallocate (some z.offset) size).need = some need := hneed
  rcases hcases with ⟨hapart', hcut⟩ | ⟨xs, s, t, ys, hcut, rfl⟩
  · exact iff_of_true (Site.apart_merge_of_blocks (hblocks ▸ hapart'))
      (not_stranding_of_not_cut hneed hcut)
  · have hlaid' := hallot.becomes.sound.laid
    rw [← hblocks] at hlaid'
    have hdistinct : ∀ i ∈ z.left ++ z.right, i.offset ≠ z.offset := fun i => Site.offset_ne hlaid'
    obtain ⟨hbefore, hbehind, -⟩ := List.isChain_append.mp (hcut.blocks ▸ hapart)
    have hbehind := (List.isChain_cons_cons.mp hbehind).2
    rw [stranding_iff_of_cut hsound.laid hcut hneed, Nat.not_le,
      Site.apart_merge_iff hblocks rfl (hallot.fresh _ hb rfl).symm rfl rfl hbefore hbehind hdistinct]
    exact Iff.rfl

theorem apart_iff (hchange : Change h chunk bs ls r answer h' bs' ls') (hsound : h.Sound bs ls)
    (hapart : Apart bs) : Apart bs' ↔ ¬Stranding bs r answer := by
  have hlaid := hsound.laid
  cases hchange with
  | decline hr => exact iff_of_true hapart not_stranding_none
  | allot b size hr hallot =>
      obtain ⟨need, hneed, hcases⟩ := hallot.apart_or_cut hsound hapart
      have hneed' : r.need = some need := by rcases hr with rfl | rfl <;> exact hneed
      have htarget : r.target = none := by rcases hr with rfl | rfl <;> rfl
      rcases hcases with ⟨hapart', hcut⟩ | ⟨xs, s, t, ys, hcut, rfl⟩
      · exact iff_of_true hapart' (not_stranding_of_not_cut hneed' hcut)
      · have hsame : freedSize t ys r.target = t := freedSize_eq_self (by simp [htarget])
        rw [hcut.apart_iff hapart, stranding_iff_of_cut hlaid hcut hneed', hsame, Nat.not_le]
  | release z hr hsite hbecomes =>
      exact iff_of_true (Site.apart_merge_of_blocks (hsite.1 ▸ hapart)) not_stranding_none
  | resize b size hsize hneed hsplit hresizing =>
      subst hsplit
      have hstays := not_stranding_of_used (r := .reallocate (some b) size) hlaid
        (List.mem_append_right _ List.mem_cons_self)
      obtain ⟨hbefore, hbehind⟩ := (Apart.append_used rfl).mp hapart
      cases hresizing with
      | stay => exact iff_of_true hapart hstays
      | absorb hgrow hys =>
          subst hys
          exact iff_of_true ((Apart.append_used rfl).mpr ⟨hbefore, hbehind.tail⟩) hstays
      | stretch => exact iff_of_true ((Apart.append_used rfl).mpr ⟨hbefore, List.isChain_nil⟩) hstays
      | refuse => exact iff_of_true hapart not_stranding_none
      | move moved z hgrow hallot hcopy hbytes hsite hrelease =>
          obtain ⟨hblocks, rfl, rfl, -⟩ := hsite
          exact apart_move_iff hsound hapart (List.mem_append_right _ List.mem_cons_self) hallot hblocks
  | write => exact iff_of_true hapart not_stranding_none

end Change

-- A request that the only block is too small for is served behind it, when no tag can describe both.
private theorem allot_behind (hsound : h.Sound [⟨16, s, false⟩] ls)
    (hneed : blockSizeFor size = some need) (hsmall : s < need) (hchunk : chunk ≤ need)
    (hmax : maxBlockSize < need + s)
    (hallot : Allocator.Allotment h chunk [⟨16, s, false⟩] ls size b h' bs' ls') :
    b = 16 + s ∧ bs' = [⟨16, s, false⟩, ⟨16 + s, need, true⟩] := by
  obtain ⟨need', h₁, xs, total, ys, ls₁, hneed', hsupply, rfl⟩ := hallot.shape
  obtain rfl := Option.some.inj (hneed.symm.trans hneed')
  obtain ⟨hstart, hend⟩ := hsound.laid.tiles
  rcases hsupply.source with ⟨-, -, hblocks, -⟩ | ⟨-, rfl, hblocks⟩
  · have hmem : (⟨b, total, false⟩ : BlockInfo) ∈ [⟨16, s, false⟩] := by
      rw [hblocks]
      simp
    have hfits := hsupply.fits
    simp only [List.mem_singleton, BlockInfo.mk.injEq] at hmem
    omega
  · have hnone : mergeable need [⟨16, s, false⟩] = none := by simp [mergeable, hmax]
    rw [Nat.max_eq_left hchunk, Site.merge_eq_self rfl hnone, ← hend, ← hstart] at hblocks
    obtain ⟨rfl, hlast⟩ := List.append_inj' hblocks rfl
    simp only [Site.tail, List.cons.injEq, BlockInfo.mk.injEq, and_true] at hlast
    obtain ⟨rfl, rfl⟩ := hlast
    refine ⟨rfl, ?_⟩
    rw [placed, if_neg (by rw [Nat.sub_self]; decide)]
    rfl

-- Of two free blocks the first one is divided, when it is the smaller one.
private theorem allot_first (hsound : h.Sound [⟨16, s, false⟩, ⟨16 + s, t, false⟩] ls)
    (hneed : blockSizeFor size = some need) (hfits : need + minBlockSize ≤ s) (hfirst : s < t)
    (hallot : Allocator.Allotment h chunk [⟨16, s, false⟩, ⟨16 + s, t, false⟩] ls size b h' bs' ls') :
    b = 16 ∧ bs' = [⟨16, need, true⟩, ⟨16 + need, s - need, false⟩, ⟨16 + s, t, false⟩] := by
  have hmin : minBlockSize = 16 := rfl
  obtain ⟨need', h₁, xs, total, ys, ls₁, hneed', hsupply, rfl⟩ := hallot.shape
  obtain rfl := Option.some.inj (hneed.symm.trans hneed')
  rcases Heap.findFit_spec hsound need with ⟨b', size', hfind, hmem, -, hleast⟩ | ⟨-, hsmall⟩
  · have hsize := hleast ⟨16, s, false⟩ (by simp) rfl (by dsimp only; omega)
    rcases hsupply.source with ⟨hfind', -, hblocks, -⟩ | ⟨hfind', -⟩
    · obtain rfl := Option.some.inj (Except.ok.inj (hfind'.symm.trans hfind))
      have hoffset : b = 16 := by
        simp only [List.mem_cons, BlockInfo.mk.injEq, List.not_mem_nil, or_false, and_true] at hmem
        dsimp only at hsize
        omega
      subst hoffset
      have htiles : Tiles _ ([] ++ ⟨16, s, false⟩ :: [⟨16 + s, t, false⟩]) _ := hsound.laid.tiles
      obtain ⟨rfl, hfound, rfl⟩ := htiles.split_unique hsound.laid.proper hblocks rfl
      obtain rfl : s = total := by simpa using hfound
      refine ⟨rfl, ?_⟩
      rw [placed, if_pos (by omega)]
      rfl
    · cases hfind.symm.trans hfind'
  · have := hsmall ⟨16, s, false⟩ (by simp) rfl
    dsimp only at this
    omega

-- In a heap that one tag could span nothing can be left over so.
theorem Laid.not_stranding (hlaid : Laid m p bs) (hapart : Apart bs) (hsize : m.size ≤ maxBlockSize) :
    ¬Stranding bs r answer := by
  rintro ⟨b, need, xs, s, t, ys, -, -, hcut, -⟩
  obtain ⟨-, hbehind, -⟩ := List.isChain_append.mp (hcut.blocks ▸ hapart)
  have hsettled := (List.isChain_cons_cons.mp hbehind).1 rfl rfl
  have hbounds := hlaid.mem_bounds (i := ⟨b + s, t, false⟩) (by simp [hcut.blocks])
  dsimp only at hsettled hbounds
  omega

namespace Client

variable {ρ : Type} {c c' : Client ρ}

-- No two neighbours in the heap are free and small enough to be merged.
def Apart (c : Client ρ) : Prop := ∃ bs, c.allocator.heap.blocks = .ok bs ∧ SegregatedFit.Apart bs

def Strands (c : Client ρ) (r : Request) (answer : Option Block) : Prop :=
  ∃ bs, c.allocator.heap.blocks = .ok bs ∧ Stranding bs r answer

theorem Inv.exists_blocks_iff (hinv : c.Inv bs ls) {P : List BlockInfo → Prop} :
    (∃ bs, c.allocator.heap.blocks = .ok bs ∧ P bs) ↔ P bs := by
  have hblocks := Heap.blocks_eq hinv.sound.laid
  constructor
  · rintro ⟨bs', hblocks', hholds⟩
    obtain rfl := Except.ok.inj (hblocks.symm.trans hblocks')
    exact hholds
  · exact fun hholds => ⟨bs, hblocks, hholds⟩

variable [Reserve ρ]

-- The states that are reached without stranding a block.
inductive Tidy : Client ρ → Prop
  | init {region : Region ρ} {chunk : ChunkSize} {a : Allocator ρ}
      (haligned : region.memory.size % alignment = 0)
      (hinit : (Allocator.init region chunk).result = .ok (.ok a)) : Tidy ⟨a, ∅⟩
  | step {c c' : Client ρ} {r : Request} {answer : Option Block} (htidy : Tidy c)
      (hadmits : c.Admits r) (hstep : c.step r = .ok (answer, c')) (hspared : ¬c.Strands r answer) :
      Tidy c'

theorem Tidy.reachable (htidy : Tidy c) : c.Reachable := by
  induction htidy with
  | init haligned hinit => exact .init haligned hinit
  | step _ hadmits hstep _ ih => exact ih.step hadmits hstep

-- A request keeps free blocks apart exactly when it strands none.
theorem Reachable.apart_iff (hreachable : Reachable c) (hapart : c.Apart) (hadmits : c.Admits r)
    (hstep : c.step r = .ok (answer, c')) : c'.Apart ↔ ¬c.Strands r answer := by
  obtain ⟨bs, ls, hinv⟩ := hreachable.exists_inv
  obtain ⟨bs', ls', hinv', hchange⟩ := hinv.of_step hadmits hstep
  rw [Apart, hinv'.exists_blocks_iff, Strands, hinv.exists_blocks_iff]
  exact hchange.apart_iff hinv.sound (hinv.exists_blocks_iff.mp hapart)

theorem apart_init {region : Region ρ} {chunk : ChunkSize} {a : Allocator ρ}
    (haligned : region.memory.size % alignment = 0)
    (hinit : (Allocator.init region chunk).result = .ok (.ok a)) : (Client.mk a ∅).Apart := by
  obtain ⟨b, ls, hinv⟩ := exists_inv_init haligned hinit
  exact hinv.exists_blocks_iff.mpr (List.isChain_singleton _)

theorem Tidy.apart (htidy : Tidy c) : c.Apart := by
  induction htidy with
  | init haligned hinit => exact apart_init haligned hinit
  | step htidy hadmits hstep hspared ih =>
      exact (htidy.reachable.apart_iff ih hadmits hstep).mpr hspared

-- As long as the heap is no larger than one tag can say, every state is tidy.
theorem Reachable.tidy (hreachable : Reachable c) (hsize : c.allocator.heap.memory.size ≤ maxBlockSize) :
    Tidy c := by
  induction hreachable with
  | init haligned hinit => exact .init haligned hinit
  | @step c c' r answer hreachable hadmits hstep ih =>
      obtain ⟨bs, ls, hinv⟩ := hreachable.exists_inv
      obtain ⟨bs', ls', hinv', hchange⟩ := hinv.of_step hadmits hstep
      have hsize := Nat.le_trans (hchange.becomes hinv.sound).size_le hsize
      have htidy := ih hsize
      refine htidy.step hadmits hstep ?_
      rw [Strands, hinv.exists_blocks_iff]
      exact hinv.sound.laid.not_stranding (hinv.exists_blocks_iff.mp htidy.apart) hsize

-- Such a state keeps all invariants of a heap.
theorem Reachable.exists_apart (hreachable : Reachable c)
    (hsize : c.allocator.heap.memory.size ≤ maxBlockSize) :
    ∃ bs ls, c.Inv bs ls ∧ SegregatedFit.Apart bs := by
  obtain ⟨bs, ls, hinv⟩ := hreachable.exists_inv
  exact ⟨bs, ls, hinv, hinv.exists_blocks_iff.mp (hreachable.tidy hsize).apart⟩

-- A block that the first chunk is too small for stands behind it. When a chunk takes up half of what a tag
-- can say, the two are too large to be merged.
theorem exists_behind (arena : Arena) (chunk : ChunkSize) {need : Nat}
    (hneed : blockSizeFor chunk.val = some need) (hsmall : chunk.val < need)
    (hmax : maxBlockSize < need + chunk.val) (hroom : 16 + chunk.val + need ≤ arena.limit) :
    ∃ h₀ h₁ ls, (Allocator.init (.ofReserve arena) chunk).result = .ok (.ok ⟨h₀, arena, chunk⟩) ∧
      ((Allocator.mk h₀ arena chunk).allocate chunk.val).result =
        .ok (some (16 + chunk.val), ⟨h₁, arena, chunk⟩) ∧
      h₁.Sound [⟨16, chunk.val, false⟩, ⟨16 + chunk.val, need, true⟩] ls := by
  have hbegin : (Region.ofReserve arena).memory.size = 0 := rfl
  have hpos : 0 < chunk.val := Nat.lt_of_lt_of_le (by decide) chunk.le_val
  obtain ⟨h₀, hinit, hsound₀⟩ :=
    Allocator.init_of_room (.ofReserve arena) chunk (by rw [hbegin])
      (by simp only [Region.ofReserve] at hbegin ⊢; omega)
  rw [hbegin, Nat.zero_add] at hsound₀
  have hsize₀ : h₀.memory.size = 16 + chunk.val := by
    obtain ⟨hstart, hend⟩ := hsound₀.laid.tiles
    rw [← show _ = h₀.memory.size from hend, ← hstart]
  obtain ⟨b, h₁, bs₁, ls₁, hallocate, hallot⟩ :=
    Allocator.allocate_of_room (a := ⟨h₀, arena, chunk⟩) hsound₀ hpos hneed
      (.inr (by dsimp only; omega))
  obtain ⟨rfl, rfl⟩ := allot_behind hsound₀ hneed hsmall (Nat.le_of_lt hsmall) hmax hallot
  exact ⟨h₀, h₁, ls₁, hinit, hallocate, hallot.becomes.sound⟩

-- A small block is cut off the first of two free ones, and the rest could be merged with the second.
theorem exists_divided (arena : Arena) (chunk : ChunkSize) {need : Nat}
    (hneed : blockSizeFor chunk.val = some need) (hsmall : chunk.val < need)
    (hmax : maxBlockSize < need + chunk.val) (hlarge : 32 ≤ chunk.val)
    (hroom : 16 + chunk.val + need ≤ arena.limit) :
    ∃ c : Client Arena, launch (.ofReserve arena) chunk
        [.allocate chunk.val, .free (some (16 + chunk.val)), .allocate 8] = some c ∧
      c.allocator.heap.blocks = .ok
        [⟨16, 16, true⟩, ⟨32, chunk.val - 16, false⟩, ⟨16 + chunk.val, need, false⟩] := by
  obtain ⟨h₀, h₁, ls₁, hinit, hallocate₁, hsound₁⟩ := exists_behind arena chunk hneed hsmall hmax hroom
  obtain ⟨h₂, hfree, hbecomes⟩ := Allocator.free_spec (a := ⟨h₁, arena, chunk⟩)
    (z := ⟨[⟨16, chunk.val, false⟩], 16 + chunk.val, need, [], ls₁⟩) hsound₁
  have hnone : mergeable need [⟨16, chunk.val, false⟩] = none := by simp [mergeable, hmax]
  have hsound₂ := hbecomes.sound
  rw [Site.merge_eq_self rfl hnone] at hsound₂
  have hsound₂ : h₂.Sound [⟨16, chunk.val, false⟩, ⟨16 + chunk.val, need, false⟩] _ := hsound₂
  have hleast : blockSizeFor 8 = some 16 := rfl
  obtain ⟨b, h₃, bs₃, ls₃, hallocate₃, hallot₃⟩ :=
    Allocator.allocate_of_room (a := ⟨h₂, arena, chunk⟩) hsound₂ (by decide) hleast
      (.inl ⟨_, List.mem_cons_self, rfl, by dsimp only; omega⟩)
  obtain ⟨rfl, rfl⟩ := allot_first hsound₂ hleast hlarge hsmall hallot₃
  refine ⟨⟨⟨h₃, arena, chunk⟩, {16}⟩, ?_, Heap.blocks_eq hallot₃.becomes.sound.laid⟩
  have hstep₁ : step ⟨⟨h₀, arena, chunk⟩, ∅⟩ (.allocate chunk.val) =
      .ok (some (16 + chunk.val), ⟨⟨h₁, arena, chunk⟩, {16 + chunk.val}⟩) := by
    simp [step, Request.run, hallocate₁, Request.liveAfter]
  have hstep₂ : step ⟨⟨h₁, arena, chunk⟩, {16 + chunk.val}⟩ (.free (some (16 + chunk.val))) =
      .ok (none, ⟨⟨h₂, arena, chunk⟩, ∅⟩) := by
    simp only [step, Request.run, Run.result_bind, hfree]
    simp [Request.liveAfter]
  have hstep₃ : step ⟨⟨h₂, arena, chunk⟩, ∅⟩ (.allocate 8) =
      .ok (some 16, ⟨⟨h₃, arena, chunk⟩, {16}⟩) := by
    simp [step, Request.run, hallocate₃, Request.liveAfter]
  rw [launch, hinit]
  dsimp only
  rw [run_cons ⟨by simp [Request.target], trivial⟩ hstep₁,
    run_cons ⟨by simp [Request.target], trivial⟩ hstep₂,
    run_cons ⟨by simp [Request.target], trivial⟩ hstep₃]
  rfl

-- In a run, free blocks stay apart exactly as long as no request strands one, which takes a heap that is
-- larger than one tag can say.
theorem apart_iff_not_strands (hreachable : c.Reachable) :
    (c.allocator.heap.memory.size ≤ maxBlockSize → c.Tidy) ∧ (c.Tidy → c.Apart) ∧
      (c.Apart → ∀ r answer c', c.Admits r → c.step r = .ok (answer, c') →
        (c'.Apart ↔ ¬c.Strands r answer)) :=
  ⟨hreachable.tidy, Tidy.apart, fun hapart _ _ _ hadmits hstep =>
    hreachable.apart_iff hapart hadmits hstep⟩

theorem apart_iff_not_strands_arena :
    ∃ c : Client Arena, c.Reachable ∧ c.live = {32} ∧ c.Tidy ∧ c.Apart := by
  obtain ⟨c, hreachable, hlive, -, hsize, -⟩ := exists_reachable_arena
  obtain ⟨hsmall, hapart, -⟩ := apart_iff_not_strands hreachable
  have htidy := hsmall (by rw [hsize]; decide)
  exact ⟨c, hreachable, hlive, htidy, hapart htidy⟩

-- A state in which two free blocks could be merged: a small block has been cut off the first of them.
theorem not_apart_arena : ∃ c : Client Arena,
    launch (.ofReserve (.withLimit 4096 4294967328)) ⟨2147483648, by decide, by decide, by decide⟩
      [.allocate 2147483648, .free (some 2147483664), .allocate 8] = some c ∧
    c.Reachable ∧ c.allocator.heap.blocks =
      .ok [⟨16, 16, true⟩, ⟨32, 2147483632, false⟩, ⟨2147483664, 2147483656, false⟩] ∧ ¬c.Apart := by
  have hneed : blockSizeFor 2147483648 = some 2147483656 := rfl
  obtain ⟨c, hlaunch, hblocks⟩ :=
    exists_divided (.withLimit 4096 4294967328) ⟨2147483648, by decide, by decide, by decide⟩ hneed
      (by decide) (by decide) (by decide) (by decide)
  refine ⟨c, hlaunch, .of_launch rfl hlaunch, hblocks, ?_⟩
  rintro ⟨bs, hblocks', hapart⟩
  obtain rfl := Except.ok.inj (hblocks.symm.trans hblocks')
  have hsettled := (List.isChain_cons_cons.mp hapart.tail).1 rfl rfl
  exact absurd hsettled (by decide)

end Client

end SegregatedFit
