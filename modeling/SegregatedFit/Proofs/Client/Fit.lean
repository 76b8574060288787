import SegregatedFit.Proofs.Client.Course
import SegregatedFit.Proofs.Client.Layout

/-!
Where a request is placed. A free block that is large enough is chosen by its class, its size and its place
in the list of its class; only when there is none does the heap grow, once, and then the request goes to the
start of the free block at its end.
-/

namespace SegregatedFit

-- The free block that is to serve `need` bytes. It is in the lowest class that has a fit, it is a smallest
-- fit of this class, and it comes before the others of its size.
structure BestFit (h : Heap) (bs : List BlockInfo) (need b size : Nat) : Prop where
  free : ⟨b, size, false⟩ ∈ bs
  fits : need ≤ size
  lowest : ∀ i ∈ bs, i.allocated = false → need ≤ i.size →
    SizeClass.ofSize size ≤ SizeClass.ofSize i.size
  smallest : ∀ i ∈ bs, i.allocated = false → need ≤ i.size →
    SizeClass.ofSize i.size = SizeClass.ofSize size → size ≤ i.size
  first : ∃ before after, h.index.chain (.ofSize size) = before ++ b :: after ∧
    ∀ i ∈ bs, i.offset ∈ before → i.size ≠ size

-- What becomes of a free block of `total` bytes that `need` bytes are placed in.
inductive Carved (b total need : Nat) : List BlockInfo → Prop
  | divided (hleft : need + minBlockSize ≤ total) :
      Carved b total need [⟨b, need, true⟩, ⟨b + need, total - need, false⟩]
  | whole (hleft : total = need ∨ total = need + 8) : Carved b total need [⟨b, total, true⟩]

-- The last block, of `total` bytes, once `delta` fresh bytes stand behind the blocks `bs`, and the blocks
-- before it. A free block at the end is a part of it when a tag can hold the joint size.
inductive Extended (bs : List BlockInfo) (stop delta : Nat) : List BlockInfo → Nat → Nat → Prop
  | joined {xs : List BlockInfo} {b size : Nat} (hlast : bs = xs ++ [⟨b, size, false⟩])
      (hmax : delta + size ≤ maxBlockSize) : Extended bs stop delta xs b (delta + size)
  | apart (hlast : ∀ i ∈ bs.getLast?, i.allocated = false → maxBlockSize < delta + i.size) :
      Extended bs stop delta bs stop delta

-- How a request that takes a block of `need` bytes is served: the answer, the allocator that is left, and
-- its blocks. The reserve is asked for bytes once, or not at all.
inductive Served {ρ : Type} [Reserve ρ] (a : Allocator ρ) (bs : List BlockInfo) (need : Nat) :
    Option Block → Allocator ρ → List BlockInfo → Prop
  | found {b total : Nat} {xs ys cut : List BlockInfo} {h' : Heap} (hbest : BestFit a.heap bs need b total)
      (hsplit : bs = xs ++ ⟨b, total, false⟩ :: ys) (hcarved : Carved b total need cut)
      (hsize : h'.memory.size = a.heap.memory.size) :
      Served a bs need (some b) ⟨h', a.reserve, a.chunk⟩ (xs ++ cut ++ ys)
  | refused {delta : Nat} {cause : GrowError} (hnone : ∀ i ∈ bs, i.allocated = false → i.size < need)
      (hdelta : delta = max need a.chunk.val) (hfresh : (a.request delta).fresh = .error cause) :
      Served a bs need none ⟨a.heap, (a.request delta).reserve, a.chunk⟩ bs
  | grown {b total delta : Nat} {xs cut : List BlockInfo} {h' : Heap}
      {fresh : { bytes : ByteArray // bytes.size = delta }}
      (hnone : ∀ i ∈ bs, i.allocated = false → i.size < need) (hdelta : delta = max need a.chunk.val)
      (hfresh : (a.request delta).fresh = .ok fresh)
      (hextended : Extended bs a.heap.memory.size delta xs b total) (hcarved : Carved b total need cut)
      (hsize : h'.memory.size = a.heap.memory.size + delta) :
      Served a bs need (some b) ⟨h', (a.request delta).reserve, a.chunk⟩ (xs ++ cut)

variable {bs xs ys cut : List BlockInfo} {b total need delta stop : Nat} {ls : Lists}

theorem carved_placed (b : Nat) (haligned : need % 8 = 0) (htotal : total % 8 = 0) (hfits : need ≤ total) :
    Carved b total need (placed b total need) := by
  by_cases hleft : minBlockSize ≤ total - need
  · rw [placed, if_pos hleft]
    exact .divided (by simp only [minBlockSize] at hleft ⊢; omega)
  · rw [placed, if_neg hleft]
    exact .whole (by simp only [minBlockSize] at hleft; omega)

theorem Carved.sum_eq (h : Carved b total need cut) (xs ys : List BlockInfo) :
    ((xs ++ cut ++ ys).map (·.size)).sum = ((xs ++ ⟨b, total, false⟩ :: ys).map (·.size)).sum := by
  have hcut : (cut.map (·.size)).sum = total := by
    cases h with
    | divided hleft =>
        simp only [minBlockSize] at hleft
        simp only [List.map_cons, List.map_nil, List.sum_cons, List.sum_nil]
        omega
    | whole hleft => simp
  simp only [List.map_append, List.sum_append, List.map_cons, List.sum_cons, hcut]
  omega

theorem Extended.sum_eq (h : Extended bs stop delta xs b total) :
    ((xs ++ [(⟨b, total, false⟩ : BlockInfo)]).map (·.size)).sum = (bs.map (·.size)).sum + delta := by
  cases h with
  | joined hlast hmax =>
      simp only [hlast, List.map_append, List.sum_append, List.map_cons, List.map_nil, List.sum_cons,
        List.sum_nil]
      omega
  | apart hlast => simp

theorem Extended.delta_le (h : Extended bs stop delta xs b total) : delta ≤ total := by
  cases h with
  | joined hlast hmax => exact Nat.le_add_right ..
  | apart hlast => exact Nat.le_refl _

-- Behind fresh bytes there is nothing to merge them with.
theorem extended_merge (bs : List BlockInfo) (stop delta : Nat) (ls : Lists) :
    Extended bs stop delta (Site.tail bs stop delta ls).merge.left.reverse
      (Site.tail bs stop delta ls).merge.offset (Site.tail bs stop delta ls).merge.size := by
  have hnext : (Site.tail bs stop delta ls).mergeNext = .tail bs stop delta ls := rfl
  rw [Site.merge, hnext, Site.mergePrev]
  cases hlast : mergeable delta bs.reverse with
  | none =>
      simp only [Site.tail, hlast, List.reverse_reverse]
      refine .apart fun i hi hfree => ?_
      obtain ⟨xs, hxs⟩ := List.getLast?_eq_some_iff.mp hi
      rw [hxs, List.reverse_append, List.reverse_singleton, List.singleton_append, mergeable] at hlast
      by_contra hmax
      rw [if_pos ⟨hfree, Nat.le_of_not_lt hmax⟩] at hlast
      cases hlast
  | some found =>
      obtain ⟨⟨offset, size, allocated⟩, rest⟩ := found
      obtain ⟨hsplit, hfree, hmax⟩ := mergeable_eq_some hlast
      obtain rfl : allocated = false := hfree
      simp only [Site.tail, hlast]
      exact .joined (by rw [← List.reverse_cons, ← hsplit, List.reverse_reverse]) hmax

-- A least element that `argmin` chooses is the first of those that are as small.
theorem exists_split_of_argmin {xs : List Nat} {f : Nat → Nat} {p : Nat → Bool} {x : Nat}
    (h : (xs.filter p).argmin f = some x) :
    ∃ before after, xs = before ++ x :: after ∧ ∀ y ∈ before, p y = true → f y ≠ f x := by
  obtain ⟨hmem, -, hfirst⟩ := List.argmin_eq_some_iff.mp h
  obtain ⟨hmem, hx⟩ := List.mem_filter.mp hmem
  obtain ⟨before, after, rfl, hnew⟩ := List.eq_append_cons_of_mem hmem
  refine ⟨before, after, rfl, fun y hy hp heq => ?_⟩
  have hy : y ∈ before.filter p := List.mem_filter.mpr ⟨hy, hp⟩
  have hnew : x ∉ before.filter p := fun h => hnew (List.mem_filter.mp h).1
  have hle := hfirst y (by rw [List.filter_append]; exact List.mem_append_left _ hy) (Nat.le_of_eq heq)
  rw [List.filter_append, List.filter_cons_of_pos hx, List.idxOf_append_of_mem hy,
    List.idxOf_append_of_notMem hnew, List.idxOf_cons_self] at hle
  have hlt := List.idxOf_lt_length_iff.mpr hy
  omega

namespace Outline.Depicts

variable {o : Outline} {h : Heap}

-- The search comes up with the block that is to serve.
theorem bestFit (ho : o.Depicts h) (hfit : o.fit need = some b) :
    ∃ total, BestFit h o.blocks need b total := by
  rcases Heap.findFit_spec ho.sound need with ⟨b', total, hfound, hmem, hfits, hleast⟩ | ⟨hnone, -⟩
  · have hfind := ho.findFit_eq need
    rw [hfit] at hfind
    obtain rfl := Option.some.inj (Except.ok.inj (hfind.symm.trans hfound))
    refine ⟨total, hmem, hfits, ?_, ?_, ?_⟩
    · exact fun i hi hfree hneed => SizeClass.ofSize_mono (hleast i hi hfree hneed)
    · exact fun i hi hfree hneed _ => hleast i hi hfree hneed
    · obtain ⟨-, c, -, -, hchoice, -⟩ := List.findSome?_eq_some_iff.mp hfit
      obtain ⟨before, after, hsplit, hfirst⟩ := exists_split_of_argmin hchoice
      have hlisted : b ∈ o.lists c := hsplit ▸ List.mem_append_right _ List.mem_cons_self
      obtain ⟨size, hmem', rfl⟩ := (ho.sound.filed c b).mp hlisted
      have hsizes : o.sizeAt b = total := ho.sizeAt_eq hmem
      obtain rfl : size = total := (ho.sizeAt_eq hmem').symm.trans hsizes
      refine ⟨before, after, (ho.sound.holds.chain_eq _).trans hsplit, fun i hi hbefore heq => ?_⟩
      have hi := ho.sizeAt_eq hi
      exact hfirst i.offset hbefore (by simpa [hi, heq] using hfits) (by rw [hi, heq, hsizes])
  · have hfind := ho.findFit_eq need
    rw [hfit] at hfind
    cases hnone.symm.trans hfind

theorem lt_of_fit_eq_none (ho : o.Depicts h) (hfit : o.fit need = none) :
    ∀ i ∈ o.blocks, i.allocated = false → i.size < need := by
  have hfind := ho.findFit_eq need
  rw [hfit] at hfind
  rcases Heap.findFit_spec ho.sound need with ⟨b, total, hfound, -⟩ | ⟨-, hsmall⟩
  · cases hfind.symm.trans hfound
  · exact hsmall

theorem blocks_place (ho : o.Depicts h) (hsplit : o.blocks = xs ++ ⟨b, total, false⟩ :: ys) :
    (o.place b need).blocks = xs ++ placed b total need ++ ys := by
  obtain ⟨hbefore, htotal, hbehind⟩ := ho.split hsplit
  simp only [Outline.place, hbefore, htotal, hbehind]

-- The outline of a heap that has grown by `delta` bytes.
theorem exists_grown (ho : o.Depicts h) (fresh : { bytes : ByteArray // bytes.size = delta })
    (hdelta : delta % 8 = 0 ∧ 16 ≤ delta ∧ delta ≤ maxBlockSize) :
    ∃ h' xs b total, (o.settle (o.tail delta)).Depicts h' ∧ (o.tail delta).merge.offset = b ∧
      (o.settle (o.tail delta)).blocks = xs ++ [⟨b, total, false⟩] ∧
      Extended o.blocks o.stop delta xs b total := by
  obtain ⟨fresh, rfl⟩ := fresh
  have hproper : BlockInfo.Proper ⟨h.memory.size, fresh.size, false⟩ :=
    ⟨hdelta.1, hdelta.2.1, hdelta.2.2⟩
  obtain ⟨_, h', -, -, hreaches⟩ := ho.annex fresh hproper
  have hright : (o.tail fresh.size).merge.right = [] := Site.right_merge_eq_nil rfl
  refine ⟨h', _, _, _, hreaches.depicts, rfl, ?_, extended_merge o.blocks o.stop fresh.size o.lists⟩
  rw [settle, Site.blocks, hright]
  rfl

end Outline.Depicts

namespace Allocator

variable {ρ : Type} [Reserve ρ] {a : Allocator ρ} {o : Outline}

theorem exists_served {size : Nat} (ho : o.Depicts a.heap) (hsize : size ≠ 0)
    (hneed : blockSizeFor size = some need) :
    ∃ answer a' bs', (a.allocate size).result = .ok (answer, a') ∧ a'.heap.blocks = .ok bs' ∧
      Served a o.blocks need answer a' bs' := by
  have hfollows := follows_allocate ho size
  have hbounds := (blockSizeFor_spec hneed).1
  simp only [Outline.allocate, if_neg hsize, hneed] at hfollows
  cases hfit : o.fit need with
  | some b =>
      obtain ⟨total, hbest⟩ := ho.bestFit hfit
      obtain ⟨xs, ys, hsplit⟩ := List.append_of_mem hbest.free
      have htotal := ho.sound.laid.mem_bounds hbest.free
      dsimp only at htotal
      have hcarved := carved_placed b hbounds.1 htotal.2.2.2.1 hbest.fits
      rw [hfit] at hfollows
      cases hfollows with
      | @settled _ h' _ hrun hreaches =>
          have hblocks := Heap.blocks_eq hreaches.depicts.sound.laid
          rw [ho.blocks_place hsplit] at hblocks
          refine ⟨some b, _, _, hrun, hblocks, .found hbest hsplit hcarved (hreaches.size_eq ho 0 ?_)⟩
          rw [ho.blocks_place hsplit, hcarved.sum_eq, hsplit]
          rfl
  | none =>
      have hnone := ho.lt_of_fit_eq_none hfit
      rw [hfit] at hfollows
      cases hfollows with
      | refused hfresh hrun =>
          exact ⟨none, _, _, hrun, Heap.blocks_eq ho.sound.laid, .refused hnone rfl hfresh⟩
      | @grown _ _ _ h' fresh hfresh hrun hreaches =>
          obtain ⟨h₁, xs, b, total, hgrown, hoffset, hsplit, hextended⟩ :=
            ho.exists_grown fresh (a.chunk.max_bounds hneed)
          rw [hoffset] at hreaches hrun
          have hblocks := Heap.blocks_eq hreaches.depicts.sound.laid
          rw [hgrown.blocks_place hsplit, List.append_nil] at hblocks
          have htotal := hgrown.sound.laid.mem_bounds (i := ⟨b, total, false⟩) (by simp [hsplit])
          dsimp only at htotal
          have hfits : need ≤ total := Nat.le_trans (Nat.le_max_left ..) hextended.delta_le
          have hcarved := carved_placed b hbounds.1 htotal.2.2.2.1 hfits
          refine ⟨some b, _, _, hrun, hblocks, .grown hnone rfl hfresh (ho.size_eq ▸ hextended) hcarved
            (hreaches.size_eq ho _ ?_)⟩
          rw [hgrown.blocks_place hsplit, hcarved.sum_eq, hextended.sum_eq]

end Allocator

theorem Served.eq_none_iff {ρ : Type} [Reserve ρ] {a a' : Allocator ρ} {answer : Option Block}
    {bs' : List BlockInfo} (h : Served a bs need answer a' bs') :
    answer = none ↔ (∀ i ∈ bs, i.allocated = false → i.size < need) ∧
      ∃ cause, (a.request (max need a.chunk.val)).fresh = .error cause := by
  cases h with
  | found hbest hsplit hcarved hsize =>
      refine iff_of_false (fun h => nomatch h) fun ⟨hnone, _⟩ => ?_
      exact Nat.not_le_of_lt (hnone _ hbest.free rfl) hbest.fits
  | refused hnone hdelta hfresh =>
      subst hdelta
      exact iff_of_true rfl ⟨hnone, _, hfresh⟩
  | grown hnone hdelta hfresh hextended hcarved hsize =>
      subst hdelta
      refine iff_of_false (fun h => nomatch h) fun ⟨_, cause, hrefused⟩ => ?_
      cases hfresh.symm.trans hrefused

namespace Client

variable {ρ : Type} [Reserve ρ] {c : Client ρ}

-- A request for at least one byte, of which a tag can describe the block, is served by these rules in every
-- reachable state. It goes without a block only when no free one is large enough and the reserve refuses;
-- all other requests do so always.
theorem allocate_served (hreachable : c.Reachable) (size : Nat) :
    ∃ bs answer a' bs', c.allocator.heap.blocks = .ok bs ∧
      (c.allocator.allocate size).result = .ok (answer, a') ∧ a'.heap.blocks = .ok bs' ∧
      (∀ need, 0 < size → blockSizeFor size = some need → Served c.allocator bs need answer a' bs') ∧
      (answer = none ↔ size = 0 ∨ maxBlockSize - 8 < size ∨
        ∃ need, blockSizeFor size = some need ∧ (∀ i ∈ bs, i.allocated = false → i.size < need) ∧
          ∃ cause, (c.allocator.request (max need c.allocator.chunk.val)).fresh = .error cause) := by
  obtain ⟨bs, ls, hinv⟩ := hreachable.exists_inv
  have ho := Outline.Depicts.of_sound hinv.sound
  have hblocks := Heap.blocks_eq hinv.sound.laid
  by_cases hzero : size = 0
  · have hrun : (c.allocator.allocate size).result = .ok (none, c.allocator) := by
      simp [Allocator.allocate, hzero]
    refine ⟨bs, none, c.allocator, bs, hblocks, hrun, hblocks, ?_, ?_⟩
    · exact fun need hpos => absurd hzero (Nat.ne_of_gt hpos)
    · exact iff_of_true rfl (.inl hzero)
  cases hneed : blockSizeFor size with
  | none =>
      have hrun : (c.allocator.allocate size).result = .ok (none, c.allocator) := by
        simp [Allocator.allocate, hzero, hneed]
      refine ⟨bs, none, c.allocator, bs, hblocks, hrun, hblocks, ?_, ?_⟩
      · exact fun need _ hsome => nomatch hsome
      · exact iff_of_true rfl (.inr (.inl (blockSizeFor_eq_none_iff.mp hneed)))
  | some need =>
      obtain ⟨answer, a', bs', hrun, hblocks', hserved⟩ := Allocator.exists_served ho hzero hneed
      have hlarge : ¬maxBlockSize - 8 < size := fun h => by
        cases hneed.symm.trans (blockSizeFor_eq_none_iff.mpr h)
      refine ⟨bs, answer, a', bs', hblocks, hrun, hblocks', ?_, ?_⟩
      · rintro _ - ⟨⟩
        exact hserved
      · rw [hserved.eq_none_iff, or_iff_right hzero, or_iff_right hlarge]
        simp

theorem allocate_served_arena : ∃ c : Client Arena, c.Reachable ∧ ∃ bs a' bs',
    c.allocator.heap.blocks = .ok bs ∧ (c.allocator.allocate 8).result = .ok (some 16, a') ∧
      Served c.allocator bs 16 (some 16) a' bs' := by
  obtain ⟨c, hreachable, -, hlayout, -⟩ := exists_reachable_arena
  obtain ⟨bs, answer, a', bs', hblocks, hrun, -, hserved, -⟩ := allocate_served hreachable 8
  have hserved := hserved 16 (by decide) (by decide)
  obtain rfl : bs = [⟨16, 16, false⟩, ⟨32, 16, true⟩] := by simpa [hblocks, Except.toOption] using hlayout
  suffices hanswer : answer = some 16 from
    ⟨c, hreachable, _, a', bs', hblocks, hanswer ▸ hrun, hanswer ▸ hserved⟩
  cases hserved with
  | @found b total _ _ _ _ hbest hsplit hcarved hsize =>
      have hfirst : b = 16 ∧ total = 16 := by simpa using hbest.free
      rw [hfirst.1]
  | refused hnone hdelta hfresh => simpa using hnone ⟨16, 16, false⟩ (by simp) rfl
  | grown hnone hdelta hfresh hextended hcarved hsize => simpa using hnone ⟨16, 16, false⟩ (by simp) rfl

end Client

end SegregatedFit
