import SegregatedFit.Proofs.Client.Course
import SegregatedFit.Proofs.Client.Service

/-!
What comes of a block that is resized. Which of the ways is taken depends on the size of the block and on
what stands behind it; whichever it is, the content of the block is kept and that of the others untouched.
-/

namespace SegregatedFit

-- A free block of `gain` bytes stands behind the one of `size` bytes at `b`, and together they hold `need`
-- bytes and have one tag; the blocks `rest` come after it.
structure Absorbable (b size need : Nat) (ys : List BlockInfo) (gain : Nat) (rest : List BlockInfo) :
    Prop where
  behind : ys = ⟨b + size, gain, false⟩ :: rest
  fits : need ≤ size + gain
  size_le : size + gain ≤ maxBlockSize

-- How the allocator `a` resizes the block of `size` bytes at `b`, between the blocks `xs` and `ys`, when
-- `request` bytes are asked for, which take a block of `need` bytes: the answer, the allocator that is left,
-- and its blocks.
inductive Resized {ρ : Type} [Reserve ρ] (a : Allocator ρ) (xs : List BlockInfo) (b size : Nat)
    (ys : List BlockInfo) (request need : Nat) : Option Block → Allocator ρ → List BlockInfo → Prop
  | stayed (hneed : need ≤ size) :
      Resized a xs b size ys request need (some b) a (xs ++ ⟨b, size, true⟩ :: ys)
  | absorbed {gain : Nat} {rest : List BlockInfo} {h' : Heap} (hneed : size < need)
      (habsorb : Absorbable b size need ys gain rest) (hsize : h'.memory.size = a.heap.memory.size) :
      Resized a xs b size ys request need (some b) ⟨h', a.reserve, a.chunk⟩
        (xs ++ ⟨b, size + gain, true⟩ :: rest)
  | stretched {delta : Nat} {fresh : { bytes : ByteArray // bytes.size = delta }} {h' : Heap}
      (hneed : size < need) (hlast : ys = []) (hdelta : delta = need - size)
      (hfresh : (a.request delta).fresh = .ok fresh)
      (hsize : h'.memory.size = a.heap.memory.size + delta) :
      Resized a xs b size ys request need (some b) ⟨h', (a.request delta).reserve, a.chunk⟩
        (xs ++ [⟨b, need, true⟩])
  | refused {delta : Nat} {cause : GrowError} (hneed : size < need) (hlast : ys = [])
      (hdelta : delta = need - size) (hfresh : (a.request delta).fresh = .error cause) :
      Resized a xs b size ys request need none ⟨a.heap, (a.request delta).reserve, a.chunk⟩
        (xs ++ ⟨b, size, true⟩ :: ys)
  -- otherwise another block is allocated, if there is one
  | stuck {a' : Allocator ρ} (hneed : size < need) (hinner : ys ≠ [])
      (hkeep : ∀ gain rest, ¬Absorbable b size need ys gain rest)
      (hallocate : (a.allocate request).result = .ok (none, a')) (hheap : a'.heap = a.heap) :
      Resized a xs b size ys request need none a' (xs ++ ⟨b, size, true⟩ :: ys)
  | moved {q : Nat} {a₁ a₂ a' : Allocator ρ} {bs' : List BlockInfo} (hneed : size < need) (hinner : ys ≠ [])
      (hkeep : ∀ gain rest, ¬Absorbable b size need ys gain rest)
      (hallocate : (a.allocate request).result = .ok (some q, a₁))
      (hfree : (a₁.free (some b)).result = .ok a₂) (hblocks : a₂.heap.blocks = .ok bs')
      (hsize : a'.heap.memory.size = a₂.heap.memory.size) (hreserve : a'.reserve = a₂.reserve)
      (hnew : q ≠ b) (hgone : ∀ total, ⟨b, total, true⟩ ∉ bs') :
      Resized a xs b size ys request need (some q) a' bs'

-- What is kept when the block of `size` bytes at `b` is resized for `request` bytes. The block that is
-- answered begins with the old content, and the other handles in `live` keep theirs.
structure Retained {ρ : Type} (a a' : Allocator ρ) (live : Finset Nat) (b size request : Nat)
    (answer : Option Block) : Prop where
  room : ∀ q ∈ answer, ∃ usable, a'.usableSize q = .ok usable ∧ request ≤ usable
  content : ∀ q ∈ answer, ∃ old new, a.payload b = .ok old ∧ old.size = size - 8 ∧
    a'.payload q = .ok new ∧ ∀ k < min (size - 8) request, new[k]? = old[k]?
  others : ∀ p ∈ live, p ≠ b → a'.payload p = a.payload p ∧ a'.usableSize p = a.usableSize p

namespace Outline.Depicts

variable {o : Outline} {h : Heap} {b size : Nat}

-- A block that has been given back is no handle any more.
theorem notMem_release (ho : o.Depicts h) (hb : ⟨b, size, true⟩ ∈ o.blocks) (total : Nat) :
    ⟨b, total, true⟩ ∉ (o.release b).blocks := by
  obtain ⟨xs, ys, hsplit⟩ := List.append_of_mem hb
  obtain ⟨hbefore, hsize, hbehind⟩ := ho.split hsplit
  let z : Site := ⟨xs.reverse, b, size, ys, o.lists⟩
  have hsite : z.blocks true = o.blocks := by simp [z, Site.blocks, hsplit]
  have hlaid : Laid h.memory h.prologue (z.blocks true) := hsite ▸ ho.sound.laid
  have hgone := Site.not_handle_merge hlaid total
  rwa [Outline.release, hbefore, hsize, hbehind]

end Outline.Depicts

namespace Allocator

variable {ρ : Type} [Reserve ρ] {a : Allocator ρ} {o : Outline} {xs ys : List BlockInfo}
  {b size request need : Nat}

theorem exists_resized_of_last (ho : o.Depicts a.heap) (hsplit : o.blocks = xs ++ [⟨b, size, true⟩])
    (hneed : blockSizeFor request = some need) (hgrow : size < need) :
    ∃ answer a' bs', (a.resize b request need).result = .ok (answer, a') ∧ a'.heap.blocks = .ok bs' ∧
      Resized a xs b size [] request need answer a' bs' := by
  have hmem : ⟨b, size, true⟩ ∈ o.blocks := by simp [hsplit]
  have hfollows := follows_resize ho hmem hneed
  obtain ⟨hbefore, hsize, hbehind⟩ := ho.split hsplit
  dsimp only at hbefore hsize hbehind
  rw [Outline.resize, hsize, if_neg (Nat.not_le_of_lt hgrow), hbehind] at hfollows
  cases hfollows with
  | refused hfresh hrun =>
      have hblocks := Heap.blocks_eq ho.sound.laid
      rw [hsplit] at hblocks
      exact ⟨none, _, _, hrun, hblocks, .refused hgrow rfl rfl hfresh⟩
  | grown hfresh hrun hreaches =>
      have hblocks := Heap.blocks_eq hreaches.depicts.sound.laid
      simp only [Outline.stretch, hbefore] at hblocks
      refine ⟨some b, _, _, hrun, hblocks, .stretched hgrow rfl rfl hfresh (hreaches.size_eq ho _ ?_)⟩
      simp only [Outline.stretch, hbefore, hsplit, List.map_append, List.sum_append, List.map_cons,
        List.map_nil, List.sum_cons, List.sum_nil]
      omega

theorem exists_resized_of_absorbable {gain : Nat} {rest : List BlockInfo} (ho : o.Depicts a.heap)
    (hsplit : o.blocks = xs ++ ⟨b, size, true⟩ :: ys) (hneed : blockSizeFor request = some need)
    (hgrow : size < need) (habsorb : Absorbable b size need ys gain rest) :
    ∃ answer a' bs', (a.resize b request need).result = .ok (answer, a') ∧ a'.heap.blocks = .ok bs' ∧
      Resized a xs b size ys request need answer a' bs' := by
  have hmem : ⟨b, size, true⟩ ∈ o.blocks := by simp [hsplit]
  have hfollows := follows_resize ho hmem hneed
  obtain ⟨hbefore, hsize, hbehind⟩ := ho.split hsplit
  dsimp only at hbefore hsize hbehind
  obtain ⟨hys, hfits, hmax⟩ := id habsorb
  rw [Outline.resize, hsize, if_neg (Nat.not_le_of_lt hgrow), hbehind, hys] at hfollows
  dsimp only at hfollows
  rw [if_pos ⟨rfl, hfits, hmax⟩] at hfollows
  cases hfollows with
  | settled hrun hreaches =>
      have hblocks := Heap.blocks_eq hreaches.depicts.sound.laid
      simp only [Outline.absorb, hbefore, hsize] at hblocks
      refine ⟨some b, _, _, hrun, hblocks, .absorbed hgrow habsorb (hreaches.size_eq ho 0 ?_)⟩
      simp only [Outline.absorb, hbefore, hsize, hsplit, hys, List.map_append, List.sum_append,
        List.map_cons, List.sum_cons]
      omega

-- Moving the content makes no difference to which blocks there are once the old block has been given back.
theorem exists_resized_of_move (ho : o.Depicts a.heap) (hb : ⟨b, size, true⟩ ∈ o.blocks)
    (hblocks : a.heap.blocks = .ok (xs ++ ⟨b, size, true⟩ :: ys)) (hsize : 8 ≤ size)
    (hfits : size ≤ request + 8) (hgrow : size < need) (hinner : ys ≠ [])
    (hkeep : ∀ gain rest, ¬Absorbable b size need ys gain rest) :
    ∃ answer a' bs', (a.move b size request).result = .ok (answer, a') ∧ a'.heap.blocks = .ok bs' ∧
      Resized a xs b size ys request need answer a' bs' := by
  have hsub : subtract size overhead = .ok (size - 8) := subtract_eq_ok hsize
  have hcount : min (size - 8) request = size - 8 := by omega
  rcases allocate_spec ho.sound request with
    ⟨reserve, hnone, -⟩ | ⟨q, h₁, reserve, bs₁, ls₁, hsome, hallot, -⟩
  · exact ⟨none, ⟨a.heap, reserve, a.chunk⟩, _, by simp [move, hnone], hblocks,
      .stuck hgrow hinner hkeep hnone rfl⟩
  · have ho₁ := Outline.Depicts.of_sound hallot.becomes.sound
    obtain ⟨total, hq, htotal⟩ := hallot.block
    obtain ⟨hne, hb₁⟩ := hallot.kept hb
    obtain ⟨h₂, h₃, hcopy, hrelease, hreaches⟩ :=
      move_reaches ho₁ hq hb₁ (Nat.le_refl (size - 8)) (by omega)
    obtain ⟨h', hrelease', hreaches'⟩ := ho₁.release hb₁
    have hfree : (Allocator.free ⟨h₁, reserve, a.chunk⟩ (some b)).result = .ok ⟨h', reserve, a.chunk⟩ := by
      simp [free, update, hrelease']
    have hlength : h₃.memory.size = h'.memory.size :=
      hreaches.depicts.size_eq.trans hreaches'.depicts.size_eq.symm
    refine ⟨some q, ⟨h₃, reserve, a.chunk⟩, _, ?_, Heap.blocks_eq hreaches.depicts.sound.laid, ?_⟩
    · simp [move, hsome, hsub, hcount, update, hcopy, free, hrelease]
    · exact .moved hgrow hinner hkeep hsome hfree (Heap.blocks_eq hreaches'.depicts.sound.laid) hlength rfl
        hne.symm (ho₁.notMem_release hb₁)

theorem exists_resized (ho : o.Depicts a.heap) (hsplit : o.blocks = xs ++ ⟨b, size, true⟩ :: ys)
    (hneed : blockSizeFor request = some need) :
    ∃ answer a' bs', (a.resize b request need).result = .ok (answer, a') ∧ a'.heap.blocks = .ok bs' ∧
      Resized a xs b size ys request need answer a' bs' := by
  have hlaid := ho.sound.laid
  have hblocks := Heap.blocks_eq hlaid
  rw [hsplit] at hlaid hblocks
  have hread := hlaid.size_eq (i := ⟨b, size, true⟩) (by simp)
  have hself := hlaid.mem_bounds (i := ⟨b, size, true⟩) (by simp)
  dsimp only at hread hself
  by_cases hstay : need ≤ size
  · exact ⟨some b, a, _, by simp [resize, hread, hstay], hblocks, .stayed hstay⟩
  have hgrow := Nat.lt_of_not_le hstay
  cases ys with
  | nil => exact exists_resized_of_last ho hsplit hneed hgrow
  | cons j rest =>
      by_cases habsorb : ∃ gain rest', Absorbable b size need (j :: rest) gain rest'
      · obtain ⟨gain, rest', habsorb⟩ := habsorb
        exact exists_resized_of_absorbable ho hsplit hneed hgrow habsorb
      · have hkeep : ∀ gain rest', ¬Absorbable b size need (j :: rest) gain rest' := fun gain rest' h =>
          habsorb ⟨gain, rest', h⟩
        have hfits := le_of_lt_blockSizeFor hneed hself.2.2.2.1 hself.2.2.2.2.1 hgrow
        have hnext := hlaid.next_eq (i := ⟨b, size, true⟩) (by simp)
        have hafter := hlaid.tag_after
        have hj := hlaid.mem_bounds (i := j) (by simp)
        have htest : ¬(¬j.tag.allocated = true ∧ need ≤ size + j.tag.size ∧
            size + j.tag.size ≤ maxBlockSize) := by
          rintro ⟨hfree, hroom, hmax⟩
          obtain ⟨_, -, rfl, hadjacent, -⟩ := tiles_append.mp hlaid.tiles
          have hfree : j.allocated = false := Bool.eq_false_iff.mpr hfree
          exact hkeep j.size rest ⟨by rw [← hadjacent, ← hfree], hroom, hmax⟩
        have hnonzero : j.tag.size ≠ 0 := by
          simp only [BlockInfo.tag]
          omega
        rw [resize_eq_move hread hnext hafter hstay htest hnonzero]
        exact exists_resized_of_move ho (by simp [hsplit]) hblocks (by omega) hfits hgrow (by simp) hkeep

end Allocator

namespace Client

variable {ρ : Type} [Reserve ρ] {c : Client ρ}

theorem Reachable.retained {a' : Allocator ρ} {b size request : Nat} {answer : Option Block}
    {bs : List BlockInfo} {ls : Lists} (hreachable : c.Reachable) (hinv : c.Inv bs ls)
    (hb : ⟨b, size, true⟩ ∈ bs) (hpos : 0 < request)
    (hrun : (c.allocator.reallocate (some b) request).result = .ok (answer, a')) :
    Retained c.allocator a' c.live b size request answer := by
  have hadmits : c.Admits (.reallocate (some b) request) := by
    refine ⟨?_, trivial⟩
    rintro _ ⟨⟩
    exact (hinv.live b).mpr ⟨size, hb⟩
  obtain ⟨answer', c', hstep, hledger, -, hkept⟩ := hinv.exists_refined_step hadmits
  obtain ⟨rfl, rfl⟩ : answer = answer' ∧ a' = c'.allocator := by
    rw [Client.step, Request.run, hrun] at hstep
    obtain ⟨hanswer, hnext⟩ := Prod.mk.inj (Except.ok.inj hstep)
    exact ⟨hanswer, hnext ▸ rfl⟩
  have hgeometry := (refines_ledger (hreachable.step hadmits hstep)).1
  obtain ⟨old, hold, hlength, -⟩ := hinv.ledger_eq_some hb
  have hothers : ∀ p ∈ c.live, p ≠ b → c'.allocator.payload p = c.allocator.payload p ∧
      c'.allocator.usableSize p = c.allocator.usableSize p := fun p hp hne => by
    obtain ⟨hpayload, husable, -⟩ := hkept p hp (by simpa [Request.target] using hne.symm)
    exact ⟨hpayload, husable⟩
  rcases hledger.of_reallocate hpos with
    ⟨rfl, -⟩ | ⟨q, content, new, rfl, hcontent, -, hroom, hsame, hafter⟩
  · exact ⟨by simp, by simp, hothers⟩
  · obtain rfl := Option.some.inj (hold.symm.trans hcontent)
    have hnew : c'.ledger q = some new := by simp [hafter, Ledger.put]
    refine ⟨?_, ?_, hothers⟩
    · rintro _ ⟨⟩
      exact ⟨new.size, (hgeometry.spans hnew).2, hroom⟩
    · rintro _ ⟨⟩
      exact ⟨old, new, (ledger_eq_some_iff.mp hold).2, hlength, (ledger_eq_some_iff.mp hnew).2,
        hlength ▸ hsame⟩

-- Resizing without a handle allocates, and to nothing it frees. Otherwise it goes one of the ways above, and
-- each of them keeps what it is to keep.
theorem reallocate_resized (hreachable : c.Reachable) (request : Nat) :
    c.allocator.reallocate none request = c.allocator.allocate request ∧
      ∀ b ∈ c.live,
        (∃ a', (c.allocator.free (some b)).result = .ok a' ∧
          (c.allocator.reallocate (some b) 0).result = .ok (none, a')) ∧
        (0 < request → ∃ xs size ys answer a' bs',
          c.allocator.heap.blocks = .ok (xs ++ ⟨b, size, true⟩ :: ys) ∧
          (c.allocator.reallocate (some b) request).result = .ok (answer, a') ∧
          a'.heap.blocks = .ok bs' ∧ Retained c.allocator a' c.live b size request answer ∧
          (blockSizeFor request = none → answer = none ∧ a' = c.allocator) ∧
          ∀ need, blockSizeFor request = some need →
            Resized c.allocator xs b size ys request need answer a' bs') := by
  refine ⟨rfl, fun b hb => ?_⟩
  obtain ⟨bs, ls, hinv⟩ := hreachable.exists_inv
  have ho := Outline.Depicts.of_sound hinv.sound
  obtain ⟨size, hmem⟩ := (hinv.live b).mp hb
  refine ⟨?_, fun hpos => ?_⟩
  · obtain ⟨h', hrelease, -⟩ := ho.release hmem
    have hfree : (c.allocator.free (some b)).result =
        .ok ⟨h', c.allocator.reserve, c.allocator.chunk⟩ := by
      simp [Allocator.free, Allocator.update, hrelease]
    exact ⟨_, hfree, by simp [Allocator.reallocate, hfree]⟩
  · obtain ⟨xs, ys, rfl⟩ := List.append_of_mem hmem
    have hblocks := Heap.blocks_eq hinv.sound.laid
    have hzero := Nat.ne_of_gt hpos
    cases hneed : blockSizeFor request with
    | none =>
        have hrun : (c.allocator.reallocate (some b) request).result = .ok (none, c.allocator) := by
          simp [Allocator.reallocate, hzero, hneed]
        exact ⟨xs, size, ys, none, c.allocator, _, hblocks, hrun, hblocks,
          hreachable.retained hinv hmem hpos hrun, by simp, by simp⟩
    | some need =>
        obtain ⟨answer, a', bs', hresize, hblocks', hresized⟩ := Allocator.exists_resized ho rfl hneed
        have hrun : (c.allocator.reallocate (some b) request).result = .ok (answer, a') := by
          simp [Allocator.reallocate, hzero, hneed, hresize]
        refine ⟨xs, size, ys, answer, a', bs', hblocks, hrun, hblocks',
          hreachable.retained hinv hmem hpos hrun, by simp, fun need' hneed' => ?_⟩
        obtain rfl := Option.some.inj hneed'
        exact hresized

theorem reallocate_resized_arena : ∃ c : Client Arena, c.Reachable ∧ c.live = {32} ∧ ∃ answer a' bs',
    (c.allocator.reallocate (some 32) 16).result = .ok (answer, a') ∧
      Retained c.allocator a' {32} 32 16 16 answer ∧
      Resized c.allocator [⟨16, 16, false⟩] 32 16 [] 16 24 answer a' bs' := by
  obtain ⟨c, hreachable, hlive, hlayout, -⟩ := exists_reachable_arena
  obtain ⟨-, hresized⟩ := reallocate_resized hreachable 16
  obtain ⟨xs, size, ys, answer, a', bs', hblocks, hrun, -, hretained, -, hresized⟩ :=
    (hresized 32 (by simp [hlive])).2 (by decide)
  have hresized := hresized 24 (by decide)
  have hsplit : xs ++ ⟨32, size, true⟩ :: ys = [⟨16, 16, false⟩, ⟨32, 16, true⟩] := by
    simpa [hblocks, Except.toOption] using hlayout
  -- the block is the second one of two
  obtain ⟨rfl, rfl, rfl⟩ : xs = [⟨16, 16, false⟩] ∧ size = 16 ∧ ys = [] := by
    rcases xs with _ | ⟨x, _ | ⟨x', xs⟩⟩
    · simp at hsplit
    · simpa using hsplit
    · simp at hsplit
  exact ⟨c, hreachable, hlive, answer, a', bs', hrun, hlive ▸ hretained, hresized⟩

end Client

end SegregatedFit
