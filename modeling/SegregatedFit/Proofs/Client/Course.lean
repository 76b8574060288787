import SegregatedFit.Proofs.Client.Change
import SegregatedFit.Proofs.Heap.Outline

/-!
The course of a request. The outline of the heap tells before a request is made what comes of it: the
answer and the outline that is left, or how many more bytes it takes first. All that a region has a say
in is whether it hands out those bytes.
-/

namespace SegregatedFit

-- A request is answered from what is there, or it waits for `delta` more bytes; when they are refused,
-- there is no answer, and everything stays as it is.
inductive Course where
  | settled (answer : Option Block) (after : Outline)
  | growing (delta : Nat) (answer : Block) (after : Outline)

-- When there is an answer, `b` is given back.
def Course.releasing (b : Block) : Course → Course
  | settled none o => settled none o
  | settled (some moved) o => settled (some moved) (o.release b)
  | growing delta moved o => growing delta moved (o.release b)

namespace Outline

def allocate (o : Outline) (chunk size : Nat) : Course :=
  if size = 0 then .settled none o
  else
    match blockSizeFor size with
    | none => .settled none o
    | some need =>
      match o.fit need with
      | some b => .settled (some b) (o.place b need)
      | none =>
        let z := o.tail (max need chunk)
        .growing (max need chunk) z.merge.offset ((o.settle z).place z.merge.offset need)

def resize (o : Outline) (chunk : Nat) (b : Block) (request need : Nat) : Course :=
  let size := o.sizeAt b
  if need ≤ size then .settled (some b) o
  else
    match o.behind b with
    | [] => .growing (need - size) b (o.stretch b need)
    | j :: rest =>
      if j.allocated = false ∧ need ≤ size + j.size ∧ size + j.size ≤ maxBlockSize then
        .settled (some b) (o.absorb b j.size rest)
      else (o.allocate chunk request).releasing b

def course (o : Outline) (chunk : Nat) : Request → Course
  | .allocate size => o.allocate chunk size
  | .free block => .settled none (block.elim o o.release)
  | .reallocate none size => o.allocate chunk size
  | .reallocate (some b) size =>
    if size = 0 then .settled none (o.release b)
    else
      match blockSizeFor size with
      | none => .settled none o
      | some need => o.resize chunk b size need
  | .write _ _ => .settled none o

end Outline

theorem Heap.Sound.blocks_unique {h : Heap} {bs bs' : List BlockInfo} {ls ls' : Lists}
    (hsound : h.Sound bs ls) (hsound' : h.Sound bs' ls') : bs' = bs :=
  Except.ok.inj ((Heap.blocks_eq hsound'.laid).symm.trans (Heap.blocks_eq hsound.laid))

namespace Allocator

variable {ρ : Type} [Reserve ρ] {a : Allocator ρ} {o : Outline} {b size need : Nat}

-- The run `x` from the state `a` takes a course, and refusals come from the reserve alone.
inductive Follows (a : Allocator ρ) (x : Run (Option Block × Allocator ρ)) : Course → Prop
  | settled {answer : Option Block} {h' : Heap} {o : Outline}
      (hrun : x.result = .ok (answer, ⟨h', a.reserve, a.chunk⟩)) (hreaches : a.heap.Reaches h' o) :
      Follows a x (.settled answer o)
  | refused {delta : Nat} {b : Block} {o : Outline} {cause : GrowError}
      (hfresh : (a.request delta).fresh = .error cause)
      (hrun : x.result = .ok (none, ⟨a.heap, (a.request delta).reserve, a.chunk⟩)) :
      Follows a x (.growing delta b o)
  | grown {delta : Nat} {b : Block} {o : Outline} {h' : Heap}
      {fresh : { bytes : ByteArray // bytes.size = delta }} (hfresh : (a.request delta).fresh = .ok fresh)
      (hrun : x.result = .ok (some b, ⟨h', (a.request delta).reserve, a.chunk⟩))
      (hreaches : a.heap.Reaches h' o) : Follows a x (.growing delta b o)

theorem Follows.congr {x y : Run (Option Block × Allocator ρ)} {course : Course}
    (h : a.Follows x course) (hresult : y.result = x.result) : a.Follows y course := by
  cases h with
  | settled hrun hreaches => exact .settled (hresult.trans hrun) hreaches
  | refused hfresh hrun => exact .refused hfresh (hresult.trans hrun)
  | grown hfresh hrun hreaches => exact .grown hfresh (hresult.trans hrun) hreaches

theorem grow_reaches (ho : o.Depicts a.heap) (haligned : size % 8 = 0) (hmin : 16 ≤ size)
    (hmax : size ≤ maxBlockSize) :
    (∃ cause, (a.request size).fresh = .error cause ∧ (a.grow size).result =
        .ok (.error cause, ⟨a.heap, (a.request size).reserve, a.chunk⟩)) ∨
      ∃ fresh h', (a.request size).fresh = .ok fresh ∧ (a.grow size).result =
          .ok (.ok (o.tail size).merge.offset, ⟨h', (a.request size).reserve, a.chunk⟩) ∧
        a.heap.Reaches h' (o.settle (o.tail size)) := by
  simp only [grow, alignUp_eq_self haligned, Run.result_bind]
  rcases a.extend_cases size with ⟨cause, hfresh, hextend⟩ | ⟨⟨fresh, rfl⟩, hfresh, hextend⟩
  · exact .inl ⟨cause, hfresh, by rw [hextend]; rfl⟩
  · have hproper : BlockInfo.Proper ⟨a.heap.memory.size, fresh.size, false⟩ := ⟨haligned, hmin, hmax⟩
    obtain ⟨h₁, h', hannex, hcoalesce, hreaches⟩ := ho.annex fresh hproper
    refine .inr ⟨_, h', hfresh, ?_, hreaches⟩
    simp only [hextend, update, Run.result_bind, Run.result_lift, Run.result_emit, Run.result_pure,
      hannex, hcoalesce, ok_bind]

theorem follows_allocate (ho : o.Depicts a.heap) (size : Nat) :
    a.Follows (a.allocate size) (o.allocate a.chunk.val size) := by
  unfold allocate Outline.allocate
  by_cases hzero : size = 0
  · rw [if_pos hzero, if_pos hzero]
    exact .settled rfl (.refl ho)
  rw [if_neg hzero, if_neg hzero]
  cases hneed : blockSizeFor size with
  | none => exact .settled rfl (.refl ho)
  | some need =>
      have hbounds := (blockSizeFor_spec hneed).1
      have hproper : ∀ b, BlockInfo.Proper ⟨b, need, true⟩ := fun b =>
        ⟨hbounds.1, hbounds.2.1, hbounds.2.2.1⟩
      have hfind := ho.findFit_eq need
      dsimp only
      cases hfit : o.fit need with
      | some b =>
          rw [hfit] at hfind
          rcases Heap.findFit_spec ho.sound need with ⟨b', total, hfound, hmem, hfits, -⟩ | ⟨hnone, -⟩
          · obtain rfl := Option.some.inj (Except.ok.inj (hfind.symm.trans hfound))
            obtain ⟨h', hplace, hreaches⟩ := ho.place hmem (hproper b) hfits
            exact .settled (by simp [hfind, update, hplace]) hreaches
          · cases hfind.symm.trans hnone
      | none =>
          rw [hfit] at hfind
          obtain ⟨haligned, hmin, hmax⟩ := a.chunk.max_bounds hneed
          rcases grow_reaches ho haligned hmin hmax with
            ⟨cause, hfresh, hgrow⟩ | ⟨fresh, h₁, hfresh, hgrow, hreaches⟩
          · exact .refused hfresh (by simp [hfind, hgrow])
          · let z := o.tail (max need a.chunk.val)
            have hmem : ⟨z.merge.offset, z.merge.size, false⟩ ∈ (o.settle z).blocks :=
              Site.mem_blocks.mpr (.inr (.inl rfl))
            have hfits : need ≤ z.merge.size :=
              Nat.le_trans (Nat.le_max_left ..) z.size_le_merge
            obtain ⟨h', hplace, hreaches'⟩ := hreaches.depicts.place hmem (hproper _) hfits
            refine .grown hfresh ?_ (hreaches.trans hreaches')
            simp [hfind, hgrow, update, z, hplace]

-- A block moves into one that has just been handed out.
theorem move_reaches {h₁ : Heap} {o₁ : Outline} {moved total count : Nat} (ho : o₁.Depicts h₁)
    (hmoved : ⟨moved, total, true⟩ ∈ o₁.blocks) (hb : ⟨b, size, true⟩ ∈ o₁.blocks)
    (hcount : count ≤ size - 8) (hfits : count ≤ total - 8) :
    ∃ h₂ h₃, h₁.copy b moved count = .ok h₂ ∧ h₂.release b = .ok h₃ ∧ h₁.Reaches h₃ (o₁.release b) := by
  have hbounds := ho.sound.laid.mem_bounds hb
  dsimp only at hbounds
  have hsource : b + count ≤ h₁.memory.size := by omega
  obtain ⟨h₂, hcopy, hcopied⟩ := ho.copy hmoved hsource hfits
  obtain ⟨h₃, hrelease, hreleased⟩ := hcopied.depicts.release hb
  exact ⟨h₂, h₃, hcopy, hrelease, hcopied.trans hreleased⟩

-- Resizes a block by moving its content to another one, which is the last resort.
def move (a : Allocator ρ) (b size request : Nat) : Run (Option Block × Allocator ρ) := do
  match ← a.allocate request with
  | (none, a) => return (none, a)
  | (some moved, a) =>
    let count := min (← subtract size overhead) request
    let a ← a.update (·.copy b moved count)
    let a ← a.free (some b)
    return (some moved, a)

theorem follows_move {request : Nat} (ho : o.Depicts a.heap) (hb : ⟨b, size, true⟩ ∈ o.blocks)
    (hsize : 8 ≤ size) (hfits : size ≤ request + 8) :
    a.Follows (a.move b size request) ((o.allocate a.chunk.val request).releasing b) := by
  have hfollows := follows_allocate ho request
  have hsub : subtract size overhead = .ok (size - 8) := subtract_eq_ok hsize
  have hcount : min (size - 8) request = size - 8 := by omega
  -- once a block has been handed out, the old one is still there, and the new one has room
  have hmove : ∀ {moved h₁ reserve o₁}, (a.allocate request).result =
      .ok (some moved, ⟨h₁, reserve, a.chunk⟩) → a.heap.Reaches h₁ o₁ →
      ∃ h₂ h₃, h₁.copy b moved (size - 8) = .ok h₂ ∧ h₂.release b = .ok h₃ ∧
        a.heap.Reaches h₃ (o₁.release b) := by
    intro moved h₁ reserve o₁ hallocate hreaches
    rcases allocate_spec ho.sound request with
      ⟨reserve', hnone, -⟩ | ⟨moved', h', reserve', bs', ls', hsome, hallot, -⟩
    · cases hallocate.symm.trans hnone
    · obtain ⟨hanswer, hstate⟩ := Prod.mk.inj (Except.ok.inj (hallocate.symm.trans hsome))
      obtain rfl := Option.some.inj hanswer
      obtain ⟨rfl, -, -⟩ := Allocator.mk.inj hstate
      obtain rfl := hreaches.depicts.sound.blocks_unique hallot.becomes.sound
      obtain ⟨total, hblock, htotal⟩ := hallot.block
      obtain ⟨-, hkept⟩ := hallot.kept hb
      obtain ⟨h₂, h₃, hcopy, hrelease, hreaches'⟩ :=
        move_reaches hreaches.depicts hblock hkept (Nat.le_refl (size - 8)) (by omega)
      exact ⟨h₂, h₃, hcopy, hrelease, hreaches.trans hreaches'⟩
  cases hcourse : o.allocate a.chunk.val request with
  | settled answer o₁ =>
      rw [hcourse] at hfollows
      cases hfollows with
      | settled hrun hreaches =>
      cases answer with
      | none => exact .settled (by simp [move, hrun]) hreaches
      | some moved =>
          obtain ⟨h₂, h₃, hcopy, hrelease, hreaches'⟩ := hmove hrun hreaches
          exact .settled (by simp [move, hrun, hsub, hcount, update, hcopy, free, hrelease]) hreaches'
  | growing delta moved o₁ =>
      rw [hcourse] at hfollows
      cases hfollows with
      | refused hfresh hrun => exact .refused hfresh (by simp [move, hrun])
      | grown hfresh hrun hreaches =>
          obtain ⟨h₂, h₃, hcopy, hrelease, hreaches'⟩ := hmove hrun hreaches
          exact .grown hfresh (by simp [move, hrun, hsub, hcount, update, hcopy, free, hrelease]) hreaches'

theorem resize_eq_move {request need next : Nat} {after : Tag}
    (hread : Block.size a.heap.memory b = .ok size) (hnext : Block.next a.heap.memory b = .ok next)
    (hafter : Block.tag a.heap.memory next = .ok after) (hgrow : ¬need ≤ size)
    (hkeep : ¬(¬after.allocated = true ∧ need ≤ size + after.size ∧ size + after.size ≤ maxBlockSize))
    (hinner : after.size ≠ 0) : (a.resize b request need).result = (a.move b size request).result := by
  simp only [resize, Run.result_bind, Run.result_lift, hread, ok_bind, if_neg hgrow, hnext, hafter,
    if_neg hkeep, if_neg hinner]
  exact (Run.result_bind (a.allocate request) _).symm

theorem follows_resize {request : Nat} (ho : o.Depicts a.heap) (hb : ⟨b, size, true⟩ ∈ o.blocks)
    (hneed : blockSizeFor request = some need) :
    a.Follows (a.resize b request need) (o.resize a.chunk.val b request need) := by
  obtain ⟨xs, ys, hsplit⟩ := List.append_of_mem hb
  obtain ⟨-, hsize, hbehind⟩ := ho.split hsplit
  have hlaid := ho.sound.laid
  rw [hsplit] at hlaid
  have hread := hlaid.size_eq (i := ⟨b, size, true⟩) (by simp)
  have hnext := hlaid.next_eq (i := ⟨b, size, true⟩) (by simp)
  have hself := hlaid.mem_bounds (i := ⟨b, size, true⟩) (by simp)
  have hafter := hlaid.tag_after
  have hbounds := (blockSizeFor_spec hneed).1
  dsimp only at hread hnext hself hafter hsize hbehind
  unfold resize Outline.resize
  simp only [hsize, hbehind]
  by_cases hstay : need ≤ size
  · rw [if_pos hstay]
    exact .settled (by simp [hread, hstay]) (.refl ho)
  rw [if_neg hstay]
  cases ys with
  | nil =>
      have hafter : Block.tag a.heap.memory (b + size) = .ok Tag.epilogue := hafter
      rcases a.extend_cases (need - size) with
        ⟨cause, hfresh, hextend⟩ | ⟨⟨fresh, hlength⟩, hfresh, hextend⟩
      · refine .refused hfresh ?_
        simp [hread, hstay, hnext, hafter, Tag.epilogue, hextend]
      · have hproper : BlockInfo.Proper ⟨b, need, true⟩ := ⟨hbounds.1, hbounds.2.1, hbounds.2.2.1⟩
        obtain ⟨h', hstretch, hreaches⟩ := ho.stretch hsplit fresh (by omega) hproper
        refine .grown hfresh ?_ hreaches
        simp [hread, hstay, hnext, hafter, Tag.epilogue, hextend, update, hstretch]
  | cons j rest =>
      have hafter : Block.tag a.heap.memory (b + size) = .ok j.tag := hafter
      have hj := hlaid.mem_bounds (i := j) (by simp)
      have hadjacent : j.offset = b + size := by
        obtain ⟨_, -, rfl, hadjacent, -⟩ := tiles_append.mp hlaid.tiles
        exact hadjacent
      dsimp only
      by_cases habsorb : j.allocated = false ∧ need ≤ size + j.size ∧ size + j.size ≤ maxBlockSize
      · obtain ⟨hfree, hroom, hmax⟩ := habsorb
        have hblocks : o.blocks = xs ++ ⟨b, size, true⟩ :: ⟨b + size, j.size, false⟩ :: rest := by
          rw [hsplit, ← hadjacent, ← hfree]
        obtain ⟨h', habsorb, hreaches⟩ := ho.absorb hblocks hmax
        rw [if_pos ⟨hfree, hroom, hmax⟩]
        refine .settled ?_ hreaches
        simp [hread, hstay, hnext, hafter, BlockInfo.tag, hfree, hroom, hmax, update, habsorb]
      · have hfits := le_of_lt_blockSizeFor hneed hself.2.2.2.1 hself.2.2.2.2.1 (Nat.lt_of_not_le hstay)
        have hnonzero : ¬j.size = 0 := by omega
        have hmove := follows_move ho hb (by omega) hfits
        have htest : ¬(¬j.allocated = true ∧ need ≤ size + j.size ∧ size + j.size ≤ maxBlockSize) := by
          simpa using habsorb
        rw [if_neg habsorb]
        exact hmove.congr (resize_eq_move hread hnext hafter hstay htest hnonzero)

end Allocator

namespace Client

variable {ρ : Type} [Reserve ρ] {c : Client ρ} {o : Outline} {r : Request}

theorem follows_run (ho : o.Depicts c.allocator.heap) (hinv : c.Inv o.blocks o.lists)
    (hadmits : c.Admits r) :
    c.allocator.Follows (r.run c.allocator) (o.course c.allocator.chunk.val r) := by
  obtain ⟨htarget, hmore⟩ := hadmits
  have hfree : ∀ b ∈ c.live, ∃ h', (c.allocator.free (some b)).result =
      .ok ⟨h', c.allocator.reserve, c.allocator.chunk⟩ ∧ c.allocator.heap.Reaches h' (o.release b) := by
    intro b hb
    obtain ⟨size, hmem⟩ := (hinv.live b).mp hb
    obtain ⟨h', hrelease, hreaches⟩ := ho.release hmem
    exact ⟨h', by simp [Allocator.free, Allocator.update, hrelease], hreaches⟩
  cases r with
  | allocate size => exact Allocator.follows_allocate ho size
  | free block =>
      cases block with
      | none => exact .settled rfl (.refl ho)
      | some b =>
          obtain ⟨h', hrun, hreaches⟩ := hfree b (htarget b rfl)
          exact .settled (by simp [Request.run, hrun]) hreaches
  | reallocate block size =>
      cases block with
      | none => exact Allocator.follows_allocate ho size
      | some b =>
          unfold Request.run Allocator.reallocate Outline.course
          by_cases hzero : size = 0
          · obtain ⟨h', hrun, hreaches⟩ := hfree b (htarget b rfl)
            simp only [if_pos hzero]
            exact .settled (by simp [hrun]) hreaches
          simp only [if_neg hzero]
          cases hneed : blockSizeFor size with
          | none => exact .settled rfl (.refl ho)
          | some need =>
              obtain ⟨total, hmem⟩ := (hinv.live b).mp (htarget b rfl)
              exact Allocator.follows_resize ho hmem hneed
  | write b content =>
      obtain ⟨total, hmem⟩ := (hinv.live b).mp (htarget b rfl)
      have husable : c.allocator.usableSize b = .ok (total - 8) := ho.sound.laid.usableSize_eq hmem
      have hroom : content.size ≤ total - 8 := by simpa [husable, Except.toOption] using hmore
      obtain ⟨h', hfill, hreaches⟩ := ho.fill hmem content hroom
      exact .settled (by simp [Request.run, Allocator.update, hfill]) hreaches

end Client

end SegregatedFit
