import SegregatedFit.Proofs.Heap.Growth
import SegregatedFit.Proofs.Heap.Payload
import SegregatedFit.Proofs.Heap.Prefix
import SegregatedFit.Proofs.Heap.Search
import SegregatedFit.Proofs.Heap.Walk

/-!
Heaps in outline. Where the first block starts, which blocks follow, and the order of the free lists
decide what every step makes of a heap. What the payloads hold and where the region lies have no part in
it. The bytes before the prologue are never touched.
-/

namespace SegregatedFit

structure Outline where
  start : Nat
  blocks : List BlockInfo
  lists : Lists

namespace Outline

-- Where the last block ends.
def stop (o : Outline) : Nat := o.start + (o.blocks.map (·.size)).sum

def before (o : Outline) (b : Block) : List BlockInfo := o.blocks.filter (·.offset < b)

def behind (o : Outline) (b : Block) : List BlockInfo := o.blocks.filter (b < ·.offset)

def sizeAt (o : Outline) (b : Block) : Nat := (o.blocks.find? (·.offset = b)).elim 0 (·.size)

-- The free block that a search comes up with.
def fit (o : Outline) (need : Nat) : Option Block :=
  (SizeClass.fitting need).findSome? fun c => ((o.lists c).filter (need ≤ o.sizeAt ·)).argmin o.sizeAt

def place (o : Outline) (b : Block) (need : Nat) : Outline :=
  ⟨o.start, o.before b ++ placed b (o.sizeAt b) need ++ o.behind b, o.lists.place b (o.sizeAt b) need⟩

-- The outline once the block of the site is free and filed.
def settle (o : Outline) (z : Site) : Outline := ⟨o.start, z.merge.blocks false, z.merge.filedLists⟩

def release (o : Outline) (b : Block) : Outline :=
  o.settle ⟨(o.before b).reverse, b, o.sizeAt b, o.behind b, o.lists⟩

-- The site of `delta` fresh bytes.
def tail (o : Outline) (delta : Nat) : Site := .tail o.blocks o.stop delta o.lists

-- The allocated block `b` takes in the free one behind it.
def absorb (o : Outline) (b : Block) (gain : Nat) (rest : List BlockInfo) : Outline :=
  ⟨o.start, o.before b ++ ⟨b, o.sizeAt b + gain, true⟩ :: rest, o.lists.remove (b + o.sizeAt b) gain⟩

-- The last block, an allocated one, becomes `need` bytes long.
def stretch (o : Outline) (b : Block) (need : Nat) : Outline :=
  ⟨o.start, o.before b ++ [⟨b, need, true⟩], o.lists⟩

structure Depicts (o : Outline) (h : Heap) : Prop where
  sound : h.Sound o.blocks o.lists
  start : o.start = h.prologue + 8

variable {o : Outline} {h : Heap} {i : BlockInfo} {xs ys : List BlockInfo} {b size : Nat}

theorem Depicts.of_sound {bs : List BlockInfo} {ls : Lists} (hsound : h.Sound bs ls) :
    Depicts ⟨h.prologue + 8, bs, ls⟩ h := ⟨hsound, rfl⟩

namespace Depicts

theorem size_eq (ho : o.Depicts h) : h.memory.size = o.stop := by
  rw [stop, ho.start]
  exact ho.sound.laid.tiles.sum_eq.symm

-- A block among the others.
theorem split (ho : o.Depicts h) (hsplit : o.blocks = xs ++ i :: ys) :
    o.before i.offset = xs ∧ o.sizeAt i.offset = i.size ∧ o.behind i.offset = ys := by
  have hordered := ho.sound.laid.tiles.pairwise ho.sound.laid.proper
  rw [hsplit] at hordered
  obtain ⟨-, hbehind, hbefore⟩ := List.pairwise_append.mp hordered
  have hleft : ∀ x ∈ xs, x.offset < i.offset := fun x hx => hbefore x hx i List.mem_cons_self
  have hright : ∀ y ∈ ys, i.offset < y.offset := (List.pairwise_cons.mp hbehind).1
  refine ⟨?_, ?_, ?_⟩
  · have hnone : ys.filter (·.offset < i.offset) = [] := by
      simpa using fun y hy => Nat.le_of_lt (hright y hy)
    rw [before, hsplit, List.filter_append, List.filter_cons_of_neg (by simp), hnone,
      List.filter_eq_self.mpr (by simpa using hleft), List.append_nil]
  · have hnone : xs.find? (·.offset = i.offset) = none := by
      simpa using fun x hx => Nat.ne_of_lt (hleft x hx)
    rw [sizeAt, hsplit, List.find?_append, hnone, List.find?_cons_of_pos (by simp)]
    rfl
  · have hnone : xs.filter (i.offset < ·.offset) = [] := by
      simpa using fun x hx => Nat.le_of_lt (hleft x hx)
    rw [behind, hsplit, List.filter_append, hnone, List.filter_cons_of_neg (by simp),
      List.filter_eq_self.mpr (by simpa using hright), List.nil_append]

theorem sizeAt_eq (ho : o.Depicts h) (hi : i ∈ o.blocks) : o.sizeAt i.offset = i.size := by
  obtain ⟨xs, ys, hsplit⟩ := List.append_of_mem hi
  exact (ho.split hsplit).2.1

theorem findFit_eq (ho : o.Depicts h) (need : Nat) : h.findFit need = .ok (o.fit need) := by
  refine Heap.findFit_eq ho.sound.holds fun c b hb => ?_
  obtain ⟨size, hmem, -⟩ := (ho.sound.filed c b).mp hb
  rw [ho.sizeAt_eq hmem]
  exact ho.sound.laid.size_eq hmem

theorem le_offset (ho : o.Depicts h) (hi : i ∈ o.blocks) : h.prologue + 8 ≤ i.offset :=
  (ho.sound.laid.mem_bounds hi).1

end Depicts

end Outline

theorem Heap.Becomes.le_offset {own : List Nat} {h h' : Heap} {bs bs' : List BlockInfo} {ls' : Lists}
    {i : BlockInfo} (hbecomes : Heap.Becomes own h bs h' bs' ls') (hi : i ∈ bs') :
    h.prologue + 8 ≤ i.offset := by
  rw [← hbecomes.prologue]
  exact (hbecomes.sound.laid.mem_bounds hi).1

-- From `h` a step leads to a heap with the outline `o`.
structure Heap.Reaches (h h' : Heap) (o : Outline) : Prop where
  depicts : o.Depicts h'
  prologue : h'.prologue = h.prologue
  kept : h.memory.Keeps h.prologue h'.memory

namespace Heap.Reaches

variable {h h' h'' : Heap} {o o' : Outline}

theorem refl (ho : o.Depicts h) : h.Reaches h o := ⟨ho, rfl, .refl _ _⟩

theorem trans (h₁ : h.Reaches h' o) (h₂ : h'.Reaches h'' o') : h.Reaches h'' o' :=
  ⟨h₂.depicts, h₂.prologue.trans h₁.prologue, h₁.kept.trans (h₁.prologue ▸ h₂.kept)⟩

-- The heap is longer by what there is more of blocks.
theorem size_eq (hreaches : h.Reaches h' o') (ho : o.Depicts h) (delta : Nat)
    (hsum : (o'.blocks.map (·.size)).sum = (o.blocks.map (·.size)).sum + delta) :
    h'.memory.size = h.memory.size + delta := by
  have hstart : o'.start = o.start := by
    rw [hreaches.depicts.start, ho.start, hreaches.prologue]
  rw [hreaches.depicts.size_eq, ho.size_eq, Outline.stop, Outline.stop, hstart, hsum, Nat.add_assoc]

theorem of_becomes {own : List Nat} {bs bs' : List BlockInfo} {ls' : Lists}
    (hbecomes : Heap.Becomes own h bs h' bs' ls') (ho : o.Depicts h)
    (hkept : h.memory.Keeps h.prologue h'.memory) : h.Reaches h' ⟨o.start, bs', ls'⟩ :=
  ⟨⟨hbecomes.sound, ho.start.trans (congrArg (· + 8) hbecomes.prologue.symm)⟩, hbecomes.prologue, hkept⟩

end Heap.Reaches

namespace Outline.Depicts

variable {o : Outline} {h : Heap} {xs ys : List BlockInfo} {b size need : Nat}

theorem place (ho : o.Depicts h) (hmem : ⟨b, size, false⟩ ∈ o.blocks)
    (hproper : BlockInfo.Proper ⟨b, need, true⟩) (hneed : need ≤ size) :
    ∃ h', h.place b need = .ok h' ∧ h.Reaches h' (o.place b need) := by
  obtain ⟨xs, ys, hsplit⟩ := List.append_of_mem hmem
  obtain ⟨hbefore, hsize, hbehind⟩ := ho.split hsplit
  obtain ⟨h', hplace, hbecomes⟩ := Heap.place_spec (hsplit ▸ ho.sound) hproper hneed
  refine ⟨h', hplace, ?_⟩
  have hreaches := Heap.Reaches.of_becomes hbecomes ho (Heap.keeps_place hplace (ho.le_offset hmem))
  simpa only [Outline.place, hbefore, hsize, hbehind] using hreaches

theorem release (ho : o.Depicts h) (hmem : ⟨b, size, true⟩ ∈ o.blocks) :
    ∃ h', h.release b = .ok h' ∧ h.Reaches h' (o.release b) := by
  obtain ⟨m, ix, p⟩ := h
  obtain ⟨xs, ys, hsplit⟩ := List.append_of_mem hmem
  obtain ⟨hbefore, hsize, hbehind⟩ := ho.split hsplit
  let z : Site := ⟨xs.reverse, b, size, ys, o.lists⟩
  have hsite : z.blocks true = o.blocks := by simp [z, Site.blocks, hsplit]
  have hsound : Heap.Sound ⟨m, ix, p⟩ (z.blocks true) z.lists := hsite ▸ ho.sound
  have hread := ho.sound.laid.size_eq hmem
  obtain ⟨m', hwrite, -, hlaid, -, hfiled⟩ := Heap.write_free_spec hsound
  obtain ⟨h', hcoalesce, hbecomes⟩ := Heap.coalesce_spec hlaid hsound.holds hfiled
  have hstart : p + 8 ≤ z.merge.offset := hbecomes.le_offset (Site.mem_blocks.mpr (.inr (.inl rfl)))
  have hkept : m.Keeps p h'.memory :=
    .trans (.write hwrite (ho.le_offset hmem)) (Heap.keeps_coalesce hcoalesce hstart)
  refine ⟨h', ?_, ?_⟩
  · dsimp only at hread
    simp [Heap.release, hread, show Block.write m b (.free size) = .ok m' from hwrite,
      show Heap.coalesce ⟨m', ix, p⟩ b = _ from hcoalesce]
  · have hreaches : Heap.Reaches ⟨m, ix, p⟩ h' (o.settle z) :=
      ⟨⟨hbecomes.sound, ho.start.trans (congrArg (· + 8) hbecomes.prologue.symm)⟩, hbecomes.prologue, hkept⟩
    rwa [Outline.release, hbefore, hsize, hbehind]

theorem annex (ho : o.Depicts h) (fresh : ByteArray)
    (hproper : BlockInfo.Proper ⟨h.memory.size, fresh.size, false⟩) :
    ∃ h₁ h', Heap.annex ⟨h.memory.append fresh, h.index, h.prologue⟩ h.memory.size fresh.size = .ok h₁ ∧
      Heap.coalesce h₁ h.memory.size = .ok ((o.tail fresh.size).merge.offset, h') ∧
      h.Reaches h' (o.settle (o.tail fresh.size)) := by
  obtain ⟨h₁, h', hannex, hcoalesce, hbecomes⟩ := Heap.annex_spec ho.sound fresh hproper
  rw [ho.size_eq] at hcoalesce hbecomes
  refine ⟨h₁, h', hannex, ho.size_eq ▸ hcoalesce, .of_becomes hbecomes ho ?_⟩
  have hstart : h.prologue + 8 ≤ (o.tail fresh.size).merge.offset :=
    hbecomes.le_offset (Site.mem_blocks.mpr (.inr (.inl rfl)))
  have hend := ho.sound.laid.tiles.le
  have hfresh : h.memory.Keeps h.prologue (h.memory.append fresh) := .append fresh (by omega)
  have hannexed := Heap.keeps_annex (n := h.prologue) hannex (by omega)
  exact hfresh.trans (hannexed.trans (Heap.keeps_coalesce hcoalesce hstart))

theorem absorb {gain : Nat} {rest : List BlockInfo} (ho : o.Depicts h)
    (hsplit : o.blocks = xs ++ ⟨b, size, true⟩ :: ⟨b + size, gain, false⟩ :: rest)
    (hmax : size + gain ≤ maxBlockSize) :
    ∃ h', h.absorb b (b + size) gain (size + gain) = .ok h' ∧ h.Reaches h' (o.absorb b gain rest) := by
  obtain ⟨hbefore, hsize, -⟩ := ho.split hsplit
  obtain ⟨h', habsorb, hbecomes, -⟩ := Heap.absorb_spec (hsplit ▸ ho.sound) hmax
  refine ⟨h', habsorb, ?_⟩
  have hmem : ⟨b, size, true⟩ ∈ o.blocks := by simp [hsplit]
  have hreaches := Heap.Reaches.of_becomes hbecomes ho (Heap.keeps_absorb habsorb (ho.le_offset hmem))
  simpa only [Outline.absorb, hbefore, hsize] using hreaches

theorem stretch (ho : o.Depicts h) (hsplit : o.blocks = xs ++ [⟨b, size, true⟩]) (fresh : ByteArray)
    (hsize : need = size + fresh.size) (hproper : BlockInfo.Proper ⟨b, need, true⟩) :
    ∃ h', Heap.stretch ⟨h.memory.append fresh, h.index, h.prologue⟩ b need = .ok h' ∧
      h.Reaches h' (o.stretch b need) := by
  obtain ⟨hbefore, -, -⟩ := ho.split hsplit
  obtain ⟨h', hstretch, hbecomes, -⟩ := Heap.stretch_spec (hsplit ▸ ho.sound) fresh hsize hproper
  refine ⟨h', hstretch, ?_⟩
  have hmem : ⟨b, size, true⟩ ∈ o.blocks := by simp [hsplit]
  have hend := ho.sound.laid.tiles.le
  have hfresh : h.memory.Keeps h.prologue (h.memory.append fresh) := .append fresh (by omega)
  have hreaches := Heap.Reaches.of_becomes hbecomes ho
    (hfresh.trans (Heap.keeps_stretch hstretch (ho.le_offset hmem)))
  simpa only [Outline.stretch, hbefore] using hreaches

-- What is written into a payload does not show.
theorem fill (ho : o.Depicts h) (hmem : ⟨b, size, true⟩ ∈ o.blocks) (source : ByteArray)
    (hfit : source.size ≤ size - 8) : ∃ h', h.fill b source = .ok h' ∧ h.Reaches h' o := by
  obtain ⟨m', hfill, hbecomes, -⟩ := Heap.fill_spec ho.sound hmem source hfit
  have hle : h.prologue ≤ b := Nat.le_trans (Nat.le_add_right ..) (ho.le_offset hmem)
  exact ⟨_, hfill, .of_becomes hbecomes ho (Heap.keeps_fill hfill hle)⟩

theorem copy {source count : Nat} (ho : o.Depicts h) (hmem : ⟨b, size, true⟩ ∈ o.blocks)
    (hsource : source + count ≤ h.memory.size) (hfit : count ≤ size - 8) :
    ∃ h', h.copy source b count = .ok h' ∧ h.Reaches h' o := by
  obtain ⟨m', hcopy, hbecomes, -⟩ := Heap.copy_spec ho.sound hmem hsource hfit
  have hle : h.prologue ≤ b := Nat.le_trans (Nat.le_add_right ..) (ho.le_offset hmem)
  exact ⟨_, hcopy, .of_becomes hbecomes ho (Heap.keeps_copy hcopy hle)⟩

end Outline.Depicts

end SegregatedFit
