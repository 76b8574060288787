import SegregatedFit.Proofs.Client.Consistency
import SegregatedFit.Proofs.Client.Record
import SegregatedFit.Proofs.Client.Shift
import Mathlib.Data.Finset.Image

/-!
Two runs side by side. Neither the bytes that clients write, nor those that a region hands out, nor the
place of the region can be told from what the allocator does: runs of the same requests with the same
requests for more bytes granted go through the same outlines. A region that is not empty to begin with
only moves everything, and what it holds stays as it is.
-/

namespace SegregatedFit

-- Two records that do not contradict each other as far as both of them go.
def Agree (xs ys : List Bool) : Prop := xs <+: ys ∨ ys <+: xs

instance (xs ys : List Bool) : Decidable (Agree xs ys) := inferInstanceAs (Decidable (_ ∨ _))

theorem agree_cons {x y : Bool} {xs ys : List Bool} :
    Agree (x :: xs) (y :: ys) ↔ x = y ∧ Agree xs ys := by
  simp only [Agree, List.cons_prefix_cons]
  constructor
  · rintro (⟨rfl, h⟩ | ⟨rfl, h⟩)
    · exact ⟨rfl, .inl h⟩
    · exact ⟨rfl, .inr h⟩
  · rintro ⟨rfl, h⟩
    exact h.imp (⟨rfl, ·⟩) (⟨rfl, ·⟩)

-- The same request, but for the bytes that it writes. A write further into a payload is one that begins
-- with the bytes that are there, which may differ as well.
inductive Request.Similar : Request → Request → Prop
  | same (r : Request) : Similar r r
  | write (b : Block) {content content' : ByteArray} (hsize : content'.size = content.size) :
      Similar (.write b content) (.write b content')

theorem Request.Similar.alike {r r' : Request} (h : r.Similar r') : r.Alike 0 r' := by
  cases h with
  | same r =>
      cases r with
      | allocate size => exact .allocate size
      | free block => cases block <;> exact .free _
      | reallocate block size => cases block <;> exact .reallocate _ size
      | write b content => exact .write b rfl
  | write b hsize => exact .write b hsize

variable {k : Nat}

-- When as much is granted on a course and on the same course elsewhere, they end alike.
theorem Course.Ends.shift {o o₁ o₁' : Outline} {course : Course} {answer answer' : Option Block}
    {g g' gs gs' : List Bool} (h : course.Ends o g answer o₁)
    (h' : (course.shift k).Ends (o.shift k) g' answer' o₁') (hagree : Agree (g ++ gs) (g' ++ gs')) :
    answer' = answer.map (· + k) ∧ o₁' = o₁.shift k ∧ Agree gs gs' := by
  cases h with
  | settled =>
      cases h' with
      | settled => exact ⟨rfl, rfl, hagree⟩
  | refused =>
      cases h' with
      | refused => exact ⟨rfl, rfl, (agree_cons.mp hagree).2⟩
      | grown => cases (agree_cons.mp hagree).1
  | grown =>
      cases h' with
      | refused => cases (agree_cons.mp hagree).1
      | grown => exact ⟨rfl, rfl, (agree_cons.mp hagree).2⟩

theorem unmerged_shift (bs : List BlockInfo) :
    unmerged (bs.map (·.shift k)) = (unmerged bs).map (· + k) := by
  induction bs with
  | nil => rfl
  | cons i rest ih =>
      have hsame : (mergeable (i.shift k).size (rest.map (·.shift k))).isSome =
          (mergeable i.size rest).isSome := by
        rw [mergeable_map, Option.isSome_map]
        rfl
      rw [List.map_cons, unmerged, unmerged, hsame]
      by_cases hmerge : i.allocated = false ∧ (mergeable i.size rest).isSome
      · rw [if_pos hmerge]
        exact if_pos hmerge
      · rw [if_neg hmerge, ← ih]
        exact if_neg hmerge

theorem mem_shift {i : BlockInfo} {bs : List BlockInfo} : i.shift k ∈ bs.map (·.shift k) ↔ i ∈ bs := by
  refine ⟨fun h => ?_, List.mem_map_of_mem⟩
  obtain ⟨⟨b, size, allocated⟩, hj, hshift⟩ := List.mem_map.mp h
  obtain ⟨b', size', allocated'⟩ := i
  obtain ⟨hoffset, rfl, rfl⟩ := BlockInfo.mk.inj hshift
  obtain rfl := Nat.add_right_cancel hoffset
  exact hj

-- Counting blocks takes no notice of where they are, or how large the heap is.
theorem HeapStats.foldl_count_shift (bs : List BlockInfo) (s : HeapStats) :
    (bs.map (·.shift k)).foldl count { s with heapBytes := s.heapBytes + k } =
      { bs.foldl count s with heapBytes := (bs.foldl count s).heapBytes + k } := by
  induction bs generalizing s with
  | nil => rfl
  | cons i rest ih =>
      rw [List.map_cons, List.foldl_cons, List.foldl_cons, ← ih]
      congr 1
      obtain ⟨b, size, allocated⟩ := i
      cases allocated <;> rfl

theorem Outline.shift_initial (n size : Nat) :
    (initial n size).shift k = initial (n + k) size := by
  simp only [initial, shift, Lists.shift_insert, List.map_cons, List.map_nil, BlockInfo.shift,
    Nat.add_right_comm]
  rfl

namespace Client

variable {ρ ρ' : Type} {c c₁ : Client ρ} {c' c₁' : Client ρ'} {o : Outline} {b : Block}

theorem Drawn.mem_shift_iff (h : c.Drawn o) (h' : c'.Drawn (o.shift k)) :
    b + k ∈ c'.live ↔ b ∈ c.live := by
  rw [h.live, h'.live]
  exact exists_congr fun size => mem_shift (i := ⟨b, size, true⟩)

theorem Drawn.live_shift (h : c.Drawn o) (h' : c'.Drawn (o.shift k)) :
    c'.live = c.live.image (· + k) := by
  ext b
  rw [Finset.mem_image]
  constructor
  · intro hb
    obtain ⟨size, hmem⟩ := (h'.live b).mp hb
    obtain ⟨i, -, hshift⟩ := List.mem_map.mp hmem
    have hoffset : i.offset + k = b := congrArg BlockInfo.offset hshift
    exact ⟨i.offset, (h.mem_shift_iff h').mp (hoffset ▸ hb), hoffset⟩
  · rintro ⟨b, hb, rfl⟩
    exact (h.mem_shift_iff h').mpr hb

-- A handle has the same room at both places.
theorem Drawn.usable_shift (h : c.Drawn o) (h' : c'.Drawn (o.shift k)) (hb : b ∈ c.live) :
    ∃ n, c.allocator.usableSize b = .ok n ∧ c'.allocator.usableSize (b + k) = .ok n := by
  obtain ⟨size, hmem⟩ := (h.live b).mp hb
  exact ⟨size - 8, h.depicts.sound.laid.usableSize_eq hmem,
    h'.depicts.sound.laid.usableSize_eq (mem_shift.mpr hmem)⟩

theorem Drawn.admits_iff {r r' : Request} (h : c.Drawn o) (h' : c'.Drawn (o.shift k))
    (halike : r.Alike k r') : c'.Admits r' ↔ c.Admits r := by
  have htarget : ∀ block : Option Block,
      (∀ b ∈ block.map (· + k), b ∈ c'.live) ↔ ∀ b ∈ block, b ∈ c.live := fun block => by
    cases block <;> simp [h.mem_shift_iff h']
  cases halike with
  | allocate size => simp [Admits, Request.target]
  | free block => exact and_congr_left fun _ => htarget block
  | reallocate block size => exact and_congr_left fun _ => htarget block
  | @write b content content' hsize =>
      unfold Admits
      simp only [Request.target]
      rw [← hsize]
      constructor
      · rintro ⟨hlive, hroom⟩
        have hb := (htarget (some b)).mp hlive
        obtain ⟨n, husable, husable'⟩ := h.usable_shift h' (hb b rfl)
        exact ⟨hb, by rwa [husable, ← husable']⟩
      · rintro ⟨hlive, hroom⟩
        obtain ⟨n, husable, husable'⟩ := h.usable_shift h' (hlive b rfl)
        exact ⟨(htarget (some b)).mpr hlive, by rwa [husable', ← husable]⟩

variable [Reserve ρ] [Reserve ρ']

-- What two clients show when everything about one is that of the other, moved by `k` bytes.
structure Shifted (k : Nat) (c : Client ρ) (c' : Client ρ') : Prop where
  live : c'.live = c.live.image (· + k)
  blocks : ∃ bs, c.allocator.heap.blocks = .ok bs ∧
    c'.allocator.heap.blocks = .ok (bs.map (·.shift k))
  chain : ∀ s, c'.allocator.heap.index.chain s = (c.allocator.heap.index.chain s).map (· + k)
  usable : ∀ b ∈ c.live, ∃ n, c.allocator.usableSize b = .ok n ∧
    c'.allocator.usableSize (b + k) = .ok n
  size : c'.allocator.heap.memory.size = c.allocator.heap.memory.size + k
  stats : ∃ s, c.allocator.heap.stats = .ok s ∧
    c'.allocator.heap.stats = .ok { s with heapBytes := s.heapBytes + k }
  check : ∃ found, c.allocator.check.result = .ok (Heap.verdict found) ∧
    c'.allocator.check.result = .ok (Heap.verdict (found.map (· + k)))

theorem Drawn.shifted (h : c.Drawn o) (h' : c'.Drawn (o.shift k))
    (hbase : Reserve.base c.allocator.reserve % alignment = 0)
    (hbase' : Reserve.base c'.allocator.reserve % alignment = 0) : c.Shifted k c' := by
  have hblocks := Heap.blocks_eq h.depicts.sound.laid
  have hblocks' := Heap.blocks_eq h'.depicts.sound.laid
  have hsize : c'.allocator.heap.memory.size = c.allocator.heap.memory.size + k := by
    rw [h'.depicts.size_eq, h.depicts.size_eq, Outline.shift_stop]
  refine ⟨h.live_shift h', ⟨_, hblocks, hblocks'⟩, fun s => ?_, fun b => h.usable_shift h', hsize,
    ⟨o.blocks.foldl .count (.ofSize c.allocator.heap.memory.size), ?_, ?_⟩,
    ⟨unmerged o.blocks, ?_, ?_⟩⟩
  · rw [h'.depicts.sound.holds.chain_eq, h.depicts.sound.holds.chain_eq]
    rfl
  · rw [Heap.stats, hblocks]
    rfl
  · rw [Heap.stats, hblocks', hsize]
    exact congrArg _ (HeapStats.foldl_count_shift o.blocks (.ofSize c.allocator.heap.memory.size))
  · rw [Allocator.result_check, Heap.check_eq h.depicts.sound hbase]
  · rw [Allocator.result_check, Heap.check_eq h'.depicts.sound hbase', ← unmerged_shift]
    rfl

-- One more request each, of which as much is granted, leads both to the same outline.
theorem Drawn.exists_takes_pair {r r' : Request} {rs rs' : List Request} (h : c.Drawn o)
    (h' : c'.Drawn (o.shift k)) (hchunk : c'.allocator.chunk = c.allocator.chunk) (hr : r.Alike k r')
    (hadmits : c.Admits r) (hagree : Agree (c.grants (r :: rs)) (c'.grants (r' :: rs'))) :
    ∃ answer c₁ c₁' o₁, c.Takes o r answer c₁ o₁ ∧ c'.Admits r' ∧
      c'.Takes (o.shift k) r' (answer.map (· + k)) c₁' (o₁.shift k) ∧
      Agree (c₁.grants rs) (c₁'.grants rs') := by
  have hadmits' := (h.admits_iff h' hr).mpr hadmits
  obtain ⟨answer, c₁, o₁, htakes⟩ := h.exists_takes hadmits
  obtain ⟨answer', c₁', o₁', htakes'⟩ := h'.exists_takes hadmits'
  have hends' := htakes'.ends
  rw [htakes.grants hadmits, htakes'.grants hadmits'] at hagree
  rw [hchunk, Outline.shift_course _ hr] at hends'
  obtain ⟨rfl, rfl, hagree⟩ := htakes.ends.shift hends' hagree
  exact ⟨answer, c₁, c₁', o₁, htakes, hadmits', htakes', hagree⟩

-- Two clients after one more request each: what they have been answered, what they show, and what the
-- second one has left alone.
structure Abreast (k : Nat) (before : Memory) (n : Nat) (x : Option Block × Client ρ)
    (y : Option Block × Client ρ') : Prop where
  answer : y.1 = x.1.map (· + k)
  shifted : x.2.Shifted k y.2
  kept : before.Keeps n y.2.allocator.heap.memory

-- The step of one run goes with a step of the other, and the runs go on side by side.
theorem Drawn.abreast [FixedBase ρ] [FixedBase ρ'] {rs rs' : List Request} {before : Memory} {n : Nat}
    (h : c.Drawn o) (h' : c'.Drawn (o.shift k))
    (hchunk : c'.allocator.chunk = c.allocator.chunk)
    (hbase : Reserve.base c.allocator.reserve % alignment = 0)
    (hbase' : Reserve.base c'.allocator.reserve % alignment = 0)
    (hkept : before.Keeps n c'.allocator.heap.memory) (hn : n ≤ c'.allocator.heap.prologue)
    (halike : List.Forall₂ (Request.Alike k) rs rs') (hagree : Agree (c.grants rs) (c'.grants rs')) :
    List.Forall₂ (Abreast k before n) (c.history rs) (c'.history rs') := by
  induction halike generalizing c c' o with
  | nil => exact .nil
  | @cons r r' rs rs' hr hrs ih =>
      by_cases hadmits : c.Admits r
      · obtain ⟨answer, c₁, c₁', o₁, htakes, hadmits', htakes', hagree⟩ :=
          h.exists_takes_pair h' hchunk hr hadmits hagree
        rw [htakes.history hadmits, htakes'.history hadmits']
        have hbase₁ := htakes.base.symm ▸ hbase
        have hbase₁' := htakes'.base.symm ▸ hbase'
        have hkept₁ : before.Keeps n c₁'.allocator.heap.memory := fun i hi =>
          (htakes'.kept i (Nat.lt_of_lt_of_le hi hn)).trans (hkept i hi)
        refine .cons ⟨rfl, htakes.drawn.shifted htakes'.drawn hbase₁ hbase₁', hkept₁⟩ ?_
        refine ih htakes.drawn htakes'.drawn ?_ hbase₁ hbase₁' hkept₁ ?_ hagree
        · rw [htakes'.chunk, hchunk, htakes.chunk]
        · rw [htakes'.prologue]
          exact hn
      · have hadmits' := mt (h.admits_iff h' hr).mp hadmits
        rw [history, history, if_neg hadmits, if_neg hadmits']
        exact .nil

-- Two fresh allocators, one of them behind `k` more bytes than the other.
theorem abreast_of_init [FixedBase ρ] [FixedBase ρ'] {region : Region ρ} {region' : Region ρ'}
    {chunk : ChunkSize} {a : Allocator ρ} {a' : Allocator ρ'} {rs rs' : List Request}
    (haligned : region.memory.size % alignment = 0) (haligned' : region'.memory.size % alignment = 0)
    (hlength : region'.memory.size = region.memory.size + k)
    (hinit : (Allocator.init region chunk).result = .ok (.ok a))
    (hinit' : (Allocator.init region' chunk).result = .ok (.ok a'))
    (hbase : Reserve.base a.reserve % alignment = 0) (hbase' : Reserve.base a'.reserve % alignment = 0)
    (halike : List.Forall₂ (Request.Alike k) rs rs')
    (hagree : Agree (grants ⟨a, ∅⟩ rs) (grants ⟨a', ∅⟩ rs')) :
    Abreast k region'.memory region'.memory.size (none, Client.mk a ∅) (none, Client.mk a' ∅) ∧
      List.Forall₂ (Abreast k region'.memory region'.memory.size) (history ⟨a, ∅⟩ rs)
        (history ⟨a', ∅⟩ rs') := by
  have hdrawn := drawn_init haligned hinit
  have hdrawn' := drawn_init haligned' hinit'
  obtain ⟨-, hchunk, -⟩ := Allocator.initial_of_init haligned hinit
  obtain ⟨-, hchunk', hkept⟩ := Allocator.initial_of_init haligned' hinit'
  have hprologue : region'.memory.size ≤ a'.heap.prologue := by
    have hstart := hdrawn'.depicts.start
    simp only [Outline.initial] at hstart
    omega
  rw [hlength, ← Outline.shift_initial] at hdrawn'
  exact ⟨⟨rfl, hdrawn.shifted hdrawn' hbase hbase', hkept⟩,
    hdrawn.abreast hdrawn' (hchunk'.trans hchunk.symm) hbase hbase' hkept hprologue halike hagree⟩

-- What two clients show when one cannot be told from the other.
structure Same (c : Client ρ) (c' : Client ρ') : Prop where
  live : c'.live = c.live
  blocks : c'.allocator.heap.blocks = c.allocator.heap.blocks
  chain : ∀ s, c'.allocator.heap.index.chain s = c.allocator.heap.index.chain s
  usable : ∀ b ∈ c.live, c'.allocator.usableSize b = c.allocator.usableSize b
  size : c'.allocator.heap.memory.size = c.allocator.heap.memory.size
  stats : c'.allocator.heap.stats = c.allocator.heap.stats
  check : c'.allocator.check.result = c.allocator.check.result

theorem Shifted.same (h : c.Shifted 0 c') : c.Same c' := by
  obtain ⟨bs, hblocks, hblocks'⟩ := h.blocks
  obtain ⟨s, hstats, hstats'⟩ := h.stats
  obtain ⟨found, hcheck, hcheck'⟩ := h.check
  have hmap : bs.map (·.shift 0) = bs := List.map_id' bs
  refine ⟨by simpa using h.live, ?_, fun s => by simpa using h.chain s, fun b hb => ?_, h.size, ?_, ?_⟩
  · rw [hblocks, hblocks', hmap]
  · obtain ⟨n, husable, husable'⟩ := h.usable b hb
    exact husable'.trans husable.symm
  · exact hstats'.trans hstats.symm
  · rw [hcheck, hcheck']
    cases found <;> rfl

-- What clients write, what fresh bytes hold and where the region lies cannot be told from the answers,
-- nor from anything that the allocator shows.
theorem histories_same [FixedBase ρ] [FixedBase ρ'] {region : Region ρ} {region' : Region ρ'}
    {chunk : ChunkSize} {a : Allocator ρ} {a' : Allocator ρ'} {rs rs' : List Request}
    (haligned : region.memory.size % alignment = 0) (hlength : region'.memory.size = region.memory.size)
    (hinit : (Allocator.init region chunk).result = .ok (.ok a))
    (hinit' : (Allocator.init region' chunk).result = .ok (.ok a'))
    (hbase : Reserve.base a.reserve % alignment = 0) (hbase' : Reserve.base a'.reserve % alignment = 0)
    (hsimilar : List.Forall₂ Request.Similar rs rs')
    (hagree : Agree (grants ⟨a, ∅⟩ rs) (grants ⟨a', ∅⟩ rs')) :
    Same (Client.mk a ∅) (Client.mk a' ∅) ∧
      List.Forall₂ (fun x y => y.1 = x.1 ∧ x.2.Same y.2) (history ⟨a, ∅⟩ rs) (history ⟨a', ∅⟩ rs') := by
  have halike : List.Forall₂ (Request.Alike 0) rs rs' := hsimilar.imp fun _ _ h => h.alike
  obtain ⟨hstart, hruns⟩ := abreast_of_init haligned (hlength ▸ haligned) hlength hinit hinit' hbase
    hbase' halike hagree
  refine ⟨hstart.shifted.same, hruns.imp fun x y h => ⟨?_, h.shifted.same⟩⟩
  rw [h.answer]
  cases x.1 <;> rfl

theorem histories_same_arena : ∃ c c' : Client Arena, Reserve.base c.allocator.reserve = 4096 ∧
    Reserve.base c'.allocator.reserve = 8200 ∧ c.Same c' ∧
    List.Forall₂ (fun x y => y.1 = x.1 ∧ x.2.Same y.2)
      (c.history [.allocate 8, .allocate 24, .write 32 ⟨#[1, 2, 3]⟩, .free (some 16),
        .reallocate (some 32) 40, .allocate 400])
      (c'.history [.allocate 8, .allocate 24, .write 32 ⟨#[7, 7, 7]⟩, .free (some 16),
        .reallocate (some 32) 40, .allocate 400]) ∧
    (c.history [.allocate 8, .allocate 24, .write 32 ⟨#[1, 2, 3]⟩, .free (some 16),
      .reallocate (some 32) 40, .allocate 400]).map (·.1) =
      [some 16, some 32, none, none, some 32, none] := by
  let rs : List Request := [.allocate 8, .allocate 24, .write 32 ⟨#[1, 2, 3]⟩, .free (some 16),
    .reallocate (some 32) 40, .allocate 400]
  let rs' : List Request := [.allocate 8, .allocate 24, .write 32 ⟨#[7, 7, 7]⟩, .free (some 16),
    .reallocate (some 32) 40, .allocate 400]
  let region : Region Arena := .ofReserve (Arena.withLimit 4096 256)
  -- an arena elsewhere that is full of what others have left behind
  let region' : Region Arena := .ofReserve ⟨320, 8200, ⟨Array.replicate 320 255⟩⟩
  let chunk : ChunkSize := ⟨16, by decide, by decide, by decide⟩
  have hlaunch : (launch region chunk []).any fun c => (launch region' chunk []).any fun c' =>
      (Reserve.base c.allocator.reserve = 4096 ∧ Reserve.base c'.allocator.reserve = 8200 ∧
        Agree (grants ⟨c.allocator, ∅⟩ rs) (grants ⟨c'.allocator, ∅⟩ rs') ∧
        (history ⟨c.allocator, ∅⟩ rs).map (·.1) = [some 16, some 32, none, none, some 32, none]) := by
    decide +kernel
  obtain ⟨c, hc, hlaunch'⟩ := (Option.any_eq_true _ _).mp hlaunch
  obtain ⟨c', hc', hholds⟩ := (Option.any_eq_true _ _).mp hlaunch'
  obtain ⟨hbase, hbase', hagree, hanswers⟩ := of_decide_eq_true hholds
  have hsimilar : List.Forall₂ Request.Similar rs rs' :=
    .cons (.same _) (.cons (.same _) (.cons (.write 32 rfl) (.cons (.same _) (.cons (.same _)
      (.cons (.same _) .nil)))))
  have hempty : region.memory.size = 0 := rfl
  have hlength : region'.memory.size = region.memory.size := rfl
  obtain ⟨hstart, hruns⟩ := histories_same (by rw [hempty]; rfl) hlength (init_of_launch hc).1
    (init_of_launch hc').1 (by rw [hbase]; decide) (by rw [hbase']; decide) hsimilar hagree
  exact ⟨⟨c.allocator, ∅⟩, ⟨c'.allocator, ∅⟩, hbase, hbase', hstart, hruns, hanswers⟩

-- An allocator over a region that is not empty to begin with is one over an empty region, moved behind
-- the bytes that are there, and leaves them alone.
theorem histories_shifted [FixedBase ρ] [FixedBase ρ'] {region : Region ρ} {region' : Region ρ'}
    {chunk : ChunkSize} {a : Allocator ρ} {a' : Allocator ρ'} {rs rs' : List Request}
    (hempty : region.memory.size = 0) (hlength : region'.memory.size = k) (haligned : k % alignment = 0)
    (hinit : (Allocator.init region chunk).result = .ok (.ok a))
    (hinit' : (Allocator.init region' chunk).result = .ok (.ok a'))
    (hbase : Reserve.base a.reserve % alignment = 0) (hbase' : Reserve.base a'.reserve % alignment = 0)
    (halike : List.Forall₂ (Request.Alike k) rs rs')
    (hagree : Agree (grants ⟨a, ∅⟩ rs) (grants ⟨a', ∅⟩ rs')) :
    Shifted k (Client.mk a ∅) (Client.mk a' ∅) ∧ region'.memory.Keeps k a'.heap.memory ∧
      List.Forall₂ (fun x y => y.1 = x.1.map (· + k) ∧ x.2.Shifted k y.2 ∧
          region'.memory.Keeps k y.2.allocator.heap.memory)
        (history ⟨a, ∅⟩ rs) (history ⟨a', ∅⟩ rs') := by
  have hlength' : region'.memory.size = region.memory.size + k := by omega
  obtain ⟨hstart, hruns⟩ := abreast_of_init (by rw [hempty]; rfl) (hlength ▸ haligned) hlength' hinit
    hinit' hbase hbase' halike hagree
  rw [hlength] at hstart hruns
  exact ⟨hstart.shifted, hstart.kept, hruns.imp fun x y h => ⟨h.answer, h.shifted, h.kept⟩⟩

theorem histories_shifted_arena : ∃ c c' : Client Arena, Reserve.base c'.allocator.reserve = 8200 ∧
    c.Shifted 24 c' ∧
    List.Forall₂ (fun x y => y.1 = x.1.map (· + 24) ∧ x.2.Shifted 24 y.2 ∧
        (Memory.mk ⟨Array.replicate 24 255⟩).Keeps 24 y.2.allocator.heap.memory)
      (c.history [.allocate 8, .allocate 24, .free (some 16), .allocate 400])
      (c'.history [.allocate 8, .allocate 24, .free (some 40), .allocate 400]) ∧
    (c.history [.allocate 8, .allocate 24, .free (some 16), .allocate 400]).map (·.1) =
      [some 16, some 32, none, none] := by
  let rs : List Request := [.allocate 8, .allocate 24, .free (some 16), .allocate 400]
  let rs' : List Request := [.allocate 8, .allocate 24, .free (some 40), .allocate 400]
  let region : Region Arena := .ofReserve (Arena.withLimit 4096 256)
  let region' : Region Arena := ⟨⟨⟨Array.replicate 24 255⟩⟩, ⟨320, 8200, ⟨Array.replicate 320 255⟩⟩⟩
  let chunk : ChunkSize := ⟨16, by decide, by decide, by decide⟩
  have hlaunch : (launch region chunk []).any fun c => (launch region' chunk []).any fun c' =>
      (Reserve.base c.allocator.reserve = 4096 ∧ Reserve.base c'.allocator.reserve = 8200 ∧
        Agree (grants ⟨c.allocator, ∅⟩ rs) (grants ⟨c'.allocator, ∅⟩ rs') ∧
        (history ⟨c.allocator, ∅⟩ rs).map (·.1) = [some 16, some 32, none, none]) := by
    decide +kernel
  obtain ⟨c, hc, hlaunch'⟩ := (Option.any_eq_true _ _).mp hlaunch
  obtain ⟨c', hc', hholds⟩ := (Option.any_eq_true _ _).mp hlaunch'
  obtain ⟨hbase, hbase', hagree, hanswers⟩ := of_decide_eq_true hholds
  have halike : List.Forall₂ (Request.Alike 24) rs rs' :=
    .cons (.allocate 8) (.cons (.allocate 24) (.cons (.free (some 16)) (.cons (.allocate 400) .nil)))
  have hempty : region.memory.size = 0 := rfl
  have hlength : region'.memory.size = 24 := rfl
  obtain ⟨hstart, -, hruns⟩ := histories_shifted hempty hlength (by decide) (init_of_launch hc).1
    (init_of_launch hc').1 (by rw [hbase]; decide) (by rw [hbase']; decide) halike hagree
  exact ⟨⟨c.allocator, ∅⟩, ⟨c'.allocator, ∅⟩, hbase', hstart, hruns, hanswers⟩

end Client

end SegregatedFit
