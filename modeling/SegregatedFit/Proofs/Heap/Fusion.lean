import SegregatedFit.Proofs.Heap.Merging
import Mathlib.Data.Finset.Basic
import Mathlib.Data.List.SplitBy

/-!
Fusion: every maximal run of free blocks made one. Merging two neighbours makes no difference to what the
blocks fuse to, and neither does it matter whether blocks are fused before others become free, or after.
-/

namespace SegregatedFit

-- The groups are the maximal runs of free blocks, and the blocks in use one by one.
def runs (bs : List BlockInfo) : List (List BlockInfo) :=
  bs.splitBy fun i j => !i.allocated && !j.allocated

-- One block in the place of a run: at its first offset, and as large as all its blocks together.
def joint (run : List BlockInfo) : Option BlockInfo :=
  run.head?.map fun i => ⟨i.offset, (run.map (·.size)).sum, i.allocated⟩

def fuse (bs : List BlockInfo) : List BlockInfo := (runs bs).filterMap joint

-- The block once the handles `s` have been given back.
def BlockInfo.freed (s : Finset Nat) (i : BlockInfo) : BlockInfo :=
  if i.offset ∈ s then { i with allocated := false } else i

-- Puts a block in front of blocks that are fused already.
def fuseCons (i : BlockInfo) : List BlockInfo → List BlockInfo
  | [] => [i]
  | j :: rest =>
    if i.allocated = false ∧ j.allocated = false then ⟨i.offset, i.size + j.size, false⟩ :: rest
    else i :: j :: rest

variable {i j : BlockInfo} {bs xs ys : List BlockInfo} {s t : Finset Nat}

theorem exists_runs_cons (j : BlockInfo) (rest : List BlockInfo) :
    ∃ run later, runs (j :: rest) = (j :: run) :: later := by
  cases hruns : runs (j :: rest) with
  | nil => exact absurd (List.splitBy_eq_nil.mp hruns) (List.cons_ne_nil _ _)
  | cons run later =>
      obtain ⟨hflat, hne, -, -⟩ := List.splitBy_eq_iff.mp hruns
      cases run with
      | nil => exact absurd List.mem_cons_self hne
      | cons k run =>
          obtain ⟨rfl, -⟩ := List.cons.inj hflat
          exact ⟨run, later, rfl⟩

-- A free block in front of another one is the first of its run.
theorem runs_cons_of_free {run : List BlockInfo} {rest : List BlockInfo} {later : List (List BlockInfo)}
    (hi : i.allocated = false) (hj : j.allocated = false) (hruns : runs (j :: rest) = (j :: run) :: later) :
    runs (i :: j :: rest) = (i :: j :: run) :: later := by
  obtain ⟨hflat, hne, hchain, hlinks⟩ := List.splitBy_eq_iff.mp hruns
  refine List.splitBy_eq_iff.mpr ⟨congrArg (i :: ·) hflat, by simpa using hne, ?_, ?_⟩
  · intro m hm
    rcases List.mem_cons.mp hm with rfl | hm
    · exact .cons_cons (by simp [hi, hj]) (hchain _ List.mem_cons_self)
    · exact hchain _ (List.mem_cons_of_mem _ hm)
  · obtain ⟨hhead, htail⟩ := List.isChain_cons.mp hlinks
    refine List.isChain_cons.mpr ⟨fun m hm => ?_, htail⟩
    obtain ⟨hrun, hm, hlast⟩ := hhead m hm
    exact ⟨List.cons_ne_nil _ _, hm, by rwa [List.getLast_cons hrun]⟩

theorem runs_cons_of_used (hused : ∀ j ∈ bs.head?, ¬(i.allocated = false ∧ j.allocated = false)) :
    runs (i :: bs) = [i] :: runs bs := by
  refine List.splitBy_append (l := [i]) fun x hx j hj => ?_
  obtain rfl := Option.some.inj hx
  simpa using hused j hj

theorem exists_fuse_cons (j : BlockInfo) (rest : List BlockInfo) :
    ∃ size later, fuse (j :: rest) = ⟨j.offset, size, j.allocated⟩ :: later := by
  obtain ⟨run, later, hruns⟩ := exists_runs_cons j rest
  exact ⟨_, _, by rw [fuse, hruns]; rfl⟩

theorem fuse_cons (i : BlockInfo) (bs : List BlockInfo) : fuse (i :: bs) = fuseCons i (fuse bs) := by
  cases bs with
  | nil => rfl
  | cons j rest =>
      by_cases hfree : i.allocated = false ∧ j.allocated = false
      · obtain ⟨run, later, hruns⟩ := exists_runs_cons j rest
        have hruns' := runs_cons_of_free hfree.1 hfree.2 hruns
        simp [fuse, hruns, hruns', joint, fuseCons, hfree]
      · obtain ⟨size, later, hfuse⟩ := exists_fuse_cons j rest
        rw [hfuse, fuseCons, if_neg hfree, ← hfuse, fuse, runs_cons_of_used (by simpa using hfree)]
        rfl

-- Two free neighbours fuse to the same as the block that they make together.
theorem fuse_join (hi : i.allocated = false) (hj : j.allocated = false) (xs ys : List BlockInfo) :
    fuse (xs ++ i :: j :: ys) = fuse (xs ++ ⟨i.offset, i.size + j.size, false⟩ :: ys) := by
  induction xs with
  | nil =>
      simp only [List.nil_append, fuse_cons]
      cases fuse ys with
      | nil => simp [fuseCons, hi, hj]
      | cons k rest =>
          by_cases hk : k.allocated = false
          · simp [fuseCons, hi, hj, hk, Nat.add_assoc]
          · simp [fuseCons, hi, hj, hk]
  | cons x xs ih => rw [List.cons_append, List.cons_append, fuse_cons, fuse_cons, ih]

-- Where no two neighbours are free there is nothing to fuse.
theorem fuse_eq_self (hused : bs.IsChain fun i j => i.allocated = true ∨ j.allocated = true) :
    fuse bs = bs := by
  induction bs with
  | nil => rfl
  | cons i bs ih =>
      obtain ⟨hhead, htail⟩ := List.isChain_cons.mp hused
      rw [fuse_cons, ih htail]
      cases bs with
      | nil => rfl
      | cons j rest =>
          refine if_neg ?_
          rintro ⟨hi, hj⟩
          simpa [hi, hj] using hhead j rfl

theorem sum_fuse (bs : List BlockInfo) : ((fuse bs).map (·.size)).sum = (bs.map (·.size)).sum := by
  induction bs with
  | nil => rfl
  | cons i bs ih =>
      rw [fuse_cons, List.map_cons, List.sum_cons, ← ih]
      cases fuse bs with
      | nil => rfl
      | cons j rest =>
          rw [fuseCons]
          split
          · simp [Nat.add_assoc]
          · rfl

theorem Tiles.fuse_eq_singleton {start stop : Nat} (htiles : Tiles start bs stop) (hne : bs ≠ [])
    (hfree : ∀ i ∈ bs, i.allocated = false) : fuse bs = [⟨start, stop - start, false⟩] := by
  induction bs generalizing start with
  | nil => exact absurd rfl hne
  | cons i bs ih =>
      obtain ⟨hoffset, hrest⟩ := htiles
      have hi := hfree i List.mem_cons_self
      have hsum := hrest.le
      rw [fuse_cons]
      cases bs with
      | nil =>
          obtain ⟨offset, size, allocated⟩ := i
          obtain rfl : start + size = stop := hrest
          obtain rfl : offset = start := hoffset
          obtain rfl : allocated = false := hi
          simp [fuse, runs, fuseCons]
      | cons j rest =>
          rw [ih hrest (List.cons_ne_nil _ _) fun k hk => hfree k (List.mem_cons_of_mem _ hk), fuseCons,
            if_pos ⟨hi, rfl⟩, hoffset]
          dsimp only
          congr 2
          omega

namespace BlockInfo

theorem freed_of_free (h : i.allocated = false) (s : Finset Nat) : i.freed s = i := by
  obtain ⟨offset, size, allocated⟩ := i
  obtain rfl : allocated = false := h
  simp [freed]

theorem freed_of_notMem (h : i.offset ∉ s) : i.freed s = i := if_neg h

theorem freed_insert (i : BlockInfo) (b : Nat) (s : Finset Nat) :
    i.freed (insert b s) = (i.freed {b}).freed s := by
  unfold freed
  by_cases hb : i.offset = b <;> by_cases hs : i.offset ∈ s <;> simp [hb, hs]

end BlockInfo

theorem Tiles.map_freed {start stop : Nat} (htiles : Tiles start bs stop) (s : Finset Nat) :
    Tiles start (bs.map (·.freed s)) stop := by
  induction bs generalizing start with
  | nil => exact htiles
  | cons i bs ih =>
      obtain ⟨hoffset, hrest⟩ := htiles
      have hsame : (i.freed s).offset = i.offset ∧ (i.freed s).size = i.size := by
        unfold BlockInfo.freed
        split <;> exact ⟨rfl, rfl⟩
      refine ⟨hsame.1.trans hoffset, ?_⟩
      rw [hsame.2]
      exact ih hrest

-- Fusing before some of the blocks become free makes no difference.
theorem fuse_map_freed (s : Finset Nat) (bs : List BlockInfo) :
    fuse ((fuse bs).map (·.freed s)) = fuse (bs.map (·.freed s)) := by
  induction bs with
  | nil => rfl
  | cons i bs ih =>
      have hfront : fuse ((fuseCons i (fuse bs)).map (·.freed s)) =
          fuse ((i :: fuse bs).map (·.freed s)) := by
        cases fuse bs with
        | nil => rfl
        | cons j rest =>
            rw [fuseCons]
            split
            · rename_i hfree
              obtain ⟨hi, hj⟩ := hfree
              simp only [List.map_cons, BlockInfo.freed_of_free hi, BlockInfo.freed_of_free hj,
                BlockInfo.freed_of_free (i := ⟨i.offset, i.size + j.size, false⟩) rfl]
              exact (fuse_join hi hj [] _).symm
            · rfl
      rw [fuse_cons, hfront, List.map_cons, List.map_cons, fuse_cons, fuse_cons, ih]

namespace Site

-- Giving a block back touches no other one.
theorem map_freed_blocks {m : Memory} {p : Nat} {z : Site} (hlaid : Laid m p (z.blocks true)) :
    (z.blocks true).map (·.freed {z.offset}) = z.blocks false := by
  have hside : ∀ side, side ⊆ z.left ++ z.right → side.map (·.freed {z.offset}) = side := by
    intro side hsub
    have hsame : ∀ i ∈ side, i.freed {z.offset} = i := fun i hi =>
      BlockInfo.freed_of_notMem (by simpa using offset_ne hlaid (hsub hi))
    rw [List.map_congr_left hsame, List.map_id']
  have hself : BlockInfo.freed {z.offset} ⟨z.offset, z.size, true⟩ = ⟨z.offset, z.size, false⟩ :=
    if_pos (Finset.mem_singleton_self _)
  rw [blocks, List.map_append, List.map_cons, hself, hside z.left.reverse (by simp), hside z.right (by simp),
    blocks]

theorem fuse_mergeNext (z : Site) : fuse (z.mergeNext.blocks false) = fuse (z.blocks false) := by
  unfold mergeNext
  split
  · rfl
  · rename_i hnext
    obtain ⟨hright, hfree, -⟩ := mergeable_eq_some hnext
    rw [blocks, blocks, hright]
    exact (fuse_join (i := ⟨z.offset, z.size, false⟩) rfl hfree _ _).symm

theorem fuse_mergePrev (z : Site) : fuse (z.mergePrev.blocks false) = fuse (z.blocks false) := by
  unfold mergePrev
  split
  · rfl
  · rename_i n rest hprev
    obtain ⟨hleft, hfree, -⟩ := mergeable_eq_some hprev
    rw [blocks, blocks, hleft, List.reverse_cons, List.append_assoc, Nat.add_comm]
    exact (fuse_join (j := ⟨z.offset, z.size, false⟩) hfree rfl _ _).symm

theorem fuse_merge (z : Site) : fuse (z.merge.blocks false) = fuse (z.blocks false) := by
  rw [merge, fuse_mergePrev, fuse_mergeNext]

end Site

end SegregatedFit
