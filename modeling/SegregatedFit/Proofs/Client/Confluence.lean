import SegregatedFit.Proofs.Client.Consistency
import SegregatedFit.Proofs.Heap.Fusion

/-!
Giving back several blocks. As long as one tag could span the heap, the blocks that are left are those that
there were, with all runs of free ones fused. In which order they were given back cannot be told from them.
-/

namespace SegregatedFit

namespace Client

variable {ρ : Type} [Reserve ρ] {c c' : Client ρ} {bs : List BlockInfo} {ls : Lists} {b : Block}
  {s : Finset Nat}

-- What is left of the blocks `bs` of the client `c` once it has given back the handles `s`.
structure Cleared (c : Client ρ) (bs : List BlockInfo) (s : Finset Nat) (c' : Client ρ) : Prop where
  live : c'.live = c.live \ s
  blocks : c'.allocator.heap.blocks = .ok (fuse (bs.map (·.freed s)))
  chain : ∀ k b, b ∈ c'.allocator.heap.index.chain k ↔
    ∃ size, ⟨b, size, false⟩ ∈ fuse (bs.map (·.freed s)) ∧ SizeClass.ofSize size = k
  nodup : ∀ k, (c'.allocator.heap.index.chain k).Nodup
  prologue : c'.allocator.heap.prologue = c.allocator.heap.prologue
  size : c'.allocator.heap.memory.size = c.allocator.heap.memory.size

-- In a heap that one tag could span, merging leaves no two free neighbours.
theorem blocks_merge_eq_fuse {m m' : Memory} {p : Nat} {z : Site} (hlaid : Laid m p (z.blocks true))
    (hlaid' : Laid m' p (z.merge.blocks false)) (hapart : SegregatedFit.Apart (z.blocks true))
    (hsize : m.size ≤ maxBlockSize) :
    z.merge.blocks false = fuse ((z.blocks true).map (·.freed {z.offset})) ∧ m'.size = m.size := by
  have hfuse : fuse (z.merge.blocks false) = fuse ((z.blocks true).map (·.freed {z.offset})) := by
    rw [Site.fuse_merge, Site.map_freed_blocks hlaid]
  have hsame : m'.size = m.size := by
    rw [← hlaid'.tiles.sum_eq, ← hlaid.tiles.sum_eq, ← sum_fuse, hfuse, sum_fuse,
      Site.map_freed_blocks hlaid]
    simp [Site.blocks]
  refine ⟨?_, hsame⟩
  rw [← hfuse, fuse_eq_self]
  exact hlaid'.used_of_apart (Site.apart_merge_of_blocks hapart) (hsame ▸ hsize)

-- One block is given back.
theorem Inv.exists_free_fuse (hinv : c.Inv bs ls) (hapart : SegregatedFit.Apart bs)
    (hsize : c.allocator.heap.memory.size ≤ maxBlockSize) (hb : b ∈ c.live) :
    ∃ c' ls', c.step (.free (some b)) = .ok (none, c') ∧ c'.Inv (fuse (bs.map (·.freed {b}))) ls' ∧
      SegregatedFit.Apart (fuse (bs.map (·.freed {b}))) ∧ c'.live = c.live.erase b ∧
      c'.allocator.heap.prologue = c.allocator.heap.prologue ∧
      c'.allocator.heap.memory.size = c.allocator.heap.memory.size := by
  obtain ⟨z, rfl, rfl, rfl⟩ := hinv.exists_site hb
  obtain ⟨h', hfree, hbecomes⟩ := Allocator.free_spec hinv.sound
  have hlaid' := hbecomes.prologue ▸ hbecomes.sound.laid
  obtain ⟨hblocks, hsame⟩ := blocks_merge_eq_fuse hinv.sound.laid hlaid' hapart hsize
  have hchange : Change c.allocator.heap c.allocator.chunk.val (z.blocks true) z.lists
      (.free (some z.offset)) none h' (z.merge.blocks false) z.merge.filedLists :=
    .release z (.inl rfl) ⟨rfl, rfl⟩ hbecomes
  have hlive := hchange.live hinv.sound hinv.live
  refine ⟨⟨⟨h', c.allocator.reserve, c.allocator.chunk⟩, c.live.erase z.offset⟩, z.merge.filedLists,
    by simp [step, Request.run, hfree, Request.liveAfter], ?_, ?_, rfl, hbecomes.prologue, hsame⟩
  · rw [← hblocks]
    exact ⟨hbecomes.sound, hlive⟩
  · rw [← hblocks]
    exact Site.apart_merge_of_blocks hapart

-- Several blocks are given back, one after the other.
theorem Inv.exists_free_all {order : List Nat} (hinv : c.Inv bs ls) (hapart : SegregatedFit.Apart bs)
    (hsize : c.allocator.heap.memory.size ≤ maxBlockSize) (hnodup : order.Nodup)
    (hlive : ∀ b ∈ order, b ∈ c.live) :
    ∃ c' ls', c.run (order.map fun b => .free (some b)) = .ok (some c') ∧
      c'.Inv (fuse (bs.map (·.freed order.toFinset))) ls' ∧ c'.live = c.live \ order.toFinset ∧
      c'.allocator.heap.prologue = c.allocator.heap.prologue ∧
      c'.allocator.heap.memory.size = c.allocator.heap.memory.size := by
  induction order generalizing c bs ls with
  | nil =>
      have hsame : fuse (bs.map (·.freed ∅)) = bs := by
        have hid : ∀ i ∈ bs, i.freed ∅ = i := fun i _ => BlockInfo.freed_of_notMem (Finset.notMem_empty _)
        rw [List.map_congr_left hid, List.map_id', fuse_eq_self]
        exact hinv.sound.laid.used_of_apart hapart hsize
      exact ⟨c, ls, rfl, hsame.symm ▸ hinv, by simp, rfl, rfl⟩
  | cons b order ih =>
      obtain ⟨hnew, hnodup⟩ := List.nodup_cons.mp hnodup
      have hb : b ∈ c.live := hlive b List.mem_cons_self
      obtain ⟨c₁, ls₁, hstep, hinv₁, hapart₁, hlive₁, hprologue₁, hsize₁⟩ :=
        hinv.exists_free_fuse hapart hsize hb
      have hrest : ∀ x ∈ order, x ∈ c₁.live := fun x hx => by
        rw [hlive₁, Finset.mem_erase]
        exact ⟨ne_of_mem_of_not_mem hx hnew, hlive x (List.mem_cons_of_mem _ hx)⟩
      obtain ⟨c', ls', hrun, hinv', hlive', hprologue, hsize'⟩ :=
        ih hinv₁ hapart₁ (hsize₁ ▸ hsize) hnodup hrest
      have hadmits : c.Admits (.free (some b)) := ⟨by simpa [Request.target] using hb, trivial⟩
      have hfuse : fuse ((fuse (bs.map (·.freed {b}))).map (·.freed order.toFinset)) =
          fuse (bs.map (·.freed (b :: order).toFinset)) := by
        rw [fuse_map_freed, List.map_map, List.toFinset_cons]
        simp only [Function.comp_def, BlockInfo.freed_insert]
      refine ⟨c', ls', (run_cons hadmits hstep _).trans hrun, hfuse ▸ hinv', ?_,
        hprologue.trans hprologue₁, hsize'.trans hsize₁⟩
      rw [hlive', hlive₁, List.toFinset_cons, Finset.sdiff_insert, Finset.erase_sdiff_comm]

omit [Reserve ρ] in
theorem Inv.cleared (hinv : c'.Inv (fuse (bs.map (·.freed s))) ls) (hlive : c'.live = c.live \ s)
    (hprologue : c'.allocator.heap.prologue = c.allocator.heap.prologue)
    (hsize : c'.allocator.heap.memory.size = c.allocator.heap.memory.size) : c.Cleared bs s c' := by
  have hwell := hinv.wellFormed
  exact ⟨hlive, hwell.walk, hwell.listed, hwell.nodup, hprologue, hsize⟩

-- A heap never loses its first chunk.
theorem Reachable.lt_size (hreachable : c.Reachable) :
    c.allocator.heap.prologue + 8 < c.allocator.heap.memory.size := by
  induction hreachable with
  | @init region chunk a haligned hinit =>
      obtain ⟨b, ls, hinv⟩ := exists_inv_init haligned hinit
      have hbounds := hinv.sound.laid.mem_bounds List.mem_cons_self
      dsimp only at hbounds
      have hlt : b < b + chunk.val := by omega
      exact Nat.lt_of_le_of_lt hbounds.1 (Nat.lt_of_lt_of_le hlt hbounds.2.1)
  | step hreachable hadmits hstep ih =>
      obtain ⟨bs, ls, hinv⟩ := hreachable.exists_inv
      obtain ⟨bs', ls', hinv', hchange⟩ := hinv.of_step hadmits hstep
      have hbecomes := hchange.becomes hinv.sound
      rw [hbecomes.prologue]
      exact Nat.lt_of_lt_of_le ih hbecomes.size_le

-- When all handles are given back, one free block is left.
theorem Inv.fuse_live (hinv : c.Inv bs ls) (hreachable : c.Reachable) :
    fuse (bs.map (·.freed c.live)) = [⟨c.allocator.heap.prologue + 8,
      c.allocator.heap.memory.size - (c.allocator.heap.prologue + 8), false⟩] := by
  have htiles := hinv.sound.laid.tiles
  refine (htiles.map_freed c.live).fuse_eq_singleton ?_ ?_
  · intro hnil
    have hlt := hreachable.lt_size
    rw [List.map_eq_nil_iff.mp hnil] at htiles
    exact absurd htiles (Nat.ne_of_lt hlt)
  · intro i hi
    obtain ⟨⟨b, size, allocated⟩, hmem, rfl⟩ := List.mem_map.mp hi
    cases allocated with
    | false => rw [BlockInfo.freed_of_free rfl]
    | true => rw [BlockInfo.freed, if_pos ((hinv.live b).mpr ⟨size, hmem⟩)]

-- Giving back the handles `s` always succeeds, and what comes of it depends on `s` alone.
theorem free_order_independent (hreachable : c.Reachable)
    (hsize : c.allocator.heap.memory.size ≤ maxBlockSize) (hs : s ⊆ c.live) :
    ∃ bs, c.allocator.heap.blocks = .ok bs ∧ ∀ order : List Nat, order.Nodup → order.toFinset = s →
      ∃ c', c.run (order.map fun b => .free (some b)) = .ok (some c') ∧ c.Cleared bs s c' ∧
        (s = c.live → c'.allocator.heap.blocks = .ok [⟨c.allocator.heap.prologue + 8,
          c.allocator.heap.memory.size - (c.allocator.heap.prologue + 8), false⟩]) := by
  obtain ⟨bs, ls, hinv, hapart⟩ := hreachable.exists_apart hsize
  refine ⟨bs, Heap.blocks_eq hinv.sound.laid, ?_⟩
  rintro order hnodup rfl
  obtain ⟨c', ls', hrun, hinv', hlive, hprologue, hsize'⟩ :=
    hinv.exists_free_all hapart hsize hnodup fun b hb => hs (List.mem_toFinset.mpr hb)
  have hcleared := hinv'.cleared hlive hprologue hsize'
  refine ⟨c', hrun, hcleared, fun hall => ?_⟩
  rw [hcleared.blocks, hall, hinv.fuse_live hreachable]

-- Three blocks next to one another: all six orders end with the same one.
theorem free_order_independent_arena : ∃ c : Client Arena, c.Reachable ∧ c.live = {16, 32, 48} ∧
    ∀ order : List Nat, order.Nodup → order.toFinset = {16, 32, 48} →
      ∃ c', c.run (order.map fun b => .free (some b)) = .ok (some c') ∧
        c'.allocator.heap.blocks = .ok [⟨16, 48, false⟩] := by
  have hlaunch : (launch (.ofReserve (Arena.withLimit 4096 64)) ⟨16, by decide, by decide, by decide⟩
      [.allocate 8, .allocate 8, .allocate 8]).any fun c => c.live = {16, 32, 48} ∧
        c.allocator.heap.prologue = 8 ∧ c.allocator.heap.memory.size = 64 := by
    decide +kernel
  obtain ⟨c, hc, hholds⟩ := (Option.any_eq_true _ _).mp hlaunch
  obtain ⟨hlive, hprologue, hsize⟩ := of_decide_eq_true hholds
  have hreachable : c.Reachable := .of_launch rfl hc
  refine ⟨c, hreachable, hlive, fun order hnodup horder => ?_⟩
  obtain ⟨bs, -, hall⟩ := free_order_independent hreachable (by rw [hsize]; decide)
    (Finset.Subset.refl c.live)
  obtain ⟨c', hrun, -, hblocks⟩ := hall order hnodup (horder.trans hlive.symm)
  refine ⟨c', hrun, ?_⟩
  rw [hblocks rfl, hprologue, hsize]

end Client

end SegregatedFit
