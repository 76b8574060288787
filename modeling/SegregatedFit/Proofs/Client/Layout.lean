import SegregatedFit.Proofs.Client.Change
import SegregatedFit.Proofs.Heap.Walk
import SegregatedFit.Region.Arena

/-!
The layout of a heap in use. In every state that clients bring about, the region consists of blocks
between the two sentinels, the allocated ones are the live handles, and the free ones are in the lists of
their classes.
-/

namespace SegregatedFit

-- What a heap with the handles `live` consists of. The blocks `bs` are those that a walk meets.
structure Heap.WellFormed (h : Heap) (live : Finset Nat) (bs : List BlockInfo) : Prop where
  walk : h.blocks = .ok bs
  tiles : Tiles (h.prologue + 8) bs h.memory.size
  sizes : ∀ i ∈ bs, i.size % 8 = 0 ∧ 16 ≤ i.size ∧ i.size ≤ maxBlockSize
  header : ∀ i ∈ bs, Block.tag h.memory i.offset = .ok ⟨i.size, i.allocated⟩
  footer : ∀ i ∈ bs, Block.footerTag h.memory i.offset = .ok ⟨i.size, i.allocated⟩ ∧
    h.memory.readWord (i.offset + i.size - 8) = h.memory.readWord (i.offset - 4)
  prologue : h.prologue.tag h.memory = .ok ⟨8, true⟩ ∧ h.prologue.footerTag h.memory = .ok ⟨8, true⟩
  epilogue : h.memory.readTag (h.memory.size - 4) = .ok ⟨0, true⟩
  total : h.prologue + 8 + (bs.map (·.size)).sum = h.memory.size
  -- the allocated blocks are the live handles, each of which names one block
  live : ∀ b, b ∈ live ↔ ∃ size, ⟨b, size, true⟩ ∈ bs
  unique : ∀ i ∈ bs, ∀ j ∈ bs, i.offset = j.offset → i = j
  -- the free blocks are the listed ones, each of which is listed once, in the list of its class
  listed : ∀ c b, b ∈ h.index.chain c ↔ ∃ size, ⟨b, size, false⟩ ∈ bs ∧ SizeClass.ofSize size = c
  nodup : ∀ c, (h.index.chain c).Nodup
  endless : ∀ c, h.index.endless c = false
  -- the links are those of the lists, and there are no others
  linked : ∀ c xs b ys, h.index.chain c = xs ++ b :: ys →
    h.index.links[b]? = some ⟨xs.getLast?, ys.head?⟩
  contains : ∀ b, h.index.contains b ↔ ∃ c, b ∈ h.index.chain c

variable {ρ : Type} [Reserve ρ] {c : Client ρ} {bs : List BlockInfo} {ls : Lists}

namespace Client

omit [Reserve ρ] in
theorem Inv.wellFormed (hinv : c.Inv bs ls) : c.allocator.heap.WellFormed c.live bs := by
  have hlaid := hinv.sound.laid
  have hholds := hinv.sound.holds
  refine ⟨Heap.blocks_eq hlaid, hlaid.tiles, ?_, fun i hi => hlaid.tag_eq hi,
    fun i hi => ⟨hlaid.footerTag_eq hi, ?_⟩, ⟨hlaid.tag_prologue, hlaid.footerTag_prologue⟩, ?_,
    hlaid.tiles.sum_eq, hinv.live, fun i hi j hj => hlaid.tiles.eq_of_offset hlaid.proper hi hj,
    ?_, ?_, hholds.endless_eq, ?_, ?_⟩
  · intro i hi
    exact (hlaid.proper i hi).bounds
  · exact (hlaid.tagged i hi).footer
  · exact hlaid.epilogue
  · intro c b
    rw [hholds.chain_eq]
    exact hinv.sound.filed c b
  · intro c
    rw [hholds.chain_eq]
    exact hholds.nodup c
  · intro c xs b ys hsplit
    rw [hholds.chain_eq] at hsplit
    exact hholds.linked hsplit
  · intro b
    simp only [hholds.chain_eq, ← hholds.mem_links_iff]
    exact Std.TreeMap.contains_iff_mem

-- Every reachable state is laid out so, and answers whatever the client may ask next.
theorem wellFormed_of_reachable (hreachable : c.Reachable) :
    (∃ bs, c.allocator.heap.WellFormed c.live bs) ∧
      ∀ r, c.Admits r → ∃ answer c', c.step r = .ok (answer, c') := by
  obtain ⟨bs, ls, hinv⟩ := hreachable.exists_inv
  refine ⟨⟨bs, hinv.wellFormed⟩, ?_⟩
  intro r hadmits
  obtain ⟨answer, c', -, -, hstep, -⟩ := hinv.exists_step hadmits
  exact ⟨answer, c', hstep⟩

-- A heap of three chunks of sixteen bytes, of which the second one is in use.
theorem exists_reachable_arena : ∃ c : Client Arena, c.Reachable ∧ c.live = {32} ∧
    c.allocator.heap.blocks.toOption = some [⟨16, 16, false⟩, ⟨32, 16, true⟩] ∧
    c.allocator.heap.memory.size = 48 ∧ Reserve.base c.allocator.reserve = 4096 := by
  have hlaunch : (launch (.ofReserve (Arena.withLimit 4096 64)) ⟨16, by decide, by decide, by decide⟩
      [.allocate 8, .allocate 8, .free (some 16)]).any fun c => c.live = {32} ∧
        c.allocator.heap.blocks.toOption = some [⟨16, 16, false⟩, ⟨32, 16, true⟩] ∧
        c.allocator.heap.memory.size = 48 ∧ Reserve.base c.allocator.reserve = 4096 := by
    decide +kernel
  obtain ⟨c, hc, hholds⟩ := (Option.any_eq_true _ _).mp hlaunch
  exact ⟨c, .of_launch rfl hc, by simpa using hholds⟩

theorem wellFormed_arena : ∃ c : Client Arena, c.Reachable ∧ c.live = {32} ∧
    ∃ bs, c.allocator.heap.WellFormed {32} bs := by
  obtain ⟨c, hreachable, hlive, -⟩ := exists_reachable_arena
  exact ⟨c, hreachable, hlive, hlive ▸ (wellFormed_of_reachable hreachable).1⟩

end Client

end SegregatedFit
