import SegregatedFit.Proofs.Client.Consistency
import SegregatedFit.Proofs.Heap.Damage

/-!
Damage to a heap in use. The check reports a heap in which one word of a tag has been overwritten, unless a
header has been given another size that fits, or a sentinel another word for the same tag.
-/

namespace SegregatedFit

namespace Allocator

variable {ρ : Type}

-- Overwrites one word of the region, behind the back of the allocator.
def forge (a : Allocator ρ) (pos : Nat) (word : UInt32) : Except Fault (Allocator ρ) :=
  return { a with heap := ← a.heap.forge pos word }

theorem exists_forge [Reserve ρ] (a : Allocator ρ) {pos : Nat} (word : UInt32)
    (hpos : pos + 4 ≤ a.heap.memory.size) :
    ∃ a', a.forge pos word = .ok a' ∧ a.heap.Forged a'.heap pos word ∧
      ∀ corruption, a'.heap.checkBlocks (Reserve.base a.reserve) = .ok (.error corruption) →
        a'.check.result = .ok (.error corruption) := by
  obtain ⟨h', hforge⟩ := a.heap.exists_forge word hpos
  refine ⟨{ a with heap := h' }, by rw [forge, hforge]; rfl, Heap.forged_of_forge hforge, ?_⟩
  intro corruption hblocks
  rw [result_check]
  exact Heap.check_of_error hblocks

end Allocator

namespace Client

variable {ρ : Type} [Reserve ρ] {c : Client ρ}

theorem Reachable.exists_intact (hreachable : c.Reachable)
    (hsize : c.allocator.heap.memory.size ≤ maxBlockSize)
    (hbase : Reserve.base c.allocator.reserve % alignment = 0) :
    ∃ bs, c.allocator.heap.Intact (Reserve.base c.allocator.reserve) bs := by
  obtain ⟨bs, ls, hinv, hapart⟩ := hreachable.exists_apart hsize
  exact ⟨bs, Heap.intact_of_laid hinv.sound.laid hbase hapart⟩

-- Each block has one word at both ends. A change of its footer is reported as such; a change of its header
-- may be reported as something else, and so may one of the sentinels.
theorem damage_reported (hreachable : c.Reachable) (hsize : c.allocator.heap.memory.size ≤ maxBlockSize)
    (hbase : Reserve.base c.allocator.reserve % alignment = 0) :
    ∃ bs, c.allocator.heap.blocks = .ok bs ∧
      (∀ i ∈ bs, ∃ word, c.allocator.heap.memory.readWord (i.offset - 4) = .ok word ∧
        c.allocator.heap.memory.readWord (i.offset + i.size - 8) = .ok word ∧
        (∀ forged, forged ≠ word → ∃ a', c.allocator.forge (i.offset + i.size - 8) forged = .ok a' ∧
          a'.check.result = .ok (.error (.tagMismatch i.offset word forged))) ∧
        ∀ forged, Heap.BadHeader c.allocator.heap.memory i word forged →
          ∃ a' corruption, c.allocator.forge (i.offset - 4) forged = .ok a' ∧
            a'.check.result = .ok (.error corruption)) ∧
      ∀ pos ∈ [c.allocator.heap.prologue - 4, c.allocator.heap.prologue,
          c.allocator.heap.memory.size - 4],
        ∃ tag, c.allocator.heap.memory.readTag pos = .ok tag ∧ ∀ forged, Tag.unpack forged ≠ tag →
          ∃ a' corruption, c.allocator.forge pos forged = .ok a' ∧
            a'.check.result = .ok (.error corruption) := by
  obtain ⟨bs, hintact⟩ := hreachable.exists_intact hsize hbase
  refine ⟨bs, hintact.blocks_eq, fun i hi => ?_, fun pos hpos => ?_⟩
  · obtain ⟨hstart, hmin, hend⟩ := hintact.mem_bounds hi
    obtain ⟨word, hheader, hfooter, -⟩ := (hintact.filled.standing i hi).tagged.exists_word
    refine ⟨word, hheader, hfooter, fun forged hne => ?_, fun forged hbad => ?_⟩
    · obtain ⟨a', hforge, hforged, hcheck⟩ :=
        c.allocator.exists_forge forged (by omega : i.offset + i.size - 8 + 4 ≤ _)
      exact ⟨a', hforge, hcheck _ (hintact.checkBlocks_of_footer hi hforged hheader hne)⟩
    · obtain ⟨a', hforge, hforged, hcheck⟩ :=
        c.allocator.exists_forge forged (by omega : i.offset - 4 + 4 ≤ _)
      obtain ⟨corruption, hblocks⟩ := hintact.error_of_header hi hforged hheader hbad
      exact ⟨a', corruption, hforge, hcheck corruption hblocks⟩
  · obtain ⟨hbound, tag, htag, hreported⟩ := hintact.error_of_sentinel hpos
    refine ⟨tag, htag, fun forged hne => ?_⟩
    obtain ⟨a', hforge, hforged, hcheck⟩ := c.allocator.exists_forge forged hbound
    obtain ⟨corruption, hblocks⟩ := hreported a'.heap forged hforged hne
    exact ⟨a', corruption, hforge, hcheck corruption hblocks⟩

theorem damage_reported_arena : ∃ c : Client Arena, c.Reachable ∧ c.live = {32} ∧
    ∃ word a', c.allocator.heap.memory.readWord 28 = .ok word ∧ c.allocator.forge 40 (word + 8) = .ok a' ∧
      a'.check.result = .ok (.error (.tagMismatch 32 word (word + 8))) := by
  obtain ⟨c, hreachable, hlive, hblocks, hsize, hbase⟩ := exists_reachable_arena
  obtain ⟨bs, hfound, hwords, -⟩ := damage_reported hreachable (by rw [hsize]; decide) (by rw [hbase]; decide)
  rw [hfound] at hblocks
  obtain rfl := Option.some.inj hblocks
  obtain ⟨word, hheader, -, hfooter, -⟩ := hwords ⟨32, 16, true⟩ (by simp)
  obtain ⟨a', hforge, hcheck⟩ := hfooter (word + 8) (by simp)
  exact ⟨c, hreachable, hlive, word, a', hheader, hforge, hcheck⟩

end Client

end SegregatedFit
