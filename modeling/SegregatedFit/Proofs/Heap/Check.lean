import SegregatedFit.Proofs.Heap.Adjacency
import SegregatedFit.Proofs.Heap.BlockWalk
import SegregatedFit.Proofs.Heap.Filing

/-!
The check of a sound heap. It meets every block and every entry of the lists, and counts as many free
blocks as listed ones. All that it may report are free neighbours that could still be merged, and there
are none when the free blocks are apart.
-/

namespace SegregatedFit

variable {m : Memory} {ix : Index} {p base fuel : Nat} {i : BlockInfo} {xs ys bs : List BlockInfo}
  {ls : Lists} {h : Heap} {c : SizeClass}

-- The first free block that could still be merged with the one behind it.
def unmerged : List BlockInfo → Option Block
  | [] => none
  | i :: rest =>
    if i.allocated = false ∧ (mergeable i.size rest).isSome then some i.offset else unmerged rest

theorem Apart.unmerged_eq_none (hapart : Apart bs) : unmerged bs = none := by
  induction bs with
  | nil => rfl
  | cons i rest ih =>
      obtain ⟨hsettled, hbehind⟩ := List.isChain_cons.mp hapart
      rw [unmerged, if_neg, ih hbehind]
      rintro ⟨hfree, hmerge⟩
      obtain ⟨⟨n, rest'⟩, hn⟩ := Option.isSome_iff_exists.mp hmerge
      obtain ⟨rfl, hfree', hmax⟩ := mergeable_eq_some hn
      exact Nat.not_lt_of_le hmax (hsettled n rfl hfree hfree')

namespace Heap

-- A block passes every test unless it could still be merged with the one behind it.
theorem checkBlocksFrom_cons (hlaid : Laid m p (xs ++ i :: ys)) (hbase : base % 8 = 0) (free : Nat) :
    checkBlocksFrom m base (fuel + 1) i.offset free =
      if i.allocated = false ∧ (mergeable i.size ys).isSome then .ok (.error (.uncoalesced i.offset))
      else checkBlocksFrom m base fuel (i.offset + i.size) (free + if i.allocated then 0 else 1) := by
  have hi : i ∈ xs ++ i :: ys := by simp
  have hbounds := hlaid.mem_bounds hi
  have haligned : (base + i.offset) % alignment = 0 := by
    simp only [alignment]
    omega
  have hbounded : Bounded m base i.offset i.tag :=
    ⟨hlaid.tag_eq hi, haligned, (hlaid.proper i hi).le_size, hbounds.2.1⟩
  have htest : ((ys.head?.elim Tag.epilogue BlockInfo.tag).size ≠ 0 ∧
      ¬(ys.head?.elim Tag.epilogue BlockInfo.tag).allocated ∧
      i.size + (ys.head?.elim Tag.epilogue BlockInfo.tag).size ≤ maxBlockSize) ↔
      (mergeable i.size ys).isSome = true := by
    cases ys with
    | nil => simp [mergeable, Tag.epilogue]
    | cons j ys =>
        have hj := hlaid.mem_bounds (i := j) (by simp)
        have hnonzero : j.size ≠ 0 := by omega
        simp [mergeable, BlockInfo.tag, hnonzero]
  obtain ⟨word, hword, hword', -⟩ := (hlaid.tagged i hi).exists_word
  split
  · rename_i hmerge
    exact checkBlocksFrom_of_test
      (.uncoalesced hbounded hword hword' hmerge.1 hlaid.tag_after (htest.mpr hmerge.2)) fuel free
  · rename_i hmerge
    exact checkBlocksFrom_of_test (.pass hbounded hword hword' fun hfree =>
      ⟨_, hlaid.tag_after, fun hbad => hmerge ⟨hfree, htest.mp hbad⟩⟩) fuel free

-- The walk stops at a block that could still be merged, or ends at the epilogue and has counted the
-- free blocks.
theorem checkBlocksFrom_eq {start : Nat} (hlaid : Laid m p (xs ++ ys)) (hstart : Tiles start ys m.size)
    (hbase : base % 8 = 0) (hfuel : ys.length < fuel) (free : Nat) :
    checkBlocksFrom m base fuel start free =
      .ok ((unmerged ys).elim (.ok (free + ys.countP (!·.allocated))) fun b => .error (.uncoalesced b)) := by
  induction ys generalizing xs fuel start free with
  | nil =>
      obtain ⟨fuel, rfl⟩ := Nat.exists_eq_succ_of_ne_zero (Nat.ne_zero_of_lt hfuel)
      have hend : start = m.size := hstart
      simp [checkBlocksFrom, hend, hlaid.tag_epilogue, Tag.epilogue, unmerged]
  | cons i ys ih =>
      obtain ⟨fuel, rfl⟩ := Nat.exists_eq_succ_of_ne_zero (Nat.ne_zero_of_lt hfuel)
      obtain ⟨rfl, hrest⟩ := hstart
      rw [checkBlocksFrom_cons hlaid hbase, unmerged]
      split
      · rfl
      · rw [List.append_cons] at hlaid
        rw [ih hlaid hrest (by simpa using hfuel), List.countP_cons]
        cases i.allocated <;> simp [Nat.add_assoc, Nat.add_comm]

theorem checkBlocks_eq (hlaid : Laid h.memory h.prologue bs) (hbase : base % 8 = 0) :
    h.checkBlocks base =
      .ok ((unmerged bs).elim (.ok (bs.countP (!·.allocated))) fun b => .error (.uncoalesced b)) := by
  have hlength := hlaid.tiles.length_le hlaid.proper
  have hwhole : Laid h.memory h.prologue ([] ++ bs) := hlaid
  have hwalk := checkBlocksFrom_eq hwhole hlaid.tiles hbase
    (by omega : bs.length < h.memory.size / 16 + 1) 0
  rw [Nat.zero_add] at hwalk
  simp [checkBlocks, hlaid.tag_prologue, hlaid.footerTag_prologue]
  exact hwalk

-- The set holds the blocks `met`, none of them twice.
structure Seen (seen : Std.TreeSet Nat) (met : List Nat) : Prop where
  size : seen.size = met.length
  contains : ∀ b, seen.contains b = true ↔ b ∈ met

theorem seen_empty : Seen ∅ [] := ⟨rfl, by simp⟩

theorem Seen.insert {seen : Std.TreeSet Nat} {met : List Nat} {b : Nat} (hseen : Seen seen met)
    (hb : b ∉ met) : Seen (seen.insert b) (met ++ [b]) := by
  have hnot : ¬seen.contains b = true := fun hmem => hb ((hseen.contains b).mp hmem)
  refine ⟨?_, ?_⟩
  · rw [Std.TreeSet.size_insert, if_neg hnot, hseen.size, List.length_append, List.length_singleton]
  · intro b'
    simp only [Std.TreeSet.contains_insert, Bool.or_eq_true, beq_iff_eq,
      Std.LawfulEqCmp.compare_eq_iff_eq, hseen.contains, List.mem_append, List.mem_singleton]
    rw [or_comm, eq_comm]

-- The walk over one list goes through it to the end.
theorem checkListFrom_eq {xs ys met : List Nat} {seen : Std.TreeSet Nat}
    (hsound : Sound ⟨m, ix, p⟩ bs ls) (hsplit : ls c = xs ++ ys) (hfuel : ys.length ≤ fuel)
    (hseen : Seen seen met) (hnodup : (met ++ ys).Nodup) :
    ∃ seen', checkListFrom m ix c fuel xs.getLast? ys.head? seen = .ok (.ok seen') ∧
      Seen seen' (met ++ ys) := by
  induction ys generalizing xs fuel seen met with
  | nil => exact ⟨seen, by simp [checkListFrom], by simpa using hseen⟩
  | cons b ys ih =>
      obtain ⟨fuel, rfl⟩ := Nat.exists_eq_succ_of_ne_zero (Nat.ne_zero_of_lt hfuel)
      have hb : b ∉ met := fun hmem => (List.nodup_append.mp hnodup).2.2 b hmem b List.mem_cons_self rfl
      have hnot : ¬seen.contains b = true := fun hmem => hb ((hseen.contains b).mp hmem)
      obtain ⟨size, hmem, hclass⟩ := (hsound.filed c b).mp (by simp [hsplit])
      have hbounds := hsound.laid.mem_bounds hmem
      have htag := hsound.laid.tag_eq hmem
      have hlinks := hsound.holds.linked hsplit
      have hpred : ix.pred b = xs.getLast? := by simp [Index.pred, hlinks]
      have hsucc : ix.succ b = ys.head? := by simp [Index.succ, hlinks]
      dsimp only at hbounds htag
      have hinside : ¬(b < Memory.wordSize ∨ m.size - 1 < b) := by
        simp only [Memory.wordSize]
        omega
      rw [List.append_cons] at hsplit hnodup
      obtain ⟨seen', hrest, hseen'⟩ := ih hsplit (by simpa using hfuel) (hseen.insert hb) hnodup
      refine ⟨seen', ?_, by simpa using hseen'⟩
      rw [List.getLast?_concat] at hrest
      rw [List.head?_cons, checkListFrom, if_neg hnot, if_neg hinside, htag]
      simp only [ok_bind, BlockInfo.tag]
      rw [if_neg Bool.false_ne_true, if_neg (not_not_intro hclass), hpred, if_neg (not_not_intro rfl),
        hsucc, hrest]

theorem checkClasses_eq {cs : List SizeClass} {met : List Nat} {seen : Std.TreeSet Nat}
    (hsound : Sound ⟨m, ix, p⟩ bs ls) (hseen : Seen seen met) (hnodup : (met ++ cs.flatMap ls).Nodup) :
    ∃ seen', checkClasses m ix cs seen = .ok (.ok seen') ∧ Seen seen' (met ++ cs.flatMap ls) := by
  induction cs generalizing seen met with
  | nil => exact ⟨seen, rfl, by simpa using hseen⟩
  | cons c cs ih =>
      rw [List.flatMap_cons, ← List.append_assoc] at hnodup ⊢
      have hlength := hsound.holds.length_le c
      have hwhole : ls c = [] ++ ls c := rfl
      obtain ⟨seen₁, hlist, hseen₁⟩ := checkListFrom_eq hsound hwhole
        (by dsimp only at hlength; omega : (ls c).length ≤ ix.size + 2) hseen hnodup.of_append_left
      obtain ⟨seen₂, hrest, hseen₂⟩ := ih hseen₁ hnodup
      refine ⟨seen₂, ?_, hseen₂⟩
      rw [← hsound.holds.root] at hlist
      rw [checkClasses]
      dsimp only [List.getLast?_nil] at hlist
      rw [hlist, ok_bind]
      exact hrest

theorem checkLists_eq (hsound : h.Sound bs ls) : h.checkLists = .ok (.ok h.index.size) := by
  obtain ⟨memory, ix, p⟩ := h
  have hnodup := hsound.holds.keys_perm.nodup_iff.mp Std.TreeMap.nodup_keys
  obtain ⟨seen, hclasses, hseen⟩ := checkClasses_eq hsound seen_empty (by simpa using hnodup)
  have hsize : seen.size = ix.size := by
    rw [hseen.size, List.nil_append, hsound.holds.size_eq]
  simp [checkLists, hclasses, hsize]

-- The lists hold as many blocks as there are free ones.
theorem Sound.countP_free (hsound : h.Sound bs ls) : bs.countP (!·.allocated) = h.index.size := by
  rw [hsound.holds.size_eq, List.countP_eq_length_filter, ← List.length_map (·.offset)]
  apply List.Perm.length_eq
  rw [List.perm_ext_iff_of_nodup]
  · intro b
    simp only [List.mem_map, List.mem_filter, List.mem_flatMap, hsound.filed _ b]
    constructor
    · rintro ⟨⟨b, size, allocated⟩, ⟨hmem, hfree⟩, rfl⟩
      obtain rfl : allocated = false := by simpa using hfree
      exact ⟨_, List.mem_finRange _, size, hmem, rfl⟩
    · rintro ⟨c, -, size, hmem, -⟩
      exact ⟨_, ⟨hmem, rfl⟩, rfl⟩
  · have hordered := hsound.laid.tiles.pairwise hsound.laid.proper
    apply List.pairwise_map.mpr
    apply (hordered.filter _).imp
    intro i j hlt
    exact Nat.ne_of_lt hlt
  · exact hsound.holds.keys_perm.nodup_iff.mp Std.TreeMap.nodup_keys

-- What there is to report of a sound heap, when `found` could still be merged.
def verdict (found : Option Block) : Except Corruption Unit :=
  found.elim (.ok ()) fun b => .error (.uncoalesced b)

theorem check_eq (hsound : h.Sound bs ls) (hbase : base % 8 = 0) :
    h.check base = .ok (verdict (unmerged bs)) := by
  rw [check, checkBlocks_eq hsound.laid hbase, verdict]
  cases unmerged bs with
  | none => simp [checkLists_eq hsound, hsound.countP_free]
  | some b => rfl

-- The check of a sound heap whose free blocks are apart finds nothing.
theorem check_eq_ok (hsound : h.Sound bs ls) (hbase : base % 8 = 0) (hapart : Apart bs) :
    h.check base = .ok (.ok ()) := by
  rw [check_eq hsound hbase, hapart.unmerged_eq_none]
  rfl

end Heap

end SegregatedFit
