import SegregatedFit.Proofs.Heap.Scan
import SegregatedFit.Proofs.Heap.Walk

/-!
The walks and the check on a machine. They run over any content of the memory and of the index: every
access stands behind a test of its bounds, and every number is bounded by the end of the memory.
-/

namespace SegregatedFit.Machine

variable {m : Memory} {ix : Index} {b base fuel : Nat} {h : Heap}

theorem blocksFrom_of (hm : Spacious m) {met met' : Array BlockInfo}
    (h : Heap.walkFrom m fuel b met = (met', none)) :
    ∃ bs, blocksFrom m fuel b = some bs ∧ met' = met ++ bs.toArray := by
  induction fuel generalizing b met with
  | zero => cases h
  | succ fuel ih =>
      rw [Heap.walkFrom] at h
      cases htag : Block.tag m b with
      | error fault =>
          rw [htag] at h
          cases h
      | ok t =>
          simp only [htag] at h
          simp only [blocksFrom, tag_of hm htag, Option.bind_eq_bind, Option.bind_some]
          by_cases hzero : t.size = 0
          · rw [if_pos hzero] at h ⊢
            obtain ⟨rfl, -⟩ := Prod.mk.inj h
            exact ⟨[], rfl, by simp⟩
          · rw [if_neg hzero] at h ⊢
            obtain ⟨bs, hrest, rfl⟩ := ih h
            exact ⟨_, by rw [add_size_of hm htag, Option.bind_some, hrest]; rfl, by simp⟩

theorem blocks_of (hm : Spacious h.memory) {bs : List BlockInfo} (hblocks : h.blocks = .ok bs) :
    blocks h = some bs := by
  unfold Heap.blocks Heap.trail at hblocks
  cases hnext : Block.next h.memory h.prologue with
  | error fault =>
      rw [hnext] at hblocks
      cases hblocks
  | ok first =>
      simp only [hnext] at hblocks
      rcases hwalk : Heap.walkFrom h.memory (h.memory.size / 8 + 2) first #[] with ⟨met, cut⟩
      rw [hwalk] at hblocks
      cases cut with
      | some fault => cases hblocks
      | none =>
          obtain ⟨bs', hblocks', rfl⟩ := blocksFrom_of hm hwalk
          obtain rfl := Except.ok.inj hblocks
          simp [blocks, next_of hm hnext, hblocks']

-- The counts do not overflow as long as the sum of all sizes does not.
theorem count_foldlM {bs : List BlockInfo} (s : HeapStats)
    (hblocks : s.allocatedBlocks + s.freeBlocks + bs.length < wordLimit)
    (hbytes : s.allocatedBytes + s.freeBytes + (bs.map (·.size)).sum < wordLimit) :
    bs.foldlM count s = some (bs.foldl HeapStats.count s) := by
  induction bs generalizing s with
  | nil => rfl
  | cons i bs ih =>
      simp only [List.length_cons, List.map_cons, List.sum_cons] at hblocks hbytes
      have hstep : count s i = some (s.count i) := by
        unfold count HeapStats.count
        split
        · rw [add_eq_some (by omega), add_eq_some (by omega)]
          rfl
        · rw [add_eq_some (by omega), add_eq_some (by omega)]
          rfl
      rw [List.foldlM_cons, hstep, List.foldl_cons]
      apply ih
      · unfold HeapStats.count
        split <;> dsimp only <;> omega
      · unfold HeapStats.count
        split <;> dsimp only <;> omega

section Blocks

theorem header_eq_some (hb : 4 ≤ b) : header b = some (b - 4) := sub_eq_some hb

-- The end of a header is where its payload begins.
theorem stop_eq_some (hm : Spacious m) (hb : 4 ≤ b) (hinside : b ≤ m.size) :
    add (b - 4) Memory.wordSize = some b := by
  have hsum : b - 4 + Memory.wordSize = b := Nat.sub_add_cancel hb
  rw [add_eq_some (hm.lt (by rw [hsum]; omega)), hsum]

variable {free : Nat} {found : Except Corruption (Option Tag)}

-- How the walk goes on once a block has been tested.
def afterBlock (walk : Nat → Nat → Option (Except Corruption Nat)) (b free : Nat) :
    Except Corruption (Option Tag) → Option (Except Corruption Nat)
  | .error corruption => some (.error corruption)
  | .ok none => some (.ok free)
  | .ok (some t) => walk (b + t.size) (free + if t.allocated then 0 else 1)

-- Up to the comparison of the two tag words.
theorem checkBlocksFrom_of_bounded (hm : Spacious m) (hbase : base + m.size < wordLimit) {t : Tag}
    {front back : UInt32} (hbounded : Heap.Bounded m base b t) (hfront : m.readWord (b - 4) = .ok front)
    (hback : m.readWord (b + t.size - 8) = .ok back) (fuel free : Nat) :
    checkBlocksFrom m base (fuel + 1) b free =
      if front ≠ back then some (.error (.tagMismatch b front back))
      else if t.allocated then checkBlocksFrom m base fuel (b + t.size) free
      else (do
        let free ← add free 1
        let after ← tag m (b + t.size)
        let joint ← add t.size after.size
        if after.size ≠ 0 ∧ ¬after.allocated ∧ joint ≤ maxBlockSize then
          return .error (.uncoalesced b)
        checkBlocksFrom m base fuel (b + t.size) free) := by
  obtain ⟨hb, hinside, -⟩ := Block.tag_bounds hbounded.tag
  have hzero : ¬t.size = 0 := Nat.ne_zero_of_lt hbounded.size_ge
  simp only [checkBlocksFrom, header_eq_some hb, stop_eq_some hm hb hinside, tag_of hm hbounded.tag,
    add_eq_some (by omega : base + b < wordLimit), add_size_of hm hbounded.tag,
    readWord_of hm hfront, footer_of hm hbounded.footer_eq, readWord_of hm hback, Option.bind_eq_bind,
    Option.bind_some, if_neg (Nat.not_lt.mpr hinside), if_neg hzero,
    if_neg (not_not_intro hbounded.aligned), if_neg (Nat.not_lt.mpr hbounded.size_ge),
    if_neg (Nat.not_lt.mpr hbounded.inside)]
  rfl

theorem checkBlocksFrom_of_test (hm : Spacious m) (hbase : base + m.size < wordLimit) (hb : 4 ≤ b)
    (hinside : b ≤ m.size) (hfree : free + 1 < wordLimit) (htest : Heap.BlockTest m base b found)
    (fuel : Nat) : checkBlocksFrom m base (fuel + 1) b free =
      afterBlock (checkBlocksFrom m base fuel) b free found := by
  have hstart := And.intro (header_eq_some hb) (stop_eq_some hm hb hinside)
  have haddress : add base b = some (base + b) := add_eq_some (by omega)
  have hnot : ¬m.size < b := Nat.not_lt.mpr hinside
  cases htest with
  | outside hb => omega
  | finish htag hzero hend =>
      simp only [checkBlocksFrom, hstart, tag_of hm htag, Option.bind_eq_bind, Option.bind_some,
        if_neg hnot, if_pos hzero, if_pos hend]
      rfl
  | badEpilogue htag hzero hbad =>
      simp only [checkBlocksFrom, hstart, tag_of hm htag, Option.bind_eq_bind, Option.bind_some,
        if_neg hnot, if_pos hzero, if_neg hbad]
      rfl
  | misaligned htag hzero hbad =>
      simp only [checkBlocksFrom, hstart, tag_of hm htag, Option.bind_eq_bind, Option.bind_some,
        if_neg hnot, if_neg hzero, haddress, if_pos hbad]
      rfl
  | badSize htag hzero haligned hsmall =>
      simp only [checkBlocksFrom, hstart, tag_of hm htag, Option.bind_eq_bind, Option.bind_some,
        if_neg hnot, if_neg hzero, haddress, if_neg (not_not_intro haligned), if_pos hsmall]
      rfl
  | @beyond t htag haligned hsize hend =>
      have hzero : ¬t.size = 0 := Nat.ne_zero_of_lt hsize
      simp only [checkBlocksFrom, hstart, tag_of hm htag, Option.bind_eq_bind, Option.bind_some,
        if_neg hnot, if_neg hzero, haddress, if_neg (not_not_intro haligned),
        if_neg (Nat.not_lt.mpr hsize), add_size_of hm htag, if_pos hend]
      rfl
  | tagMismatch hbounded hfront hback hne =>
      rw [checkBlocksFrom_of_bounded hm hbase hbounded hfront hback, if_pos hne]
      rfl
  | @uncoalesced t after word hbounded hfront hback hused hafter hbad =>
      have hjoint : t.size + after.size < wordLimit := by
        have := Block.tag_bounds hbounded.tag
        have := Block.tag_bounds hafter
        exact hm.lt (by omega)
      rw [checkBlocksFrom_of_bounded hm hbase hbounded hfront hback, if_neg (not_not_intro rfl), hused]
      simp only [Bool.false_eq_true, if_false, add_eq_some hfree, tag_of hm hafter, add_eq_some hjoint,
        Option.bind_eq_bind, Option.bind_some, if_pos hbad]
      rfl
  | @pass t word hbounded hfront hback hsettled =>
      rw [checkBlocksFrom_of_bounded hm hbase hbounded hfront hback, if_neg (not_not_intro rfl)]
      cases hused : t.allocated with
      | true => simp [afterBlock, hused]
      | false =>
          obtain ⟨after, hafter, hgood⟩ := hsettled hused
          have hjoint : t.size + after.size < wordLimit := by
            have := Block.tag_bounds hbounded.tag
            have := Block.tag_bounds hafter
            exact hm.lt (by omega)
          simp only [Bool.false_eq_true, if_false, add_eq_some hfree, tag_of hm hafter,
            add_eq_some hjoint, Option.bind_eq_bind, Option.bind_some, if_neg hgood, afterBlock, hused]

theorem checkBlocksFrom_of_walk (hm : Spacious m) (hbase : base + m.size < wordLimit)
    {visited : List Nat} {verdict : Except Corruption Nat}
    (hwalk : Heap.BlockWalk m base b free visited verdict) (hb : 4 ≤ b) (hinside : b ≤ m.size)
    (hfuel : visited.length ≤ fuel) (hfree : free + visited.length < wordLimit) :
    checkBlocksFrom m base fuel b free = some verdict := by
  induction hwalk generalizing fuel with
  | fail htest =>
      obtain ⟨fuel, rfl⟩ := Nat.exists_eq_succ_of_ne_zero (Nat.ne_zero_of_lt hfuel)
      exact checkBlocksFrom_of_test hm hbase hb hinside hfree htest fuel
  | finish htest =>
      obtain ⟨fuel, rfl⟩ := Nat.exists_eq_succ_of_ne_zero (Nat.ne_zero_of_lt hfuel)
      exact checkBlocksFrom_of_test hm hbase hb hinside hfree htest fuel
  | @step b free t visited verdict htest hrest ih =>
      obtain ⟨fuel, rfl⟩ := Nat.exists_eq_succ_of_ne_zero (Nat.ne_zero_of_lt hfuel)
      simp only [List.length_cons] at hfuel hfree
      rw [checkBlocksFrom_of_test hm hbase hb hinside (by omega) htest fuel]
      refine ih (by omega) htest.bounded.inside (by omega) ?_
      cases t.allocated <;> simp <;> omega

end Blocks

section Lists

variable {c : SizeClass} {seen : Std.TreeSet Nat}

-- How the walk goes on once an entry has been tested.
def afterEntry (walk : Option (Except Corruption (Std.TreeSet Nat))) :
    Except Corruption Unit → Option (Except Corruption (Std.TreeSet Nat))
  | .error corruption => some (.error corruption)
  | .ok () => walk

theorem checkListFrom_of_test (hm : Spacious m) {before : Option Nat} {found : Except Corruption Unit}
    (hseen : ¬seen.contains b) (htest : Heap.EntryTest m ix c before b found) (fuel : Nat) :
    checkListFrom m ix c (fuel + 1) before (some b) seen =
      afterEntry (checkListFrom m ix c fuel (some b) (ix.succ b) (seen.insert b)) found := by
  cases htest with
  | outOfBounds hb =>
      rw [checkListFrom, if_neg hseen, if_pos hb]
      rfl
  | allocated hb htag hused =>
      simp only [checkListFrom, if_neg hseen, if_neg hb, tag_of hm htag, Option.bind_eq_bind,
        Option.bind_some, if_pos hused]
      rfl
  | wrongClass hb htag hfree hclass =>
      simp only [checkListFrom, if_neg hseen, if_neg hb, tag_of hm htag, Option.bind_eq_bind,
        Option.bind_some, hfree, Bool.false_eq_true, if_false, if_pos hclass]
      rfl
  | brokenLink hb htag hfree hclass hpred =>
      simp only [checkListFrom, if_neg hseen, if_neg hb, tag_of hm htag, Option.bind_eq_bind,
        Option.bind_some, hfree, Bool.false_eq_true, if_false, if_neg (not_not_intro hclass),
        if_pos hpred]
      rfl
  | pass hlisted =>
      simp only [checkListFrom, if_neg hseen, if_neg hlisted.inside, tag_of hm hlisted.tag,
        Option.bind_eq_bind, Option.bind_some, hlisted.free, Bool.false_eq_true, if_false,
        if_neg (not_not_intro hlisted.filed), if_neg (not_not_intro hlisted.pred)]
      rfl

theorem checkListFrom_of (hm : Spacious m) {before cursor : Option Nat}
    {r : Except Corruption (Std.TreeSet Nat)}
    (h : Heap.checkListFrom m ix c fuel before cursor seen = .ok r) :
    checkListFrom m ix c fuel before cursor seen = some r := by
  induction fuel generalizing before cursor seen with
  | zero => cases cursor <;> exact congrArg some (Except.ok.inj h)
  | succ fuel ih =>
      cases cursor with
      | none => exact congrArg some (Except.ok.inj h)
      | some b =>
          by_cases hseen : seen.contains b
          · rw [Heap.checkListFrom, if_pos hseen] at h
            rw [checkListFrom, if_pos hseen]
            exact congrArg some (Except.ok.inj h)
          obtain ⟨found, htest, hstep⟩ := Heap.exists_entryTest m ix c before b
          rw [hstep fuel seen hseen] at h
          rw [checkListFrom_of_test hm hseen htest]
          cases found with
          | error corruption => exact congrArg some (Except.ok.inj h)
          | ok => exact ih h

theorem checkClasses_of (hm : Spacious m) {cs : List SizeClass}
    {r : Except Corruption (Std.TreeSet Nat)} (h : Heap.checkClasses m ix cs seen = .ok r) :
    checkClasses m ix cs seen = some r := by
  induction cs generalizing seen with
  | nil => exact congrArg some (Except.ok.inj h)
  | cons c cs ih =>
      rw [Heap.checkClasses] at h
      obtain ⟨found, hlist, h⟩ := bind_eq_ok_iff.mp h
      rw [checkClasses, checkListFrom_of hm hlist, Option.bind_eq_bind, Option.bind_some]
      cases found with
      | error corruption => exact congrArg some (Except.ok.inj h)
      | ok seen => exact ih h

theorem checkLists_of (hm : Spacious h.memory) {r : Except Corruption Nat}
    (hlists : h.checkLists = .ok r) : checkLists h = some r := by
  obtain ⟨found, hclasses, hrest⟩ := bind_eq_ok_iff.mp hlists
  rw [checkLists, checkClasses_of hm hclasses, Option.bind_eq_bind, Option.bind_some]
  cases found with
  | error corruption => exact congrArg some (Except.ok.inj hrest)
  | ok seen =>
      dsimp only at hrest ⊢
      by_cases hcount : seen.size ≠ h.index.size
      · rw [if_pos hcount] at hrest ⊢
        exact congrArg some (Except.ok.inj hrest)
      · rw [if_neg hcount] at hrest ⊢
        exact congrArg some (Except.ok.inj hrest)

end Lists

theorem checkBlocks_of {p : Nat} (hseeded : Heap.Seeded m p) (hm : Spacious m)
    (hbase : base + m.size < wordLimit) {verdict : Except Corruption Nat}
    (h : Heap.checkBlocks ⟨m, ix, p⟩ base = .ok verdict) : checkBlocks ⟨m, ix, p⟩ base = some verdict := by
  obtain ⟨hpad, hlast⟩ := hseeded
  obtain ⟨front, hfront, h⟩ := bind_eq_ok_iff.mp h
  simp only [checkBlocks, tag_of hm hfront, Option.bind_eq_bind, Option.bind_some]
  by_cases hbad : front ≠ .used overhead
  · rw [if_pos hbad] at h ⊢
    exact congrArg some (Except.ok.inj h)
  rw [if_neg hbad] at h ⊢
  obtain ⟨back, hback, h⟩ := bind_eq_ok_iff.mp h
  rw [footerTag_of hm hback, Option.bind_some]
  by_cases hbad : back ≠ .used overhead
  · rw [if_pos hbad] at h ⊢
    exact congrArg some (Except.ok.inj h)
  rw [if_neg hbad] at h ⊢
  obtain ⟨visited, verdict', hwalk⟩ := @Heap.exists_blockWalk m base (p + 8) (by omega) hlast 0
  have hlength := hwalk.length_le hlast
  have hcheck := Heap.checkBlocksFrom_of_walk hwalk (by omega : visited.length ≤ m.size / 16 + 1)
  obtain rfl := Except.ok.inj (hcheck.symm.trans h)
  have hsum : p + overhead < wordLimit := hm.lt (by simp only [overhead]; omega)
  rw [add_eq_some hsum, Option.bind_some]
  exact checkBlocksFrom_of_walk hm hbase hwalk (by omega) hlast (by omega) (hm.lt (by omega))

-- The check of any heap in which the sentinels lie inside the memory.
theorem check_of {p : Nat} (hseeded : Heap.Seeded m p) (hm : Spacious m)
    (hbase : base + m.size < wordLimit) {verdict : Except Corruption Unit}
    (h : Heap.check ⟨m, ix, p⟩ base = .ok verdict) : check ⟨m, ix, p⟩ base = some verdict := by
  obtain ⟨blocks, hblocks, h⟩ := bind_eq_ok_iff.mp h
  simp only [check, checkBlocks_of hseeded hm hbase hblocks, Option.bind_eq_bind, Option.bind_some]
  cases blocks with
  | error corruption => exact congrArg some (Except.ok.inj h)
  | ok free =>
      obtain ⟨lists, hlists, h⟩ := bind_eq_ok_iff.mp h
      simp only [checkLists_of hm hlists, Option.bind_some]
      cases lists with
      | error corruption => exact congrArg some (Except.ok.inj h)
      | ok listed =>
          dsimp only at h ⊢
          by_cases hcount : free ≠ listed
          · rw [if_pos hcount] at h ⊢
            exact congrArg some (Except.ok.inj h)
          · rw [if_neg hcount] at h ⊢
            exact congrArg some (Except.ok.inj h)

end SegregatedFit.Machine
