import SegregatedFit.Heap.Check
import SegregatedFit.Proofs.Machine.Block

/-!
The check of the blocks on any content of the memory. What the tests of one block find is said once, case
by case; the walk is made of such steps, without any bound on their number. The walk of the check is of this
kind: it ends, since every block but the last takes up room.
-/

namespace SegregatedFit.Heap

variable {m : Memory} {ix : Index} {base b p : Nat}

-- A tag that makes `b` a block inside the memory.
structure Bounded (m : Memory) (base b : Nat) (t : Tag) : Prop where
  tag : Block.tag m b = .ok t
  aligned : (base + b) % alignment = 0
  size_ge : minBlockSize ≤ t.size
  inside : b + t.size ≤ m.size

theorem Bounded.footer_eq {t : Tag} (hbounded : Bounded m base b t) :
    Block.footer m b = .ok (b + t.size - 8) := by
  have hsize := hbounded.size_ge
  simp only [minBlockSize] at hsize
  rw [Block.footer, Block.size_eq_ok_iff.mpr ⟨t, hbounded.tag, rfl⟩]
  exact subtract_eq_ok (by simp only [overhead]; omega)

-- What the tests of the block at `b` find: a violation, the end of the walk, or the tag of a block that
-- passes.
inductive BlockTest (m : Memory) (base b : Nat) : Except Corruption (Option Tag) → Prop
  | outside (hb : m.size < b) : BlockTest m base b (.error (.outOfHeap b))
  | finish {t : Tag} (htag : Block.tag m b = .ok t) (hzero : t.size = 0)
      (hend : t.allocated = true ∧ b = m.size) : BlockTest m base b (.ok none)
  | badEpilogue {t : Tag} (htag : Block.tag m b = .ok t) (hzero : t.size = 0)
      (hbad : ¬(t.allocated = true ∧ b = m.size)) : BlockTest m base b (.error (.badEpilogue b))
  | misaligned {t : Tag} (htag : Block.tag m b = .ok t) (hzero : t.size ≠ 0) (hbad : (base + b) % alignment ≠ 0) :
      BlockTest m base b (.error (.misaligned b))
  | badSize {t : Tag} (htag : Block.tag m b = .ok t) (hzero : t.size ≠ 0) (haligned : (base + b) % alignment = 0)
      (hsmall : t.size < minBlockSize) : BlockTest m base b (.error (.badSize b t.size))
  | beyond {t : Tag} (htag : Block.tag m b = .ok t) (haligned : (base + b) % alignment = 0)
      (hsize : minBlockSize ≤ t.size) (hend : m.size < b + t.size) :
      BlockTest m base b (.error (.outOfHeap b))
  | tagMismatch {t : Tag} {front back : UInt32} (hbounded : Bounded m base b t)
      (hfront : m.readWord (b - 4) = .ok front) (hback : m.readWord (b + t.size - 8) = .ok back)
      (hne : front ≠ back) : BlockTest m base b (.error (.tagMismatch b front back))
  | uncoalesced {t after : Tag} {word : UInt32} (hbounded : Bounded m base b t)
      (hfront : m.readWord (b - 4) = .ok word) (hback : m.readWord (b + t.size - 8) = .ok word)
      (hfree : t.allocated = false) (hafter : Block.tag m (b + t.size) = .ok after)
      (hbad : after.size ≠ 0 ∧ ¬after.allocated ∧ t.size + after.size ≤ maxBlockSize) :
      BlockTest m base b (.error (.uncoalesced b))
  | pass {t : Tag} {word : UInt32} (hbounded : Bounded m base b t) (hfront : m.readWord (b - 4) = .ok word)
      (hback : m.readWord (b + t.size - 8) = .ok word)
      (hsettled : t.allocated = false → ∃ after, Block.tag m (b + t.size) = .ok after ∧
        ¬(after.size ≠ 0 ∧ ¬after.allocated ∧ t.size + after.size ≤ maxBlockSize)) :
      BlockTest m base b (.ok (some t))

-- How the walk goes on once a block has been tested.
def afterBlock (walk : Nat → Nat → Except Fault (Except Corruption Nat)) (b free : Nat) :
    Except Corruption (Option Tag) → Except Fault (Except Corruption Nat)
  | .error corruption => .ok (.error corruption)
  | .ok none => .ok (.ok free)
  | .ok (some t) => walk (b + t.size) (free + if t.allocated then 0 else 1)

-- Up to the comparison of the two tag words.
theorem checkBlocksFrom_of_bounded {t : Tag} {front back : UInt32} (hbounded : Bounded m base b t)
    (hfront : m.readWord (b - 4) = .ok front) (hback : m.readWord (b + t.size - 8) = .ok back)
    (fuel free : Nat) :
    checkBlocksFrom m base (fuel + 1) b free =
      if front ≠ back then .ok (.error (.tagMismatch b front back))
      else if t.allocated then checkBlocksFrom m base fuel (b + t.size) free
      else (do
        let after ← Block.tag m (b + t.size)
        if after.size ≠ 0 ∧ ¬after.allocated ∧ t.size + after.size ≤ maxBlockSize then
          return .error (.uncoalesced b)
        checkBlocksFrom m base fuel (b + t.size) (free + 1)) := by
  obtain ⟨hb, hinside, -⟩ := Block.tag_bounds hbounded.tag
  have hzero : ¬t.size = 0 := Nat.ne_zero_of_lt hbounded.size_ge
  have hheader : Block.header b = .ok (b - 4) := subtract_eq_ok hb
  simp only [checkBlocksFrom, if_neg (Nat.not_lt.mpr hinside), hbounded.tag, ok_bind, pure_eq_ok,
    if_neg hzero, if_neg (not_not_intro hbounded.aligned), if_neg (Nat.not_lt.mpr hbounded.size_ge),
    if_neg (Nat.not_lt.mpr hbounded.inside), hheader, hbounded.footer_eq, hfront, hback]

-- One step of the walk does what the tests say.
theorem checkBlocksFrom_of_test {found : Except Corruption (Option Tag)} (htest : BlockTest m base b found)
    (fuel free : Nat) : checkBlocksFrom m base (fuel + 1) b free =
      afterBlock (checkBlocksFrom m base fuel) b free found := by
  have hnot : ∀ {t}, Block.tag m b = .ok t → ¬m.size < b := fun htag =>
    Nat.not_lt.mpr (Block.tag_bounds htag).2.1
  cases htest with
  | outside hb =>
      rw [checkBlocksFrom, if_pos hb]
      rfl
  | finish htag hzero hend =>
      simp only [checkBlocksFrom, if_neg (hnot htag), htag, ok_bind, if_pos hzero, if_pos hend]
      rfl
  | badEpilogue htag hzero hbad =>
      simp only [checkBlocksFrom, if_neg (hnot htag), htag, ok_bind, if_pos hzero, if_neg hbad]
      rfl
  | misaligned htag hzero hbad =>
      simp only [checkBlocksFrom, if_neg (hnot htag), htag, ok_bind, if_neg hzero, if_pos hbad]
      rfl
  | badSize htag hzero haligned hsmall =>
      simp only [checkBlocksFrom, if_neg (hnot htag), htag, ok_bind, if_neg hzero,
        if_neg (not_not_intro haligned), if_pos hsmall]
      rfl
  | beyond htag haligned hsize hend =>
      simp only [checkBlocksFrom, if_neg (hnot htag), htag, ok_bind, if_neg (Nat.ne_zero_of_lt hsize),
        if_neg (not_not_intro haligned), if_neg (Nat.not_lt.mpr hsize), if_pos hend]
      rfl
  | tagMismatch hbounded hfront hback hne =>
      rw [checkBlocksFrom_of_bounded hbounded hfront hback, if_pos hne]
      rfl
  | uncoalesced hbounded hfront hback hfree hafter hbad =>
      rw [checkBlocksFrom_of_bounded hbounded hfront hback, if_neg (not_not_intro rfl), hfree,
        if_neg Bool.false_ne_true, hafter, ok_bind, if_pos hbad]
      rfl
  | @pass t word hbounded hfront hback hsettled =>
      rw [checkBlocksFrom_of_bounded hbounded hfront hback, if_neg (not_not_intro rfl), afterBlock]
      cases hused : t.allocated with
      | true => rfl
      | false =>
          obtain ⟨after, hafter, hgood⟩ := hsettled hused
          rw [if_neg Bool.false_ne_true, hafter, ok_bind, if_neg hgood]
          rfl

theorem exists_tag (hb : 4 ≤ b) (hinside : b ≤ m.size) : ∃ t, Block.tag m b = .ok t := by
  obtain ⟨word, hword⟩ := Memory.readWord_isOk_iff.mpr (by omega : b - 4 + 4 ≤ m.size)
  exact ⟨_, Block.tag_eq_ok_iff.mpr ⟨hb, word, hword, rfl⟩⟩

-- The tests have an outcome at every place. Each access stands behind a test of its bounds.
theorem exists_blockTest (m : Memory) (base : Nat) {b : Nat} (hb : 4 ≤ b) :
    ∃ found, BlockTest m base b found := by
  by_cases hinside : m.size < b
  · exact ⟨_, .outside hinside⟩
  obtain ⟨word, hword⟩ := Memory.readWord_isOk_iff.mpr (by omega : b - 4 + 4 ≤ m.size)
  have htag := Block.tag_eq_ok_iff.mpr ⟨hb, word, hword, rfl⟩
  generalize Tag.unpack word = t at htag
  by_cases hzero : t.size = 0
  · by_cases hend : t.allocated = true ∧ b = m.size
    · exact ⟨_, .finish htag hzero hend⟩
    · exact ⟨_, .badEpilogue htag hzero hend⟩
  by_cases haligned : (base + b) % alignment = 0
  swap
  · exact ⟨_, .misaligned htag hzero haligned⟩
  by_cases hsmall : t.size < minBlockSize
  · exact ⟨_, .badSize htag hzero haligned hsmall⟩
  have hsize := Nat.le_of_not_lt hsmall
  by_cases hend : m.size < b + t.size
  · exact ⟨_, .beyond htag haligned hsize hend⟩
  have hbounded : Bounded m base b t := ⟨htag, haligned, hsize, Nat.le_of_not_lt hend⟩
  simp only [minBlockSize] at hsize
  obtain ⟨back, hback⟩ := Memory.readWord_isOk_iff.mpr (by omega : b + t.size - 8 + 4 ≤ m.size)
  by_cases hsame : word = back
  swap
  · exact ⟨_, .tagMismatch hbounded hword hback hsame⟩
  subst hsame
  cases hfree : t.allocated with
  | true => exact ⟨_, .pass hbounded hword hback (by simp [hfree])⟩
  | false =>
      obtain ⟨after, hafter⟩ := @exists_tag m (b + t.size) (by omega) hbounded.inside
      by_cases hmerge : after.size ≠ 0 ∧ ¬after.allocated ∧ t.size + after.size ≤ maxBlockSize
      · exact ⟨_, .uncoalesced hbounded hword hback hfree hafter hmerge⟩
      · exact ⟨_, .pass hbounded hword hback fun _ => ⟨after, hafter, hmerge⟩⟩

-- The walk over the blocks from `b` on, after `free` free ones: the blocks that it visits, and its verdict.
inductive BlockWalk (m : Memory) (base : Nat) :
    (b free : Nat) → (visited : List Nat) → Except Corruption Nat → Prop
  | fail {b free : Nat} {corruption : Corruption} (htest : BlockTest m base b (.error corruption)) :
      BlockWalk m base b free [b] (.error corruption)
  | finish {b free : Nat} (htest : BlockTest m base b (.ok none)) : BlockWalk m base b free [b] (.ok free)
  | step {b free : Nat} {t : Tag} {visited : List Nat} {verdict : Except Corruption Nat}
      (htest : BlockTest m base b (.ok (some t)))
      (hrest : BlockWalk m base (b + t.size) (free + if t.allocated then 0 else 1) visited verdict) :
      BlockWalk m base b free (b :: visited) verdict

theorem BlockTest.bounded {t : Tag} (htest : BlockTest m base b (.ok (some t))) : Bounded m base b t := by
  cases htest
  assumption

-- Each block but the last takes up sixteen bytes of the memory or more.
theorem BlockWalk.length_le {free : Nat} {visited : List Nat} {verdict : Except Corruption Nat}
    (hwalk : BlockWalk m base b free visited verdict) (hb : b ≤ m.size) :
    b + 16 * visited.length ≤ m.size + 16 := by
  induction hwalk with
  | fail htest => simpa using hb
  | finish htest => simpa using hb
  | step htest hrest ih =>
      have hbounded := htest.bounded
      have hsize := hbounded.size_ge
      have hrest := ih hbounded.inside
      simp only [minBlockSize] at hsize
      simp only [List.length_cons]
      omega

-- The check takes the steps of a walk when its fuel lasts.
theorem checkBlocksFrom_of_walk {free fuel : Nat} {visited : List Nat} {verdict : Except Corruption Nat}
    (hwalk : BlockWalk m base b free visited verdict) (hfuel : visited.length ≤ fuel) :
    checkBlocksFrom m base fuel b free = .ok verdict := by
  induction hwalk generalizing fuel with
  | fail htest =>
      obtain ⟨fuel, rfl⟩ := Nat.exists_eq_succ_of_ne_zero (Nat.ne_zero_of_lt hfuel)
      exact checkBlocksFrom_of_test htest fuel _
  | finish htest =>
      obtain ⟨fuel, rfl⟩ := Nat.exists_eq_succ_of_ne_zero (Nat.ne_zero_of_lt hfuel)
      exact checkBlocksFrom_of_test htest fuel _
  | step htest hrest ih =>
      obtain ⟨fuel, rfl⟩ := Nat.exists_eq_succ_of_ne_zero (Nat.ne_zero_of_lt hfuel)
      exact (checkBlocksFrom_of_test htest fuel _).trans (ih (Nat.le_of_succ_le_succ hfuel))

-- From every place there is a walk: it goes on by sixteen bytes or more, and stays inside the memory.
theorem exists_blockWalk {b : Nat} (hb : 4 ≤ b) (hinside : b ≤ m.size) (free : Nat) :
    ∃ visited verdict, BlockWalk m base b free visited verdict := by
  induction hleft : m.size - b using Nat.strong_induction_on generalizing b free with
  | _ left ih =>
      obtain ⟨found, htest⟩ := exists_blockTest m base hb
      cases found with
      | error corruption => exact ⟨_, _, .fail htest⟩
      | ok passed =>
          cases passed with
          | none => exact ⟨_, _, .finish htest⟩
          | some t =>
              have hbounded := htest.bounded
              have hsize := hbounded.size_ge
              have hend := hbounded.inside
              simp only [minBlockSize] at hsize
              obtain ⟨visited, verdict, hrest⟩ :=
                ih (m.size - (b + t.size)) (by omega) (by omega) hend _ rfl
              exact ⟨_, _, .step htest hrest⟩

-- The words of the prologue `p` lie inside the memory.
structure Seeded (m : Memory) (p : Nat) : Prop where
  pad : 4 ≤ p
  inside : p + 8 ≤ m.size

-- The tag in the footer of the prologue, which says how long the prologue is in its header.
theorem footerTag_of_sentinel (hp : 4 ≤ p) (hheader : m.readTag (p - 4) = .ok (.used overhead)) :
    Block.footerTag m p = m.readTag p := by
  have hsize := Block.size_eq (Block.tag_eq hp hheader)
  rw [Block.footerTag, Block.footer, hsize, ok_bind]
  exact congrArg (· >>= m.readTag) (subtract_eq_ok (Nat.le_add_left overhead p))

-- The walk starts when the prologue is as it was set up.
theorem checkBlocks_of_words {front back : Tag} (ix : Index) (base : Nat) (hp : 4 ≤ p)
    (hfront : m.readTag (p - 4) = .ok front) (hback : m.readTag p = .ok back) :
    checkBlocks ⟨m, ix, p⟩ base =
      if front = .used overhead ∧ back = .used overhead then
        checkBlocksFrom m base (m.size / 16 + 1) (p + 8) 0
      else .ok (.error (.badPrologue p)) := by
  simp only [checkBlocks, Block.tag_eq hp hfront, ok_bind, pure_eq_ok]
  by_cases hsentinel : front = .used overhead
  · subst hsentinel
    rw [if_neg (not_not_intro rfl), footerTag_of_sentinel hp hfront, hback, ok_bind]
    by_cases hsentinel : back = .used overhead
    · rw [if_neg (not_not_intro hsentinel), if_pos ⟨rfl, hsentinel⟩]
      rfl
    · rw [if_pos hsentinel, if_neg fun h => hsentinel h.2]
  · rw [if_pos hsentinel, if_neg fun h => hsentinel h.1]

theorem checkBlocks_of_walk {visited : List Nat} {verdict : Except Corruption Nat} (ix : Index)
    (hseeded : Seeded m p) (hfront : m.readTag (p - 4) = .ok (.used overhead))
    (hback : m.readTag p = .ok (.used overhead)) (hwalk : BlockWalk m base (p + 8) 0 visited verdict) :
    checkBlocks ⟨m, ix, p⟩ base = .ok verdict := by
  have hlength := hwalk.length_le hseeded.inside
  rw [checkBlocks_of_words ix base hseeded.pad hfront hback, if_pos ⟨rfl, rfl⟩]
  exact checkBlocksFrom_of_walk hwalk (by omega)

theorem exists_checkBlocks (ix : Index) (base : Nat) (hseeded : Seeded m p) :
    ∃ visited verdict, checkBlocks ⟨m, ix, p⟩ base = .ok verdict ∧ visited.length ≤ m.size / 16 + 1 ∧
      (BlockWalk m base (p + 8) 0 visited verdict ∨
        visited = [] ∧ verdict = .error (.badPrologue p)) := by
  have hpad := hseeded.pad
  have hlast := hseeded.inside
  obtain ⟨word, hword⟩ := Memory.readWord_isOk_iff.mpr (by omega : p - 4 + 4 ≤ m.size)
  obtain ⟨word', hword'⟩ := Memory.readWord_isOk_iff.mpr (by omega : p + 4 ≤ m.size)
  have hfront := Memory.readTag_eq_ok_iff.mpr ⟨word, hword, rfl⟩
  have hback := Memory.readTag_eq_ok_iff.mpr ⟨word', hword', rfl⟩
  by_cases hprologue : Tag.unpack word = .used overhead ∧ Tag.unpack word' = .used overhead
  · obtain ⟨visited, verdict, hwalk⟩ := @exists_blockWalk m base (p + 8) (by omega) hlast 0
    have hlength := hwalk.length_le hlast
    rw [hprologue.1] at hfront
    rw [hprologue.2] at hback
    exact ⟨visited, verdict, checkBlocks_of_walk ix hseeded hfront hback hwalk, by omega, .inl hwalk⟩
  · rw [checkBlocks_of_words ix base hpad hfront hback, if_neg hprologue]
    exact ⟨[], _, rfl, Nat.zero_le _, .inr ⟨rfl, rfl⟩⟩

-- The check of the blocks finds nothing when the prologue is intact and the walk reaches the end.
theorem checkBlocks_eq_ok_iff_walk {n : Nat} : checkBlocks ⟨m, ix, p⟩ base = .ok (.ok n) ↔
    Seeded m p ∧ m.readTag (p - 4) = .ok (.used overhead) ∧ m.readTag p = .ok (.used overhead) ∧
      ∃ visited, BlockWalk m base (p + 8) 0 visited (.ok n) := by
  constructor
  · intro h
    obtain ⟨front, hfront, hrest⟩ := bind_eq_ok_iff.mp h
    obtain ⟨hp, word, hword, htag⟩ := Block.tag_eq_ok_iff.mp hfront
    have hfront := Memory.readTag_eq_ok_iff.mpr ⟨word, hword, htag⟩
    by_cases hbad : front ≠ .used overhead
    · rw [if_pos hbad] at hrest
      cases hrest
    obtain rfl := not_not.mp hbad
    obtain ⟨back, hback, -⟩ := bind_eq_ok_iff.mp hrest
    rw [footerTag_of_sentinel hp hfront] at hback
    rw [checkBlocks_of_words ix base hp hfront hback] at h
    by_cases hbad : back = .used overhead
    swap
    · rw [if_neg fun h => hbad h.2] at h
      cases Except.ok.inj h
    subst hbad
    rw [if_pos ⟨rfl, rfl⟩] at h
    have hinside : p + 8 ≤ m.size := by
      apply Nat.le_of_not_lt
      intro hout
      rw [checkBlocksFrom_of_test (.outside hout) (m.size / 16) 0] at h
      cases Except.ok.inj h
    obtain ⟨visited, verdict, hwalk⟩ := @exists_blockWalk m base (p + 8) (by omega) hinside 0
    have hlength := hwalk.length_le hinside
    have hcheck := checkBlocksFrom_of_walk hwalk (by omega : visited.length ≤ m.size / 16 + 1)
    obtain rfl := Except.ok.inj (hcheck.symm.trans h)
    exact ⟨⟨hp, hinside⟩, hfront, hback, visited, hwalk⟩
  · rintro ⟨hseeded, hfront, hback, visited, hwalk⟩
    exact checkBlocks_of_walk ix hseeded hfront hback hwalk

end SegregatedFit.Heap
