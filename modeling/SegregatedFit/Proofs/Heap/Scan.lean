import SegregatedFit.Proofs.Heap.Check

/-!
The check of the lists on any content of the memory and of the index, and with it the whole check. What the
tests of one list entry find is said once, case by case; the walks are made of such steps, and what bounds
their number is that no block is passed twice.
-/

namespace SegregatedFit.Heap

variable {m : Memory} {ix : Index} {base b : Nat} {c : SizeClass}

-- What a list entry that passes is: a free block of class `c`, behind the entry `before`.
structure Listed (m : Memory) (ix : Index) (c : SizeClass) (before : Option Nat) (b : Nat) (t : Tag) :
    Prop where
  inside : ¬(b < Memory.wordSize ∨ m.size - 1 < b)
  tag : Block.tag m b = .ok t
  free : t.allocated = false
  filed : SizeClass.ofSize t.size = c
  pred : ix.pred b = before

-- What the tests of the list entry `b` find, `before` being the entry in front of it.
inductive EntryTest (m : Memory) (ix : Index) (c : SizeClass) (before : Option Nat) (b : Nat) :
    Except Corruption Unit → Prop
  | outOfBounds (hb : b < Memory.wordSize ∨ m.size - 1 < b) :
      EntryTest m ix c before b (.error (.outOfBounds c b))
  | allocated {t : Tag} (hb : ¬(b < Memory.wordSize ∨ m.size - 1 < b)) (htag : Block.tag m b = .ok t)
      (hused : t.allocated = true) : EntryTest m ix c before b (.error (.allocatedInList c b))
  | wrongClass {t : Tag} (hb : ¬(b < Memory.wordSize ∨ m.size - 1 < b)) (htag : Block.tag m b = .ok t)
      (hfree : t.allocated = false) (hclass : SizeClass.ofSize t.size ≠ c) :
      EntryTest m ix c before b (.error (.wrongClass c b t.size))
  | brokenLink {t : Tag} (hb : ¬(b < Memory.wordSize ∨ m.size - 1 < b)) (htag : Block.tag m b = .ok t)
      (hfree : t.allocated = false) (hclass : SizeClass.ofSize t.size = c) (hpred : ix.pred b ≠ before) :
      EntryTest m ix c before b (.error (.brokenLink b before (ix.pred b)))
  | pass {t : Tag} (hlisted : Listed m ix c before b t) : EntryTest m ix c before b (.ok ())

-- How the walk goes on once an entry has been tested.
def afterEntry (walk : Except Fault (Except Corruption (Std.TreeSet Nat))) :
    Except Corruption Unit → Except Fault (Except Corruption (Std.TreeSet Nat))
  | .error corruption => .ok (.error corruption)
  | .ok () => walk

theorem exists_entryTest (m : Memory) (ix : Index) (c : SizeClass) (before : Option Nat) (b : Nat) :
    ∃ found, EntryTest m ix c before b found ∧ ∀ fuel (seen : Std.TreeSet Nat), ¬seen.contains b →
      checkListFrom m ix c (fuel + 1) before (some b) seen =
        afterEntry (checkListFrom m ix c fuel (some b) (ix.succ b) (seen.insert b)) found := by
  by_cases hb : b < Memory.wordSize ∨ m.size - 1 < b
  · exact ⟨_, .outOfBounds hb, fun fuel seen hseen => by
      rw [checkListFrom, if_neg hseen, if_pos hb]; rfl⟩
  have hinside : 4 ≤ b ∧ b - 4 + 4 ≤ m.size := by
    simp only [Memory.wordSize] at hb
    omega
  obtain ⟨word, hword⟩ := Memory.readWord_isOk_iff.mpr hinside.2
  have htag := Block.tag_eq_ok_iff.mpr ⟨hinside.1, word, hword, rfl⟩
  generalize Tag.unpack word = t at htag
  by_cases hused : t.allocated = true
  · refine ⟨_, .allocated hb htag hused, fun fuel seen hseen => ?_⟩
    simp only [checkListFrom, if_neg hseen, if_neg hb, htag, ok_bind, if_pos hused]
    rfl
  have hfree : t.allocated = false := Bool.eq_false_iff.mpr hused
  by_cases hclass : SizeClass.ofSize t.size = c
  swap
  · refine ⟨_, .wrongClass hb htag hfree hclass, fun fuel seen hseen => ?_⟩
    simp only [checkListFrom, if_neg hseen, if_neg hb, htag, ok_bind, if_neg hused, if_pos hclass]
    rfl
  by_cases hpred : ix.pred b = before
  · refine ⟨_, .pass ⟨hb, htag, hfree, hclass, hpred⟩, fun fuel seen hseen => ?_⟩
    simp only [checkListFrom, if_neg hseen, if_neg hb, htag, ok_bind, if_neg hused,
      if_neg (not_not_intro hclass), if_neg (not_not_intro hpred)]
    rfl
  · refine ⟨_, .brokenLink hb htag hfree hclass hpred, fun fuel seen hseen => ?_⟩
    simp only [checkListFrom, if_neg hseen, if_neg hb, htag, ok_bind, if_neg hused,
      if_neg (not_not_intro hclass), if_pos hpred]
    rfl

-- The walk over the list of class `c` from `cursor` on, after the blocks `met`: the blocks that it
-- visits, and its verdict. It stops at a block that has been met before.
inductive ListWalk (m : Memory) (ix : Index) (c : SizeClass) :
    (met : List Nat) → (before cursor : Option Nat) → (visited : List Nat) → Except Corruption Unit → Prop
  | finish {met : List Nat} {before : Option Nat} : ListWalk m ix c met before none [] (.ok ())
  | cycle {met : List Nat} {before : Option Nat} {b : Nat} (hb : b ∈ met) :
      ListWalk m ix c met before (some b) [b] (.error (.listCycle c))
  | fail {met : List Nat} {before : Option Nat} {b : Nat} {corruption : Corruption} (hb : b ∉ met)
      (htest : EntryTest m ix c before b (.error corruption)) :
      ListWalk m ix c met before (some b) [b] (.error corruption)
  | step {met : List Nat} {before : Option Nat} {b : Nat} {visited : List Nat}
      {verdict : Except Corruption Unit} (hb : b ∉ met) (htest : EntryTest m ix c before b (.ok ()))
      (hrest : ListWalk m ix c (met ++ [b]) (some b) (ix.succ b) visited verdict) :
      ListWalk m ix c met before (some b) (b :: visited) verdict

-- Either all blocks are new, or the last one is the first that is met again.
def Fresh (met visited : List Nat) (verdict : Except Corruption Unit) : Prop :=
  (met ++ visited).Nodup ∨ ∃ xs b, ∃ c : SizeClass, visited = xs ++ [b] ∧ (met ++ xs).Nodup ∧
    b ∈ met ++ xs ∧ verdict = .error (.listCycle c)

theorem Fresh.cons {met visited : List Nat} {verdict : Except Corruption Unit}
    (hfresh : Fresh (met ++ [b]) visited verdict) : Fresh met (b :: visited) verdict := by
  rcases hfresh with hnodup | ⟨xs, b', c, rfl, hnodup, hagain, hverdict⟩
  · exact .inl (by simpa using hnodup)
  · exact .inr ⟨b :: xs, b', c, rfl, by simpa using hnodup, by simpa using hagain, hverdict⟩

theorem ListWalk.fresh {met visited : List Nat} {before cursor : Option Nat}
    {verdict : Except Corruption Unit} (hwalk : ListWalk m ix c met before cursor visited verdict)
    (hmet : met.Nodup) : Fresh met visited verdict := by
  have hnew : ∀ {met : List Nat} {b : Nat}, met.Nodup → b ∉ met → (met ++ [b]).Nodup :=
    fun hmet hb => List.nodup_append_comm.mp (List.nodup_cons.mpr ⟨hb, hmet⟩)
  induction hwalk with
  | finish => exact .inl (by simpa using hmet)
  | cycle hb => exact .inr ⟨[], _, c, rfl, by simpa using hmet, by simpa using hb, rfl⟩
  | fail hb htest => exact .inl (hnew hmet hb)
  | step hb htest hrest ih => exact (ih (hnew hmet hb)).cons

-- A block that is not linked has no successor.
theorem mem_links_of_succ {b' : Nat} (h : ix.succ b = some b') : b ∈ ix.links := by
  rw [Index.succ] at h
  cases hlinks : ix.links[b]? with
  | none =>
      rw [hlinks] at h
      cases h
  | some links => exact Std.TreeMap.mem_iff_isSome_getElem?.mpr (by simp [hlinks])

theorem length_le_size {own : List Nat} (hnodup : own.Nodup) (hlinked : ∀ x ∈ own, x ∈ ix.links) :
    own.length ≤ ix.size := by
  rw [Index.size, ← Std.TreeMap.length_keys]
  exact (hnodup.subperm fun x hx => Std.TreeMap.mem_keys.mpr (hlinked x hx)).length_le

-- The fuel of the walk lasts: of the blocks `own` of the list, each but the last is linked.
theorem exists_listWalk {own met : List Nat} {before cursor : Option Nat} {seen : Std.TreeSet Nat}
    {fuel : Nat} (hseen : Seen seen met) (hown : own.Nodup) (hsub : own ⊆ met)
    (hlinked : cursor.isSome → ∀ x ∈ own, x ∈ ix.links) (hfuel : ix.size < own.length + fuel) :
    ∃ visited verdict seen', ListWalk m ix c met before cursor visited verdict ∧
      checkListFrom m ix c fuel before cursor seen = .ok (verdict.map fun _ => seen') ∧
      (verdict = .ok () → Seen seen' (met ++ visited)) := by
  induction fuel generalizing own met before cursor seen with
  | zero =>
      cases cursor with
      | none => exact ⟨[], .ok (), seen, .finish, rfl, fun _ => by simpa using hseen⟩
      | some b =>
          have := length_le_size hown (hlinked rfl)
          omega
  | succ fuel ih =>
      cases cursor with
      | none => exact ⟨[], .ok (), seen, .finish, rfl, fun _ => by simpa using hseen⟩
      | some b =>
          by_cases hb : b ∈ met
          · refine ⟨_, _, seen, .cycle hb, ?_, by simp⟩
            rw [checkListFrom, if_pos ((hseen.contains b).mpr hb)]
            rfl
          have hnot : ¬seen.contains b = true := fun hmem => hb ((hseen.contains b).mp hmem)
          obtain ⟨found, htest, hstep⟩ := exists_entryTest m ix c before b
          rw [hstep fuel seen hnot]
          cases found with
          | error corruption => exact ⟨_, _, seen, .fail hb htest, rfl, by simp⟩
          | ok =>
              have hown' : (b :: own).Nodup := List.nodup_cons.mpr ⟨fun hmem => hb (hsub hmem), hown⟩
              have hsub' : b :: own ⊆ met ++ [b] :=
                List.cons_subset.mpr ⟨by simp, List.Subset.trans hsub (List.subset_append_left ..)⟩
              have hlinked' : (ix.succ b).isSome → ∀ x ∈ b :: own, x ∈ ix.links := by
                intro hsome x hx
                obtain ⟨b', hb'⟩ := Option.isSome_iff_exists.mp hsome
                rcases List.mem_cons.mp hx with rfl | hx
                · exact mem_links_of_succ hb'
                · exact hlinked rfl x hx
              obtain ⟨visited, verdict, seen', hrest, hcheck, hseen'⟩ :=
                @ih (b :: own) (met ++ [b]) (some b) (ix.succ b) (seen.insert b) (hseen.insert hb)
                  hown' hsub' hlinked' (by simp only [List.length_cons]; omega)
              exact ⟨_, _, seen', .step hb htest hrest, hcheck, fun h => by simpa using hseen' h⟩

-- The walks over the lists of several classes, one after the other.
inductive ClassesWalk (m : Memory) (ix : Index) :
    (met : List Nat) → List SizeClass → (visited : List Nat) → Except Corruption Unit → Prop
  | finish {met : List Nat} : ClassesWalk m ix met [] [] (.ok ())
  | fail {met visited : List Nat} {c : SizeClass} {cs : List SizeClass} {corruption : Corruption}
      (hlist : ListWalk m ix c met none (ix.root c) visited (.error corruption)) :
      ClassesWalk m ix met (c :: cs) visited (.error corruption)
  | step {met visited visited' : List Nat} {c : SizeClass} {cs : List SizeClass}
      {verdict : Except Corruption Unit} (hlist : ListWalk m ix c met none (ix.root c) visited (.ok ()))
      (hrest : ClassesWalk m ix (met ++ visited) cs visited' verdict) :
      ClassesWalk m ix met (c :: cs) (visited ++ visited') verdict

theorem Fresh.nodup {met visited : List Nat} (hfresh : Fresh met visited (.ok ())) :
    (met ++ visited).Nodup := by
  rcases hfresh with hnodup | ⟨_, _, _, -, -, -, hverdict⟩
  · exact hnodup
  · cases hverdict

theorem ClassesWalk.fresh {met visited : List Nat} {cs : List SizeClass}
    {verdict : Except Corruption Unit} (hwalk : ClassesWalk m ix met cs visited verdict)
    (hmet : met.Nodup) : Fresh met visited verdict := by
  induction hwalk with
  | finish => exact .inl (by simpa using hmet)
  | fail hlist => exact hlist.fresh hmet
  | step hlist hrest ih =>
      rcases ih (hlist.fresh hmet).nodup with hnodup | ⟨xs, b, c, rfl, hnodup, hagain, hverdict⟩
      · exact .inl (by simpa using hnodup)
      · exact .inr ⟨_, b, c, (List.append_assoc ..).symm, by simpa using hnodup, by simpa using hagain,
          hverdict⟩

theorem exists_classesWalk {cs : List SizeClass} {met : List Nat} {seen : Std.TreeSet Nat}
    (hseen : Seen seen met) :
    ∃ visited verdict seen', ClassesWalk m ix met cs visited verdict ∧
      checkClasses m ix cs seen = .ok (verdict.map fun _ => seen') ∧
      (verdict = .ok () → Seen seen' (met ++ visited)) := by
  induction cs generalizing met seen with
  | nil => exact ⟨[], .ok (), seen, .finish, rfl, fun _ => by simpa using hseen⟩
  | cons c cs ih =>
      obtain ⟨visited, verdict, seen', hlist, hcheck, hseen'⟩ :=
        @exists_listWalk m ix c [] met none (ix.root c) seen (ix.size + 2) hseen List.nodup_nil
          (List.nil_subset _) (fun _ x hx => absurd hx List.not_mem_nil) (by simp)
      rw [checkClasses, hcheck]
      cases verdict with
      | error corruption => exact ⟨_, _, seen, .fail hlist, rfl, by simp⟩
      | ok =>
          obtain ⟨visited', verdict, seen'', hrest, hcheck', hseen''⟩ := ih (hseen' rfl)
          exact ⟨_, _, seen'', .step hlist hrest, hcheck', fun h => by simpa using hseen'' h⟩

-- The lists hold as many blocks as there are links, or the check says that they do not.
theorem exists_checkLists (h : Heap) :
    ∃ visited found, ClassesWalk h.memory h.index [] SizeClass.all visited found ∧
      h.checkLists = .ok (found.bind fun _ => if visited.length ≠ h.index.size
        then .error (.orphanLinks visited.length h.index.size) else .ok visited.length) := by
  obtain ⟨visited, found, seen, hwalk, hcheck, hseen⟩ :=
    @exists_classesWalk h.memory h.index SizeClass.all [] ∅ seen_empty
  refine ⟨visited, found, hwalk, ?_⟩
  rw [checkLists, hcheck]
  cases found with
  | error corruption => rfl
  | ok =>
      have hsize : seen.size = visited.length := by simpa using (hseen rfl).size
      simp only [ok_bind, Except.map, Except.bind, hsize]
      split <;> rfl

-- The check answers, whatever the memory and the index hold.
theorem exists_check {p : Nat} (ix : Index) (base : Nat) (hseeded : Seeded m p) :
    ∃ verdict, check ⟨m, ix, p⟩ base = .ok verdict := by
  obtain ⟨-, blocks, hblocks, -⟩ := exists_checkBlocks ix base hseeded
  obtain ⟨visited, found, -, hlists⟩ := exists_checkLists ⟨m, ix, p⟩
  rw [check, hblocks, ok_bind]
  cases blocks with
  | error corruption => exact ⟨_, rfl⟩
  | ok free =>
      simp only [hlists, ok_bind, pure_eq_ok]
      generalize (found.bind fun _ => _) = listed
      cases listed with
      | error corruption => exact ⟨_, rfl⟩
      | ok listed =>
          dsimp only
          by_cases hcount : free ≠ listed
          · exact ⟨_, if_pos hcount⟩
          · exact ⟨_, if_neg hcount⟩

end SegregatedFit.Heap
