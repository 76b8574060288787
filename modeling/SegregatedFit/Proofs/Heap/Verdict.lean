import SegregatedFit.Proofs.Heap.Intact
import SegregatedFit.Proofs.Heap.Scan

/-!
What it means that the check finds nothing. The blocks tile the heap up to its end, and the lists end and
pass no block twice; but the free blocks, the listed ones and the links are compared by number alone.
-/

namespace SegregatedFit.Heap

variable {m : Memory} {ix : Index} {base b : Nat} {c : SizeClass} {met visited : List Nat}

-- A walk over a list that reaches its end has passed the entries that the links lead to.
theorem ListWalk.follow {before cursor : Option Nat}
    (hwalk : ListWalk m ix c met before cursor visited (.ok ())) {count : Nat}
    (hcount : visited.length ≤ count) : ix.follow count cursor = visited := by
  generalize hverdict : (Except.ok () : Except Corruption Unit) = verdict at hwalk
  induction hwalk generalizing count with
  | finish => exact ix.follow_none count
  | cycle hb => cases hverdict
  | fail hb htest => cases hverdict
  | step hb htest hrest ih =>
      obtain ⟨count, rfl⟩ := Nat.exists_eq_succ_of_ne_zero (Nat.ne_zero_of_lt hcount)
      rw [Index.follow, ih (Nat.le_of_succ_le_succ hcount) hverdict]

-- Each entry that is passed is a free block by its tag, of the class of the list, and its links lead to the
-- entries beside it. The entry in front of the first one is `before`.
theorem ListWalk.entry {before cursor : Option Nat}
    (hwalk : ListWalk m ix c met before cursor visited (.ok ())) :
    cursor = visited.head? ∧ ∀ xs b ys, visited = xs ++ b :: ys →
      (∃ t, Listed m ix c (xs.getLast?.or before) b t) ∧ ix.succ b = ys.head? := by
  generalize hverdict : (Except.ok () : Except Corruption Unit) = verdict at hwalk
  induction hwalk with
  | finish => exact ⟨rfl, by simp⟩
  | cycle => cases hverdict
  | fail => cases hverdict
  | @step met before b' visited verdict hnew htest hrest ih =>
      obtain ⟨hnext, hentries⟩ := ih hverdict
      refine ⟨rfl, fun xs b ys hsplit => ?_⟩
      cases xs with
      | nil =>
          obtain ⟨rfl, rfl⟩ := List.cons.inj hsplit
          subst hverdict
          cases htest with
          | pass hlisted => exact ⟨⟨_, hlisted⟩, hnext⟩
      | cons x xs =>
          obtain ⟨rfl, hbehind⟩ := List.cons.inj hsplit
          have hentry := hentries xs b ys hbehind
          rw [List.getLast?_cons, Option.some_or]
          cases hlast : xs.getLast? <;> rw [hlast] at hentry <;> exact hentry

-- Each entry but the last has a successor.
theorem ListWalk.linked {before cursor : Option Nat}
    (hwalk : ListWalk m ix c met before cursor visited (.ok ())) (hb : b ∈ visited.dropLast) :
    b ∈ ix.links := by
  have hvisited : visited ≠ [] := by
    rintro rfl
    cases hb
  obtain ⟨xs, ys, hfront⟩ := List.append_of_mem hb
  have hsplit : visited = xs ++ b :: (ys ++ [visited.getLast hvisited]) := by
    rw [← List.cons_append, ← List.append_assoc, ← hfront, List.dropLast_concat_getLast]
  obtain ⟨-, hsucc⟩ := hwalk.entry.2 xs b _ hsplit
  rw [List.head?_append, List.head?_singleton, Option.or_some] at hsucc
  exact mem_links_of_succ hsucc

theorem ListWalk.length_le {before cursor : Option Nat}
    (hwalk : ListWalk m ix c met before cursor visited (.ok ())) (hmet : met.Nodup) :
    visited.length ≤ ix.size + 1 := by
  have hnodup := (hwalk.fresh hmet).nodup.of_append_right
  have hlinked := length_le_size (hnodup.sublist (List.dropLast_sublist _)) fun x hx => hwalk.linked hx
  rw [List.length_dropLast] at hlinked
  omega

theorem ListWalk.chain_eq (hwalk : ListWalk m ix c met none (ix.root c) visited (.ok ()))
    (hmet : met.Nodup) : ix.chain c = visited := by
  have hlength := hwalk.length_le hmet
  exact hwalk.follow (by omega)

-- The list of class `c`, from its root on: each entry is a free block of the class by the tag in front of
-- it, and stands between its neighbours by its links. The last one has no successor.
structure Threads (m : Memory) (ix : Index) (c : SizeClass) (ls : List Nat) : Prop where
  root : ix.root c = ls.head?
  entry : ∀ xs b ys, ls = xs ++ b :: ys →
    (∃ t, Listed m ix c xs.getLast? b t) ∧ ix.succ b = ys.head?

theorem ListWalk.threads (hwalk : ListWalk m ix c met none (ix.root c) visited (.ok ())) :
    Threads m ix c visited where
  root := hwalk.entry.1
  entry xs b ys hsplit := by
    have hentry := hwalk.entry.2 xs b ys hsplit
    rwa [Option.or_none] at hentry

-- An entry with a neighbour has a link, so that only the entry of a list of one may be without.
theorem Threads.links_eq {ls xs ys : List Nat} (h : Threads m ix c ls) (hsplit : ls = xs ++ b :: ys) :
    ix.links[b]? = some ⟨xs.getLast?, ys.head?⟩ ∨ xs = [] ∧ ys = [] ∧ b ∉ ix.links := by
  obtain ⟨⟨t, hlisted⟩, hsucc⟩ := h.entry xs b ys hsplit
  have hpred := hlisted.pred
  rw [Index.pred] at hpred
  rw [Index.succ] at hsucc
  cases hlinks : ix.links[b]? with
  | some links =>
      rw [hlinks] at hpred hsucc
      exact .inl (congrArg some (congrArg₂ Links.mk hpred hsucc))
  | none =>
      rw [hlinks] at hpred hsucc
      refine .inr ⟨List.getLast?_eq_none_iff.mp hpred.symm, List.head?_eq_none_iff.mp hsucc.symm, ?_⟩
      simp [Std.TreeMap.mem_iff_isSome_getElem?, hlinks]

-- None of the tests of an entry finds fault with such a block.
theorem Listed.not_error {before : Option Nat} {t : Tag} (hlisted : Listed m ix c before b t)
    (corruption : Corruption) : ¬EntryTest m ix c before b (.error corruption) := by
  intro htest
  cases htest with
  | outOfBounds hout => exact hlisted.inside hout
  | allocated hin htag hused =>
      obtain rfl := Except.ok.inj (hlisted.tag.symm.trans htag)
      exact Bool.false_ne_true (hlisted.free.symm.trans hused)
  | wrongClass hin htag hfree hclass =>
      obtain rfl := Except.ok.inj (hlisted.tag.symm.trans htag)
      exact hclass hlisted.filed
  | brokenLink hin htag hfree hclass hpred => exact hpred hlisted.pred

-- The walk over the rest `ys` of a list meets just these entries, when they are new to it.
theorem Threads.walk_eq {ls xs ys : List Nat} {verdict : Except Corruption Unit} (h : Threads m ix c ls)
    (hsplit : ls = xs ++ ys) (hnew : (met ++ ys).Nodup)
    (hwalk : ListWalk m ix c met xs.getLast? ys.head? visited verdict) :
    visited = ys ∧ verdict = .ok () := by
  induction ys generalizing xs met visited with
  | nil =>
      cases hwalk with
      | finish => exact ⟨rfl, rfl⟩
  | cons b ys ih =>
      obtain ⟨⟨t, hlisted⟩, hsucc⟩ := h.entry xs b ys hsplit
      cases hwalk with
      | cycle hb =>
          have hdisjoint := (List.nodup_append'.mp hnew).2.2
          exact absurd List.mem_cons_self (hdisjoint hb)
      | fail hb htest => exact absurd htest (hlisted.not_error _)
      | step hb htest hrest =>
          rw [hsucc, ← List.getLast?_concat (l := xs)] at hrest
          obtain ⟨rfl, rfl⟩ := ih (by simpa using hsplit) (by simpa using hnew) hrest
          exact ⟨rfl, rfl⟩

-- The walks over all lists pass what the lists hold.
theorem ClassesWalk.chains {cs : List SizeClass} (hwalk : ClassesWalk m ix met cs visited (.ok ()))
    (hmet : met.Nodup) : visited = cs.flatMap ix.chain ∧ ∀ c ∈ cs, Threads m ix c (ix.chain c) := by
  generalize hverdict : (Except.ok () : Except Corruption Unit) = verdict at hwalk
  induction hwalk with
  | finish => exact ⟨rfl, by simp⟩
  | fail => cases hverdict
  | @step met visited visited' c cs verdict hlist hrest ih =>
      obtain ⟨rfl, hothers⟩ := ih (hlist.fresh hmet).nodup hverdict
      have hchain := hlist.chain_eq hmet
      refine ⟨by rw [List.flatMap_cons, hchain], ?_⟩
      intro c' hc'
      rcases List.mem_cons.mp hc' with rfl | hc'
      · exact hchain ▸ hlist.threads
      · exact hothers c' hc'

theorem ClassesWalk.eq_of_threads {cs : List SizeClass} {verdict : Except Corruption Unit}
    (hthreads : ∀ c, Threads m ix c (ix.chain c)) (hnew : (met ++ cs.flatMap ix.chain).Nodup)
    (hwalk : ClassesWalk m ix met cs visited verdict) :
    visited = cs.flatMap ix.chain ∧ verdict = .ok () := by
  induction cs generalizing met visited with
  | nil =>
      cases hwalk with
      | finish => exact ⟨rfl, rfl⟩
  | cons c cs ih =>
      rw [List.flatMap_cons, ← List.append_assoc] at hnew
      have hfirst : (met ++ ix.chain c).Nodup := hnew.of_append_left
      have hsplit : ix.chain c = [] ++ ix.chain c := rfl
      have hlist : ∀ {visited verdict}, ListWalk m ix c met none (ix.root c) visited verdict →
          visited = ix.chain c ∧ verdict = .ok () := by
        intro visited verdict hwalk
        rw [(hthreads c).root] at hwalk
        exact (hthreads c).walk_eq hsplit hfirst hwalk
      cases hwalk with
      | fail hfail => cases (hlist hfail).2
      | step hpass hrest =>
          obtain ⟨rfl, -⟩ := hlist hpass
          obtain ⟨rfl, rfl⟩ := ih hnew hrest
          exact ⟨rfl, rfl⟩

-- Two lists without repetition that are equally long agree once one is part of the other.
theorem perm_of_subset {xs ys : List Nat} (hx : xs.Nodup) (hlength : ys.length = xs.length)
    (hsub : xs ⊆ ys) : xs.Perm ys :=
  (hx.subperm hsub).perm_of_length_le (Nat.le_of_eq hlength)

-- The blocks that are in the lists, class after class.
def listed (h : Heap) : List Nat := SizeClass.all.flatMap h.index.chain

-- The heaps in which the check finds nothing to report. The free blocks, the entries of the lists and the
-- links are compared by their number; what an entry is, its tag and its neighbours tell.
structure Approved (h : Heap) (base : Nat) (bs : List BlockInfo) : Prop where
  intact : h.Intact base bs
  threads : ∀ c, Threads h.memory h.index c (h.index.chain c)
  nodup : h.listed.Nodup
  free : bs.countP (!·.allocated) = h.listed.length
  links : h.index.size = h.listed.length

theorem checkLists_eq_ok_iff {h : Heap} {n : Nat} : h.checkLists = .ok (.ok n) ↔
    (∀ c, Threads h.memory h.index c (h.index.chain c)) ∧ h.listed.Nodup ∧
      h.index.size = h.listed.length ∧ n = h.listed.length := by
  obtain ⟨visited, found, hwalk, hcheck⟩ := exists_checkLists h
  rw [hcheck]
  constructor
  · intro hverdict
    cases found with
    | error corruption => cases hverdict
    | ok =>
        obtain ⟨rfl, hthreads⟩ := hwalk.chains List.nodup_nil
        have hnodup := (hwalk.fresh List.nodup_nil).nodup
        have hverdict := Except.ok.inj hverdict
        by_cases hsize : h.listed.length ≠ h.index.size
        · cases (if_pos hsize).symm.trans hverdict
        · obtain rfl := Except.ok.inj ((if_neg hsize).symm.trans hverdict)
          exact ⟨fun c => hthreads c (List.mem_finRange c), hnodup, (not_not.mp hsize).symm, rfl⟩
  · rintro ⟨hthreads, hnodup, hsize, rfl⟩
    have hnew : ([] ++ SizeClass.all.flatMap h.index.chain).Nodup := hnodup
    obtain ⟨rfl, rfl⟩ := hwalk.eq_of_threads hthreads hnew
    exact congrArg Except.ok (if_neg (not_not_intro hsize.symm))

theorem check_eq_ok_iff_counts {h : Heap} : h.check base = .ok (.ok ()) ↔
    ∃ n, h.checkBlocks base = .ok (.ok n) ∧ h.checkLists = .ok (.ok n) := by
  constructor
  · intro hcheck
    obtain ⟨blocks, hblocks, hrest⟩ := bind_eq_ok_iff.mp hcheck
    cases blocks with
    | error corruption => cases hrest
    | ok n =>
        obtain ⟨lists, hlists, hrest⟩ := bind_eq_ok_iff.mp hrest
        cases lists with
        | error corruption => cases hrest
        | ok n' =>
            dsimp only at hrest
            by_cases hcount : n ≠ n'
            · rw [if_pos hcount] at hrest
              cases hrest
            · obtain rfl := not_not.mp hcount
              exact ⟨n, hblocks, hlists⟩
  · rintro ⟨n, hblocks, hlists⟩
    simp [check, hblocks, hlists]

theorem check_eq_ok_iff {h : Heap} : h.check base = .ok (.ok ()) ↔ ∃ bs, Approved h base bs := by
  rw [check_eq_ok_iff_counts]
  constructor
  · rintro ⟨n, hblocks, hlists⟩
    obtain ⟨bs, hintact, rfl⟩ := checkBlocks_eq_ok_iff.mp hblocks
    obtain ⟨hthreads, hnodup, hsize, hcount⟩ := checkLists_eq_ok_iff.mp hlists
    exact ⟨bs, hintact, hthreads, hnodup, hcount, hsize⟩
  · rintro ⟨bs, happroved⟩
    refine ⟨bs.countP (!·.allocated), checkBlocks_eq_ok_iff.mpr ⟨bs, happroved.intact, rfl⟩, ?_⟩
    exact checkLists_eq_ok_iff.mpr ⟨happroved.threads, happroved.nodup, happroved.links, happroved.free⟩

namespace Approved

variable {h : Heap} {bs : List BlockInfo} {i : BlockInfo}

-- A block of the heap that is listed is free, and it is listed under its size.
theorem filed (happroved : Approved h base bs) (hi : i ∈ bs) (hlisted : i.offset ∈ h.index.chain c) :
    i.allocated = false ∧ SizeClass.ofSize i.size = c := by
  obtain ⟨xs, ys, hsplit⟩ := List.append_of_mem hlisted
  obtain ⟨⟨t, hentry⟩, -⟩ := (happroved.threads c).entry xs _ ys hsplit
  obtain rfl := Except.ok.inj ((happroved.intact.bounded hi).tag.symm.trans hentry.tag)
  exact ⟨hentry.free, hentry.filed⟩

-- The listed blocks are the free ones when each of them is a block at all.
theorem perm_free (happroved : Approved h base bs) (hsub : ∀ b ∈ h.listed, ∃ i ∈ bs, i.offset = b) :
    h.listed.Perm ((bs.filter (!·.allocated)).map (·.offset)) := by
  apply perm_of_subset happroved.nodup
  · rw [List.length_map, ← List.countP_eq_length_filter, happroved.free]
  · intro b hb
    obtain ⟨i, hi, rfl⟩ := hsub b hb
    obtain ⟨c, -, hb⟩ := List.mem_flatMap.mp hb
    obtain ⟨hfree, -⟩ := happroved.filed hi hb
    exact List.mem_map_of_mem (List.mem_filter.mpr ⟨hi, by simp [hfree]⟩)

-- They are the keys of the links when the lists of one entry are linked like the others.
theorem perm_keys (happroved : Approved h base bs)
    (hsingle : ∀ c b, h.index.chain c = [b] → b ∈ h.index.links) :
    h.listed.Perm h.index.links.keys := by
  apply perm_of_subset happroved.nodup
  · rw [Std.TreeMap.length_keys]
    exact happroved.links
  · intro b hb
    obtain ⟨c, -, hb⟩ := List.mem_flatMap.mp hb
    obtain ⟨xs, ys, hsplit⟩ := List.append_of_mem hb
    apply Std.TreeMap.mem_keys.mpr
    rcases (happroved.threads c).links_eq hsplit with hlinks | ⟨rfl, rfl, -⟩
    · exact Std.TreeMap.mem_iff_isSome_getElem?.mpr (by simp [hlinks])
    · exact hsingle c b hsplit

end Approved

end SegregatedFit.Heap
