import SegregatedFit.Index
import Mathlib.Data.List.Nodup
import Mathlib.Data.List.FinRange

/-!
The index as twenty lists. `Index.Holds ix ls` says that the roots and the links of an index are those
of the lists `ls`, one for each size class: to insert a block puts it in front of the list of its class,
to remove one deletes it there, and a walk along a class meets its list.
-/

namespace SegregatedFit

-- The blocks of every size class, from the root on.
abbrev Lists := SizeClass → List Block

namespace Lists

def empty : Lists := fun _ => []

def insert (ls : Lists) (b : Block) (size : Nat) : Lists :=
  fun c => if c = SizeClass.ofSize size then b :: ls c else ls c

def remove (ls : Lists) (b : Block) (size : Nat) : Lists :=
  fun c => if c = SizeClass.ofSize size then (ls c).erase b else ls c

theorem mem_insert : x ∈ insert ls b size c ↔ x = b ∧ c = SizeClass.ofSize size ∨ x ∈ ls c := by
  unfold insert
  split <;> simp_all

theorem mem_of_mem_remove (h : x ∈ remove ls b size c) : x ∈ ls c := by
  by_cases hc : c = SizeClass.ofSize size
  · rw [remove, if_pos hc] at h
    exact List.mem_of_mem_erase h
  · rwa [remove, if_neg hc] at h

theorem mem_remove_of_ne {ls : Lists} {size : Nat} (h : x ∈ ls c) (hne : x ≠ b) :
    x ∈ ls.remove b size c := by
  by_cases hc : c = SizeClass.ofSize size
  · rw [remove, if_pos hc]
    exact (List.mem_erase_of_ne hne).mpr h
  · rwa [remove, if_neg hc]

theorem nodup_remove {ls : Lists} (h : ∀ c, (ls c).Nodup) (b size : Nat) (c : SizeClass) :
    (ls.remove b size c).Nodup := by
  by_cases hc : c = SizeClass.ofSize size
  · rw [remove, if_pos hc]
    exact (h c).erase b
  · rw [remove, if_neg hc]
    exact h c

theorem remove_of_notMem {ls : Lists} {size : Nat} (h : b ∉ ls (.ofSize size)) : ls.remove b size = ls := by
  funext c
  unfold remove
  split
  · rename_i hc
    rw [hc, List.erase_of_not_mem h]
  · rfl

theorem remove_comm (ls : Lists) (b size b' size') :
    (ls.remove b size).remove b' size' = (ls.remove b' size').remove b size := by
  funext c
  simp only [remove]
  split <;> split <;> first | rfl | exact List.erase_comm ..

end Lists

namespace Index

structure Holds (ix : Index) (ls : Lists) : Prop where
  root : ∀ c, ix.root c = (ls c).head?
  linked : ∀ {c xs b ys}, ls c = xs ++ b :: ys → ix.links[b]? = some ⟨xs.getLast?, ys.head?⟩
  nodup : ∀ c, (ls c).Nodup
  apart : ∀ {c d b}, b ∈ ls c → b ∈ ls d → c = d
  listed : ∀ {b}, b ∈ ix.links → ∃ c, b ∈ ls c

theorem holds_empty : empty.Holds Lists.empty where
  root c := by simp [root, empty, Lists.empty]
  linked h := by simp [Lists.empty] at h
  nodup _ := List.nodup_nil
  apart h := by simp [Lists.empty] at h
  listed h := by simp [empty] at h

section

variable {ix : Index} {ls : Lists}

theorem Holds.mem_links_iff (h : ix.Holds ls) : b ∈ ix.links ↔ ∃ c, b ∈ ls c := by
  refine ⟨h.listed, ?_⟩
  rintro ⟨c, hb⟩
  obtain ⟨xs, ys, hsplit⟩ := List.append_of_mem hb
  rw [Std.TreeMap.mem_iff_isSome_getElem?, h.linked hsplit]
  rfl

theorem Holds.mem_of_root (h : ix.Holds ls) (hroot : ix.root c = some b) : b ∈ ls c :=
  List.mem_of_mem_head? (by rw [← h.root c, hroot]; rfl)

theorem root_insert (ix : Index) (b size : Nat) (c : SizeClass) :
    (ix.insert b size).root c = if c = .ofSize size then some b else ix.root c := by
  simp only [Index.root, Index.insert, Fin.getElem_fin, Vector.getElem_set, Fin.val_inj, eq_comm]

-- Inserting changes two entries: that of the block and that of the old root.
theorem links_insert (ix : Index) (b size x : Nat) (hroot : ix.root (.ofSize size) ≠ some b) :
    (ix.insert b size).links[x]? =
      if x = b then some ⟨none, ix.root (.ofSize size)⟩
      else if ix.root (.ofSize size) = some x then ix.links[x]?.map ({ · with pred := some b })
      else ix.links[x]? := by
  simp only [insert]
  cases hr : ix.root (.ofSize size) with
  | none => simp [Std.TreeMap.getElem?_insert, eq_comm (a := b)]
  | some r =>
      have hrb : r ≠ b := fun h => hroot (by rw [hr, h])
      simp only [Std.TreeMap.getElem?_modify, Std.TreeMap.getElem?_insert, compare_eq_iff_eq,
        Option.some.injEq]
      by_cases hx : x = b
      · subst hx
        simp [hrb]
      · by_cases hxr : r = x
        · subst hxr
          simp [hrb, Ne.symm hrb]
        · simp [hxr, hx, Ne.symm hx]

theorem Holds.insert (h : ix.Holds ls) (hb : ∀ c, b ∉ ls c) (size : Nat) :
    (ix.insert b size).Holds (ls.insert b size) where
  root c := by
    rw [root_insert, h.root]
    unfold Lists.insert
    split <;> simp
  linked {c xs x ys} hsplit := by
    have hroot : ix.root (.ofSize size) ≠ some b := fun hr => hb _ (h.mem_of_root hr)
    rw [links_insert ix b size x hroot]
    by_cases hc : c = SizeClass.ofSize size
    · subst hc
      simp only [Lists.insert, if_true] at hsplit
      cases xs with
      | nil =>
          obtain ⟨rfl, rfl⟩ := List.cons.inj hsplit
          simp [h.root]
      | cons y xs =>
          obtain ⟨rfl, htail⟩ := List.cons.inj hsplit
          have hx : x ∈ ls (SizeClass.ofSize size) := by rw [htail]; simp
          rw [if_neg (fun e => hb _ (e ▸ hx)), h.linked htail, h.root, htail]
          cases xs with
          | nil => simp
          | cons z xs =>
              have hz : z ≠ x := by
                have hn := h.nodup (.ofSize size)
                rw [htail] at hn
                rintro rfl
                simp at hn
              simp [hz]
    · simp only [Lists.insert, if_neg hc] at hsplit
      have hx : x ∈ ls c := by rw [hsplit]; simp
      rw [if_neg (fun e => hb _ (e ▸ hx)), if_neg (fun e => hc (h.apart hx (h.mem_of_root e))),
        h.linked hsplit]
  nodup c := by
    by_cases hc : c = SizeClass.ofSize size
    · rw [Lists.insert, if_pos hc]
      exact List.nodup_cons.mpr ⟨hb c, h.nodup c⟩
    · rw [Lists.insert, if_neg hc]
      exact h.nodup c
  apart {c d x} hc hd := by
    rw [Lists.mem_insert] at hc hd
    rcases hc with ⟨hx, hc⟩ | hc <;> rcases hd with ⟨hx', hd⟩ | hd
    · rw [hc, hd]
    · exact absurd (hx ▸ hd) (hb d)
    · exact absurd (hx' ▸ hc) (hb c)
    · exact h.apart hc hd
  listed {x} hx := by
    have hroot : ix.root (.ofSize size) ≠ some b := fun hr => hb _ (h.mem_of_root hr)
    rw [Std.TreeMap.mem_iff_isSome_getElem?, links_insert ix b size x hroot] at hx
    by_cases hxb : x = b
    · exact ⟨.ofSize size, Lists.mem_insert.mpr (.inl ⟨hxb, rfl⟩)⟩
    · have hmem : x ∈ ix.links := by
        rw [Std.TreeMap.mem_iff_isSome_getElem?]
        rw [if_neg hxb] at hx
        split at hx
        · simpa using hx
        · exact hx
      obtain ⟨c, hc⟩ := h.listed hmem
      exact ⟨c, Lists.mem_insert.mpr (.inr hc)⟩

-- The entries after the block that follows a removed one has learnt its new predecessor.
private theorem links_relinked (ix : Index) (before after : Option Block) (x : Nat) :
    (match after with
      | some s => (⟨ix.roots, ix.links.modify s ({ · with pred := before })⟩ : Index)
      | none => ix).links[x]? =
      ix.links[x]?.map fun l => ⟨if after = some x then before else l.pred, l.succ⟩ := by
  cases after with
  | none => simp
  | some s =>
      simp only [Std.TreeMap.getElem?_modify, compare_eq_iff_eq, Option.some.injEq]
      by_cases hs : s = x
      · subst hs
        simp
      · simp [hs]

-- Removing `b` joins the two neighbours that its entry names and leaves the other entries alone.
theorem links_remove {before after : Option Block} (hb : ix.links[b]? = some ⟨before, after⟩)
    (size x : Nat) :
    (ix.remove b size).links[x]? =
      if x = b then none
      else ix.links[x]?.map fun l =>
        ⟨if after = some x then before else l.pred, if before = some x then after else l.succ⟩ := by
  simp only [remove, hb]
  cases hp : before.filter (ix.links.erase b).contains with
  | some p =>
      obtain ⟨rfl, hmem⟩ := Option.filter_eq_some_iff.mp hp
      refine (links_relinked ⟨ix.roots, _⟩ (some p) after x).trans ?_
      simp only [Std.TreeMap.getElem?_modify, Std.TreeMap.getElem?_erase, compare_eq_iff_eq,
        Option.some.injEq, eq_comm (a := b)]
      by_cases hx : p = x
      · subst hx
        by_cases hpb : p = b <;> simp [hpb, Function.comp_def]
      · by_cases hxb : x = b
        · subst hxb
          simp [hx]
        · simp [hx, hxb]
  | none =>
      refine (links_relinked ⟨_, _⟩ before after x).trans ?_
      simp only [Std.TreeMap.getElem?_erase, compare_eq_iff_eq, eq_comm (a := b)]
      by_cases hxb : x = b
      · simp [hxb]
      · simp only [if_neg hxb]
        by_cases hbefore : before = some x
        · -- the predecessor has no entry, so there is nothing to join
          subst hbefore
          have hnone : ix.links[x]? = none := by
            simpa [Option.filter_some, Std.TreeMap.contains_erase, Ne.symm hxb] using hp
          simp [hnone]
        · simp [hbefore]

theorem root_remove {before after : Option Block} (hb : ix.links[b]? = some ⟨before, after⟩)
    (hbefore : ∀ p ∈ before, p ∈ ix.links ∧ p ≠ b) (size : Nat) (c : SizeClass) :
    (ix.remove b size).root c =
      if before = none ∧ c = SizeClass.ofSize size then after else ix.root c := by
  simp only [remove, hb, root]
  cases before with
  | none => cases after <;> simp [Vector.getElem_set, Fin.val_inj, eq_comm (a := c)]
  | some p =>
      obtain ⟨hp, hpb⟩ := hbefore p rfl
      have hfilter : (some p).filter (ix.links.erase b).contains = some p := by
        simp [Option.filter_some, Std.TreeMap.contains_erase, Ne.symm hpb, hp]
      cases after <;> simp [hfilter]

theorem remove_of_notMem (hb : b ∉ ix.links) (size : Nat) : ix.remove b size = ix := by
  have hnone : ix.links[b]? = none := by simpa using hb
  simp [remove, hnone]

-- Removing a block takes out its entry and no other.
theorem mem_links_remove (ix : Index) (b size x : Nat) :
    x ∈ (ix.remove b size).links ↔ x ≠ b ∧ x ∈ ix.links := by
  by_cases hb : b ∈ ix.links
  · obtain ⟨⟨before, after⟩, hentry⟩ :=
      Option.isSome_iff_exists.mp (Std.TreeMap.mem_iff_isSome_getElem?.mp hb)
    rw [Std.TreeMap.mem_iff_isSome_getElem?, links_remove hentry]
    by_cases hx : x = b
    · simp [hx]
    · simp [hx]
  · rw [remove_of_notMem hb]
    exact ⟨fun hx => ⟨fun e => hb (e ▸ hx), hx⟩, And.right⟩

-- The entry of `b` in a list that it splits in two.
theorem Holds.exists_split (h : ix.Holds ls) (hb : b ∈ ls c) :
    ∃ pre post, ls c = pre ++ b :: post ∧ (ls c).erase b = pre ++ post ∧ b ∉ pre ∧ b ∉ post ∧
      (∀ x ∈ pre, x ∉ post) ∧ ix.links[b]? = some ⟨pre.getLast?, post.head?⟩ := by
  obtain ⟨pre, post, hsplit⟩ := List.append_of_mem hb
  have hn := h.nodup c
  rw [hsplit] at hn
  obtain ⟨hpre, hpost, hdisjoint⟩ := List.nodup_append.mp hn
  have hb' : b ∉ pre := fun hm => hdisjoint b hm b List.mem_cons_self rfl
  refine ⟨pre, post, hsplit, ?_, hb', (List.nodup_cons.mp hpost).1,
    fun x hx hx' => hdisjoint x hx x (List.mem_cons_of_mem _ hx') rfl, h.linked hsplit⟩
  rw [hsplit, List.erase_append_right _ hb', List.erase_cons_head]

-- The list without `b`: only the neighbours of `b` have other entries than before.
private theorem Holds.linked_join (h : ix.Holds ls) (hb : b ∈ ls c)
    (hx : (ls c).erase b = xs ++ x :: ys) (size : Nat) :
    (ix.remove b size).links[x]? = some ⟨xs.getLast?, ys.head?⟩ := by
  obtain ⟨pre, post, hsplit, herase, hbpre, hbpost, hdisjoint, hentry⟩ := h.exists_split hb
  have hn : (pre ++ b :: post).Nodup := hsplit ▸ h.nodup c
  rw [links_remove hentry]
  rw [herase] at hx
  rcases List.append_eq_append_iff.mp hx with ⟨as, rfl, hpost⟩ | ⟨as, rfl, hys⟩
  · -- `x` stands behind `b`
    have hxpost : x ∈ post := by rw [hpost]; simp
    have hxb : x ≠ b := fun e => hbpost (e ▸ hxpost)
    have hold : ls c = (pre ++ b :: as) ++ x :: ys := by rw [hsplit, hpost]; simp
    have hbefore : pre.getLast? ≠ some x := fun e =>
      hdisjoint x (List.mem_of_mem_getLast? e) hxpost
    rw [if_neg hxb, h.linked hold, Option.map_some, if_neg hbefore]
    cases as with
    | nil => simp [hpost]
    | cons z as =>
        have hzx : z ≠ x := by
          rintro rfl
          rw [hpost] at hn
          simp [List.nodup_append] at hn
        simp [hpost, hzx]
  · cases as with
    | nil =>
        have hys' : post = x :: ys := by simpa using hys.symm
        have hxb : x ≠ b := fun e => hbpost (by rw [hys', e]; simp)
        have hold : ls c = (xs ++ [b]) ++ x :: ys := by rw [hsplit, hys']; simp
        have hbefore : xs.getLast? ≠ some x := fun e =>
          hdisjoint x (by simpa using List.mem_of_mem_getLast? e) (by rw [hys']; simp)
        simp [hxb, h.linked hold, hys', hbefore]
    | cons z as =>
        -- `x` stands before `b`
        obtain ⟨rfl, rfl⟩ := List.cons.inj hys
        have hxb : x ≠ b := fun e => hbpre (by rw [e]; simp)
        have hold : ls c = xs ++ x :: (as ++ b :: post) := by rw [hsplit]; simp
        have hafter : post.head? ≠ some x := fun e =>
          hdisjoint x (by simp) (List.mem_of_mem_head? e)
        rw [if_neg hxb, h.linked hold, Option.map_some, if_neg hafter]
        rcases List.eq_nil_or_concat as with rfl | ⟨front, last, rfl⟩
        · simp
        · have hlast : last ≠ x := by
            rintro rfl
            simp [List.nodup_append] at hn
          simp [List.getLast?_cons, List.getLast?_append, hlast]

theorem Holds.remove {size : Nat} (h : ix.Holds ls) (hb : b ∈ ls (.ofSize size)) :
    (ix.remove b size).Holds (ls.remove b size) := by
  obtain ⟨pre, post, hsplit, herase, hbpre, hbpost, -, hentry⟩ := h.exists_split hb
  have hpre : ∀ {x}, x ∈ pre → x ∈ ls (.ofSize size) := fun hx => by rw [hsplit]; simp [hx]
  have hpost : ∀ {x}, x ∈ post → x ∈ ls (.ofSize size) := fun hx => by rw [hsplit]; simp [hx]
  refine ⟨?_, ?_, ?_, ?_, ?_⟩
  · intro c
    have hbefore : ∀ p ∈ pre.getLast?, p ∈ ix.links ∧ p ≠ b := fun p hp =>
      have hmem := List.mem_of_mem_getLast? hp
      ⟨h.mem_links_iff.mpr ⟨_, hpre hmem⟩, fun e => hbpre (e ▸ hmem)⟩
    rw [root_remove hentry hbefore, h.root]
    unfold Lists.remove
    by_cases hc : c = SizeClass.ofSize size
    · subst hc
      rw [if_pos rfl, herase, hsplit]
      cases pre <;> simp
    · simp [hc]
  · intro c xs x ys hx
    by_cases hc : c = SizeClass.ofSize size
    · subst hc
      rw [Lists.remove, if_pos rfl] at hx
      exact h.linked_join hb hx size
    · rw [Lists.remove, if_neg hc] at hx
      have hmem : x ∈ ls c := by rw [hx]; simp
      have hne : ∀ {y}, y ∈ ls (.ofSize size) → y ≠ x := fun hy e =>
        hc (h.apart hmem (e ▸ hy))
      have hafter : post.head? ≠ some x := fun e => hne (hpost (List.mem_of_mem_head? e)) rfl
      have hbefore : pre.getLast? ≠ some x := fun e => hne (hpre (List.mem_of_mem_getLast? e)) rfl
      rw [links_remove hentry, if_neg (hne hb).symm, h.linked hx, Option.map_some, if_neg hafter,
        if_neg hbefore]
  · exact Lists.nodup_remove h.nodup b size
  · intro c d x hc hd
    exact h.apart (Lists.mem_of_mem_remove hc) (Lists.mem_of_mem_remove hd)
  · intro x hx
    rw [Std.TreeMap.mem_iff_isSome_getElem?, links_remove hentry] at hx
    have hxb : x ≠ b := by rintro rfl; simp at hx
    obtain ⟨c, hc⟩ := h.listed (b := x) (by simpa [hxb] using hx)
    exact ⟨c, Lists.mem_remove_of_ne hc hxb⟩

-- A walk from any place of a list meets the rest of the list.
theorem Holds.follow (h : ix.Holds ls) (hsplit : ls c = xs ++ ys) (count : Nat) :
    ix.follow count ys.head? = ys.take count := by
  induction count generalizing xs ys with
  | zero => rfl
  | succ count ih =>
      cases ys with
      | nil => rfl
      | cons b ys =>
          have hsucc : ix.succ b = ys.head? := by simp [succ, h.linked hsplit]
          have htail : ls c = (xs ++ [b]) ++ ys := by rw [hsplit]; simp
          simp only [List.head?_cons, Index.follow, hsucc, List.take_succ_cons]
          rw [ih htail]

theorem Holds.keys_perm (h : ix.Holds ls) : ix.links.keys.Perm (SizeClass.all.flatMap ls) := by
  rw [List.perm_ext_iff_of_nodup Std.TreeMap.nodup_keys]
  · intro b
    rw [Std.TreeMap.mem_keys, h.mem_links_iff, List.mem_flatMap]
    simp [SizeClass.all]
  · refine List.nodup_flatMap.mpr ⟨fun c _ => h.nodup c, ?_⟩
    apply (List.nodup_finRange classCount).imp
    intro c d hcd b hc hd
    exact hcd (h.apart hc hd)

theorem Holds.size_eq (h : ix.Holds ls) : ix.size = (SizeClass.all.flatMap ls).length := by
  rw [← h.keys_perm.length_eq, Std.TreeMap.length_keys]
  rfl

theorem Holds.length_le (h : ix.Holds ls) (c : SizeClass) : (ls c).length ≤ ix.size := by
  rw [h.size_eq, List.flatMap_def]
  exact (List.sublist_flatten_of_mem (List.mem_map_of_mem (List.mem_finRange c))).length_le

theorem Holds.chain_eq (h : ix.Holds ls) (c : SizeClass) : ix.chain c = ls c := by
  rw [chain, h.root]
  have hsplit : ls c = [] ++ ls c := rfl
  rw [h.follow hsplit, List.take_of_length_le]
  have := h.length_le c
  omega

theorem Holds.endless_eq (h : ix.Holds ls) (c : SizeClass) : ix.endless c = false := by
  have := h.length_le c
  simp only [endless, h.chain_eq, decide_eq_false_iff_not]
  omega

end

end Index

end SegregatedFit
