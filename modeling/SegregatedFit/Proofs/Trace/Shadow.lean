import SegregatedFit.Trace.Replay
import Mathlib.Order.Interval.Finset.Nat
import Mathlib.Algebra.BigOperators.Group.Finset.Basic
import Mathlib.Algebra.BigOperators.Ring.Finset
import Mathlib.Data.List.Nodup

/-!
The shadow of a replay. The blocks of the live ids are kept twice, by id and by offset, and their sizes
are added up on the side. All three tell the same, and the live ranges do not meet each other, so that a
look at one of them tells whether a new range meets any.
-/

namespace SegregatedFit

section

variable {β : Type} {t : Std.TreeMap Nat β} {k k' : Nat} {v : β}

theorem getElem?_erase_nat : (t.erase k)[k']? = if k = k' then none else t[k']? := by
  simp only [Std.TreeMap.getElem?_erase, Nat.compare_eq_eq]

theorem getElem?_insert_nat : (t.insert k v)[k']? = if k = k' then some v else t[k']? := by
  simp only [Std.TreeMap.getElem?_insert, Nat.compare_eq_eq]

theorem nodup_toList (t : Std.TreeMap Nat β) : t.toList.Nodup :=
  t.ordered_keys_toList.imp fun {p q} hlt heq => by
    rw [heq, Nat.compare_eq_lt] at hlt
    exact Nat.lt_irrefl _ hlt

-- Taking an entry out of a map takes it out of its listing.
theorem toList_erase_perm (h : t[k]? = some v) : t.toList.Perm ((k, v) :: (t.erase k).toList) := by
  have hgone : (k, v) ∉ (t.erase k).toList := by
    simp [Std.TreeMap.mem_toList_iff_getElem?_eq_some]
  apply (List.perm_ext_iff_of_nodup (nodup_toList t)
    (List.nodup_cons.mpr ⟨hgone, nodup_toList _⟩)).mpr
  rintro ⟨k', v'⟩
  simp only [List.mem_cons, Std.TreeMap.mem_toList_iff_getElem?_eq_some, getElem?_erase_nat,
    Prod.mk.injEq]
  by_cases hk : k = k'
  · subst hk
    simp [h, eq_comm]
  · simp [hk, Ne.symm hk]

theorem toList_insert_perm (h : t[k]? = none) : (t.insert k v).toList.Perm ((k, v) :: t.toList) := by
  have hself : (t.insert k v)[k]? = some v := Std.TreeMap.getElem?_insert_self
  refine (toList_erase_perm hself).trans (.cons _ ?_)
  apply (List.perm_ext_iff_of_nodup (nodup_toList _) (nodup_toList t)).mpr
  rintro ⟨k', v'⟩
  simp only [Std.TreeMap.mem_toList_iff_getElem?_eq_some, getElem?_erase_nat, getElem?_insert_nat]
  by_cases hk : k = k'
  · subst hk
    simp [h]
  · simp [hk]

end

-- Ranges below a limit that do not meet each other are together no longer than it.
theorem sum_le_of_apart {ι : Type} (s : Finset ι) (start len : ι → Nat) {limit : Nat}
    (happart : ∀ i ∈ s, ∀ j ∈ s, i ≠ j → start i + len i ≤ start j ∨ start j + len j ≤ start i)
    (hinside : ∀ i ∈ s, start i + len i ≤ limit) : ∑ i ∈ s, len i ≤ limit := by
  classical
  let bytes : ι → Finset Nat := fun i => Finset.Ico (start i) (start i + len i)
  have hdisjoint : (s : Set ι).PairwiseDisjoint bytes := by
    intro i hi j hj hne
    refine Finset.disjoint_left.mpr fun x hx hx' => ?_
    have hbounds := Finset.mem_Ico.mp hx
    have hbounds' := Finset.mem_Ico.mp hx'
    have hmeet := happart i hi j hj hne
    omega
  have hsub : s.biUnion bytes ⊆ Finset.range limit := by
    intro x hx
    obtain ⟨i, hi, hx⟩ := Finset.mem_biUnion.mp hx
    have hbounds := Finset.mem_Ico.mp hx
    exact Finset.mem_range.mpr (Nat.lt_of_lt_of_le hbounds.2 (hinside i hi))
  calc ∑ i ∈ s, len i = ∑ i ∈ s, (bytes i).card := by simp [bytes]
    _ = (s.biUnion bytes).card := (Finset.card_biUnion hdisjoint).symm
    _ ≤ (Finset.range limit).card := Finset.card_le_card hsub
    _ = limit := Finset.card_range limit

namespace Replay

variable {ρ : Type} {r r' : Replay ρ} {id id' b size size' first stop : Nat}

-- The state with an id taken out, and the state over another allocator.
def without (r : Replay ρ) (id : Nat) (e : Live) : Replay ρ :=
  { r with
    live := r.live.erase id
    ranges := r.ranges.erase e.block
    liveBytes := r.liveBytes - e.size }

def atop (r : Replay ρ) (a : Allocator ρ) : Replay ρ := { r with allocator := a }

theorem release_eq {e : Live} (h : r.live[id]? = some e) :
    r.release id = some (e, r.without id e) := by
  rw [release, h]
  rfl

theorem getElem?_without {e e' : Live} :
    (r.without id e).live[id']? = some e' ↔ id' ≠ id ∧ r.live[id']? = some e' := by
  rw [without, getElem?_erase_nat]
  split <;> simp_all [eq_comm]

theorem ranges_without {e : Live} {b : Nat} : (r.without id e).ranges[b]? =
    if e.block = b then none else r.ranges[b]? :=
  getElem?_erase_nat

theorem ranges_enter : (r.enter id b size).ranges[b']? =
    if b = b' then some (b + size) else r.ranges[b']? :=
  getElem?_insert_nat

theorem getElem?_enter {b' : Nat} (hid : r.live[id]? = none) :
    (r.enter id b size).live[id']? = some ⟨b', size'⟩ ↔
      id = id' ∧ b = b' ∧ size = size' ∨ r.live[id']? = some ⟨b', size'⟩ := by
  rw [enter, getElem?_insert_nat]
  split <;> simp_all

-- Whatever the allocator does, the rest of the state stays as it is.
theorem eq_atop_of_update {f : Allocator ρ → Run (Allocator ρ)} (h : (r.update f).result = .ok r') :
    ∃ a, r' = r.atop a := by
  obtain ⟨a, live, ranges, liveBytes, peakLiveBytes⟩ := r
  obtain ⟨a', -, h⟩ := bind_eq_ok_iff.mp ((Run.result_bind ..).symm.trans h)
  exact ⟨a', (Except.ok.inj h).symm⟩

theorem eq_atop_of_allocate [Reserve ρ] {block : Option Block}
    (h : (r.allocate size).result = .ok (block, r')) : ∃ a, r' = r.atop a := by
  obtain ⟨a, live, ranges, liveBytes, peakLiveBytes⟩ := r
  obtain ⟨⟨block', a'⟩, -, h⟩ := bind_eq_ok_iff.mp ((Run.result_bind ..).symm.trans h)
  obtain ⟨-, rfl⟩ := Prod.mk.inj (Except.ok.inj h)
  exact ⟨a', rfl⟩

theorem eq_atop_of_reallocate [Reserve ρ] {block : Option Block}
    (h : (r.reallocate b size).result = .ok (block, r')) : ∃ a, r' = r.atop a := by
  obtain ⟨a, live, ranges, liveBytes, peakLiveBytes⟩ := r
  obtain ⟨⟨block', a'⟩, -, h⟩ := bind_eq_ok_iff.mp ((Run.result_bind ..).symm.trans h)
  obtain ⟨-, rfl⟩ := Prod.mk.inj (Except.ok.inj h)
  exact ⟨a', rfl⟩

-- In a list in order of its keys, what is found below a bound has the greatest such key.
theorem lastBelow_list {entries : List (Nat × Nat)} (hsorted : entries.Pairwise (·.1 < ·.1))
    (bound : Nat) :
    match entries.foldl (fun last e => if e.1 < bound then some (e.1, e.2) else last) none with
    | some e => e ∈ entries ∧ e.1 < bound ∧ ∀ e' ∈ entries, e'.1 < bound → e'.1 ≤ e.1
    | none => ∀ e' ∈ entries, bound ≤ e'.1 := by
  -- from the end of the list, where the last assignment is made
  induction entries using List.reverseRecOn with
  | nil => simp
  | append_singleton entries e ih =>
      obtain ⟨hfront, -, hbehind⟩ := List.pairwise_append.mp hsorted
      have ih := ih hfront
      rw [List.foldl_concat]
      by_cases he : e.1 < bound
      · rw [if_pos he]
        refine ⟨by simp, he, fun e' he' _ => ?_⟩
        rcases List.mem_append.mp he' with hmem | hmem
        · exact Nat.le_of_lt (hbehind e' hmem e (List.mem_singleton_self e))
        · rw [List.mem_singleton.mp hmem]
      · rw [if_neg he]
        cases hlast : entries.foldl (fun last e => if e.1 < bound then some (e.1, e.2) else last) none with
        | some last =>
          rw [hlast] at ih
          obtain ⟨hmem, hlt, hmax⟩ := ih
          refine ⟨List.mem_append_left _ hmem, hlt, fun e' he' hlt' => ?_⟩
          rcases List.mem_append.mp he' with hmem | hmem
          · exact hmax e' hmem hlt'
          · exact absurd (List.mem_singleton.mp hmem ▸ hlt') he
        | none =>
          rw [hlast] at ih
          intro e' he'
          rcases List.mem_append.mp he' with hmem | hmem
          · exact ih e' hmem
          · rw [List.mem_singleton.mp hmem]
            exact Nat.le_of_not_lt he

theorem lastBelow_spec (ranges : Std.TreeMap Nat Nat) (bound : Nat) :
    match lastBelow ranges bound with
    | some (b, stop) => ranges[b]? = some stop ∧ b < bound ∧
        ∀ b' stop' : Nat, ranges[b']? = some stop' → b' < bound → b' ≤ b
    | none => ∀ b' stop' : Nat, ranges[b']? = some stop' → bound ≤ b' := by
  have hsorted : ranges.toList.Pairwise (·.1 < ·.1) :=
    ranges.ordered_keys_toList.imp fun h => Nat.compare_eq_lt.mp h
  have hspec := lastBelow_list hsorted bound
  rw [← show lastBelow ranges bound = _ from Std.TreeMap.foldl_eq_foldl_toList] at hspec
  cases hlast : lastBelow ranges bound with
  | some last =>
      rw [hlast] at hspec
      obtain ⟨hmem, hlt, hmax⟩ := hspec
      refine ⟨Std.TreeMap.mem_toList_iff_getElem?_eq_some.mp hmem, hlt, fun b' stop' h' => ?_⟩
      exact hmax (b', stop') (Std.TreeMap.mem_toList_iff_getElem?_eq_some.mpr h')
  | none =>
      rw [hlast] at hspec
      exact fun b' stop' h' => hspec (b', stop') (Std.TreeMap.mem_toList_iff_getElem?_eq_some.mpr h')

-- The shadow state is consistent.
structure Shadow (r : Replay ρ) : Prop where
  ranges : ∀ b stop : Nat, r.ranges[b]? = some stop ↔
    ∃ id size : Nat, r.live[id]? = some ⟨b, size⟩ ∧ b + size = stop
  pos : ∀ id b size : Nat, r.live[id]? = some ⟨b, size⟩ → 0 < size
  apart : ∀ id id' b size b' size' : Nat, r.live[id]? = some ⟨b, size⟩ →
    r.live[id']? = some ⟨b', size'⟩ → id ≠ id' → b + size ≤ b' ∨ b' + size' ≤ b
  total : r.liveBytes = (r.live.toList.map (·.2.size)).sum

theorem shadow_start (a : Allocator ρ) : (start a).Shadow := by
  have hempty : (∅ : Std.TreeMap Nat Live).toList = [] := rfl
  refine ⟨?_, ?_, ?_, ?_⟩ <;> simp [start, hempty]

namespace Shadow

-- A new range meets a live one exactly when the test says so.
theorem overlaps_iff (hshadow : r.Shadow) : overlaps r.ranges first stop = true ↔
    ∃ id b size : Nat, r.live[id]? = some ⟨b, size⟩ ∧ b < stop ∧ first < b + size := by
  have hspec := lastBelow_spec r.ranges stop
  unfold overlaps
  cases hlast : lastBelow r.ranges stop with
  | some last =>
      rw [hlast] at hspec
      obtain ⟨b, last⟩ := last
      obtain ⟨hrange, hlt, hmax⟩ := hspec
      obtain ⟨id, size, hlive, hend⟩ := (hshadow.ranges b last).mp hrange
      simp only [decide_eq_true_eq]
      constructor
      · exact fun hmeets => ⟨id, b, size, hlive, hlt, hend ▸ hmeets⟩
      · rintro ⟨id', b', size', hlive', hlt', hmeets⟩
        have hle := hmax b' (b' + size') ((hshadow.ranges _ _).mpr ⟨id', size', hlive', rfl⟩) hlt'
        by_cases hid : id = id'
        · subst hid
          obtain ⟨rfl, rfl⟩ := Live.mk.inj (Option.some.inj (hlive.symm.trans hlive'))
          omega
        · have hpos := hshadow.pos id b size hlive
          have hpos' := hshadow.pos id' b' size' hlive'
          have hapart := hshadow.apart id id' b size b' size' hlive hlive' hid
          omega
  | none =>
      rw [hlast] at hspec
      simp only [Bool.false_eq_true, false_iff, not_exists, not_and]
      intro id b size hlive hlt
      have hle := hspec b (b + size) ((hshadow.ranges _ _).mpr ⟨id, size, hlive, rfl⟩)
      omega

-- Two live ids do not start at the same offset.
theorem inj (hshadow : r.Shadow) (h : r.live[id]? = some ⟨b, size⟩)
    (h' : r.live[id']? = some ⟨b, size'⟩) : id = id' := by
  by_contra hid
  have hpos := hshadow.pos id b size h
  have hpos' := hshadow.pos id' b size' h'
  have hapart := hshadow.apart id id' b size b size' h h' hid
  omega

-- The allocator has no part in it.
theorem atop (hshadow : r.Shadow) (a : Allocator ρ) : (r.atop a).Shadow :=
  ⟨hshadow.ranges, hshadow.pos, hshadow.apart, hshadow.total⟩

theorem size_le (hshadow : r.Shadow) (h : r.live[id]? = some ⟨b, size⟩) : size ≤ r.liveBytes := by
  rw [hshadow.total, ((toList_erase_perm h).map _).sum_eq]
  simp

-- Taking an id out leaves a shadow of the others.
theorem without (hshadow : r.Shadow) (h : r.live[id]? = some ⟨b, size⟩) :
    (r.without id ⟨b, size⟩).Shadow := by
  refine ⟨?_, ?_, ?_, ?_⟩
  · intro b' stop'
    simp only [getElem?_without, ranges_without]
    by_cases hb : b = b'
    · subst hb
      simp only [if_true, reduceCtorEq, false_iff]
      rintro ⟨id', size', ⟨hid, hlive⟩, -⟩
      exact hid (hshadow.inj hlive h)
    · simp only [hb, if_false, hshadow.ranges]
      refine exists_congr fun id' => exists_congr fun size' => and_congr_left fun _ => ?_
      refine ⟨fun hlive => ⟨?_, hlive⟩, And.right⟩
      rintro rfl
      exact hb (Live.mk.inj (Option.some.inj (h.symm.trans hlive))).1
  · exact fun id' b' size' h' => hshadow.pos id' b' size' (getElem?_without.mp h').2
  · exact fun id₁ id₂ b₁ size₁ b₂ size₂ h₁ h₂ =>
      hshadow.apart id₁ id₂ b₁ size₁ b₂ size₂ (getElem?_without.mp h₁).2 (getElem?_without.mp h₂).2
  · have hsum := ((toList_erase_perm h).map (·.2.size)).sum_eq
    have htotal := hshadow.total
    simp only [List.map_cons, List.sum_cons] at hsum
    simp only [Replay.without]
    omega

theorem ne_of_without (hshadow : r.Shadow) (h : r.live[id]? = some ⟨b, size⟩)
    (h' : (r.without id ⟨b, size⟩).live[id']? = some ⟨b', size'⟩) : b' ≠ b := by
  obtain ⟨hid, hlive⟩ := getElem?_without.mp h'
  rintro rfl
  exact hid (hshadow.inj hlive h)

-- A range that meets no live one may be entered for an id that is not live.
theorem enter (hshadow : r.Shadow) (hid : r.live[id]? = none) (hsize : 0 < size)
    (hfree : overlaps r.ranges b (b + size) = false) : (r.enter id b size).Shadow := by
  have happart : ∀ id' b' size' : Nat, r.live[id']? = some ⟨b', size'⟩ →
      b + size ≤ b' ∨ b' + size' ≤ b := by
    intro id' b' size' hlive
    by_contra hmeets
    have hoverlaps : overlaps r.ranges b (b + size) = true :=
      hshadow.overlaps_iff.mpr ⟨id', b', size', hlive, by omega, by omega⟩
    rw [hfree] at hoverlaps
    cases hoverlaps
  refine ⟨?_, ?_, ?_, ?_⟩
  · intro b' stop'
    simp only [getElem?_enter hid, ranges_enter]
    by_cases hb : b = b'
    · subst hb
      simp only [if_true, Option.some.injEq]
      constructor
      · rintro rfl
        exact ⟨id, size, .inl ⟨rfl, trivial, rfl⟩, rfl⟩
      · rintro ⟨id', size', ⟨-, -, rfl⟩ | hlive, hstop⟩
        · exact hstop
        · have hpos := hshadow.pos id' b size' hlive
          have hmeets := happart id' b size' hlive
          omega
    · simp only [hb, if_false, hshadow.ranges, false_and, and_false, false_or]
  · intro id' b' size' h'
    rcases (getElem?_enter hid).mp h' with ⟨-, -, rfl⟩ | hlive
    · exact hsize
    · exact hshadow.pos id' b' size' hlive
  · intro id₁ id₂ b₁ size₁ b₂ size₂ h₁ h₂ hne
    rcases (getElem?_enter hid).mp h₁ with ⟨rfl, rfl, rfl⟩ | hlive₁ <;>
      rcases (getElem?_enter hid).mp h₂ with ⟨rfl, rfl, rfl⟩ | hlive₂
    · exact absurd rfl hne
    · exact happart id₂ b₂ size₂ hlive₂
    · exact (happart id₁ b₁ size₁ hlive₁).symm
    · exact hshadow.apart id₁ id₂ b₁ size₁ b₂ size₂ hlive₁ hlive₂ hne
  · have hsum := ((toList_insert_perm (v := (⟨b, size⟩ : Live)) hid).map (·.2.size)).sum_eq
    have htotal := hshadow.total
    simp only [List.map_cons, List.sum_cons] at hsum
    simp only [Replay.enter]
    omega

-- Live ranges inside a heap ask for no more bytes than it has.
theorem liveBytes_le (hshadow : r.Shadow) {limit : Nat}
    (hinside : ∀ id b size : Nat, r.live[id]? = some ⟨b, size⟩ → b + size ≤ limit) :
    r.liveBytes ≤ limit := by
  have hmem : ∀ e ∈ r.live.toList.toFinset, r.live[e.1]? = some ⟨e.2.block, e.2.size⟩ := fun e he =>
    Std.TreeMap.mem_toList_iff_getElem?_eq_some.mp (List.mem_toFinset.mp he)
  rw [hshadow.total, ← List.sum_toFinset _ (nodup_toList r.live)]
  refine sum_le_of_apart _ (·.2.block) (·.2.size) ?_ fun e he => hinside _ _ _ (hmem e he)
  intro e he e' he' hne
  refine hshadow.apart _ _ _ _ _ _ (hmem e he) (hmem e' he') fun hid => hne ?_
  obtain ⟨id, live⟩ := e
  obtain ⟨id', live'⟩ := e'
  obtain rfl : id = id' := hid
  exact congrArg _ (Option.some.inj ((hmem _ he).symm.trans (hmem _ he')))

end Shadow

end Replay

end SegregatedFit
