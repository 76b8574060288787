import SegregatedFit.Proofs.Heap.Filing
import SegregatedFit.Proofs.Size
import Mathlib.Data.List.MinMax

/-!
The search for a free block. A search of one list finds the first among the smallest blocks that fit,
and a search of all lists the one of the first list that has any. Since a larger block is never filed
under a lower class, a search that finds nothing has missed nothing.
-/

namespace SegregatedFit

namespace Heap

variable {m : Memory} {need : Nat} {sizeAt : Nat → Nat}

-- Blocks that are no smaller than the one found so far do not change the choice.
private theorem argmin_append {b : Nat} {xs ys : List Nat} (h : xs.argmin sizeAt = some b)
    (hys : ∀ x ∈ ys, sizeAt b ≤ sizeAt x) : (xs ++ ys).argmin sizeAt = some b := by
  induction ys using List.reverseRecOn with
  | nil => simpa using h
  | append_singleton ys y ih =>
      have hy := hys y (by simp)
      rw [← List.append_assoc, List.argmin_concat, ih fun x hx => hys x (by simp [hx])]
      exact if_neg (by omega)

-- What the search remembers after it has gone through `seen`.
private structure Best (sizeAt : Nat → Nat) (need : Nat) (seen : List Nat)
    (best : Option (Nat × Nat)) : Prop where
  choice : best.map (·.1) = (seen.filter (need ≤ sizeAt ·)).argmin sizeAt
  size : ∀ b size, best = some (b, size) → size = sizeAt b ∧ need < size

namespace Best

variable {seen : List Nat} {best : Option (Nat × Nat)} {b : Nat}

private theorem skip (h : Best sizeAt need seen best) (hb : sizeAt b < need) :
    Best sizeAt need (seen ++ [b]) best := by
  refine ⟨?_, h.size⟩
  rw [List.filter_append, List.filter_cons_of_neg (by simpa using hb)]
  simpa using h.choice

-- A block that fits is chosen when it is smaller than the choice so far.
private theorem choice_concat (h : Best sizeAt need seen best) (hb : need ≤ sizeAt b) :
    ((seen ++ [b]).filter (need ≤ sizeAt ·)).argmin sizeAt =
      if best.all (sizeAt b < ·.2) then some b else best.map (·.1) := by
  rw [List.filter_append, List.filter_cons_of_pos (by simpa using hb), List.filter_nil,
    List.argmin_concat, ← h.choice]
  cases hbest : best with
  | none => rfl
  | some found =>
      obtain ⟨b', size⟩ := found
      obtain ⟨rfl, -⟩ := h.size b' size hbest
      simp

private theorem step (h : Best sizeAt need seen best) (hb : need < sizeAt b) :
    Best sizeAt need (seen ++ [b])
      (if best.all (sizeAt b < ·.2) then some (b, sizeAt b) else best) := by
  refine ⟨?_, ?_⟩
  · rw [h.choice_concat (Nat.le_of_lt hb)]
    split <;> rfl
  · intro b' size hbest
    split at hbest
    · obtain ⟨rfl, rfl⟩ := Prod.mk.inj (Option.some.inj hbest)
      exact ⟨rfl, hb⟩
    · exact h.size b' size hbest

-- Nothing is smaller than an exact fit, and what was found before is larger.
private theorem exact_fit (h : Best sizeAt need seen best) (hb : sizeAt b = need) (rest : List Nat) :
    ((seen ++ b :: rest).filter (need ≤ sizeAt ·)).argmin sizeAt = some b := by
  have hall : best.all (sizeAt b < ·.2) = true := by
    cases hbest : best with
    | none => rfl
    | some found => simpa [hb] using (h.size found.1 found.2 hbest).2
  have hchoice := h.choice_concat (Nat.le_of_eq hb.symm)
  rw [if_pos hall] at hchoice
  rw [List.append_cons, List.filter_append]
  exact argmin_append hchoice fun x hx => by
    have hx := (List.mem_filter.mp hx).2
    simpa [hb] using hx

end Best

theorem bestOf_eq {seen rest : List Nat} {best : Option (Nat × Nat)}
    (hsize : ∀ b ∈ rest, Block.size m b = .ok (sizeAt b)) (hbest : Best sizeAt need seen best) :
    bestOf m need false best rest =
      .ok (((seen ++ rest).filter (need ≤ sizeAt ·)).argmin sizeAt) := by
  induction rest generalizing seen best with
  | nil => simp [bestOf, hbest.choice]
  | cons b rest ih =>
      have hrest := fun x hx => hsize x (List.mem_cons_of_mem _ hx)
      simp only [bestOf, hsize b List.mem_cons_self, ok_bind, pure_eq_ok]
      by_cases hexact : sizeAt b = need
      · rw [if_pos hexact, hbest.exact_fit hexact]
      · rw [if_neg hexact, List.append_cons]
        by_cases hfits : need < sizeAt b
        · simpa [hfits] using ih hrest (hbest.step hfits)
        · simpa [hfits] using ih hrest (hbest.skip (b := b) (by omega))

-- The whole search: the first smallest fit of the first list that has a fit.
theorem findFit_eq {h : Heap} {ls : Lists} (hholds : h.index.Holds ls)
    (hsize : ∀ c, ∀ b ∈ ls c, Block.size h.memory b = .ok (sizeAt b)) :
    h.findFit need = .ok ((SizeClass.fitting need).findSome? fun c =>
      ((ls c).filter (need ≤ sizeAt ·)).argmin sizeAt) := by
  unfold findFit
  generalize SizeClass.fitting need = cs
  induction cs with
  | nil => rfl
  | cons c cs ih =>
      have hstart : Best sizeAt need [] none := ⟨rfl, fun _ _ hbest => nomatch hbest⟩
      have hbest := bestOf_eq (hsize c) hstart
      simp only [findFit.search, hholds.endless_eq, hholds.chain_eq, hbest, ok_bind, List.nil_append,
        List.findSome?_cons]
      cases ((ls c).filter (need ≤ sizeAt ·)).argmin sizeAt with
      | none => exact ih
      | some b => rfl

variable {h : Heap} {bs : List BlockInfo} {ls : Lists}

-- What is found is a smallest of the free blocks that are large enough. Blocks of a lower class are
-- smaller than all blocks of a higher one, so the first class that has a fit has the best one.
theorem findFit_spec (hsound : h.Sound bs ls) (need : Nat) :
    (∃ b size, h.findFit need = .ok (some b) ∧ ⟨b, size, false⟩ ∈ bs ∧ need ≤ size ∧
        ∀ i ∈ bs, i.allocated = false → need ≤ i.size → size ≤ i.size) ∨
      (h.findFit need = .ok none ∧ ∀ i ∈ bs, i.allocated = false → i.size < need) := by
  let sizeAt : Nat → Nat := fun b => (Block.size h.memory b).toOption.getD 0
  have hread : ∀ i ∈ bs, Block.size h.memory i.offset = .ok (sizeAt i.offset) ∧
      sizeAt i.offset = i.size := fun i hi => by
    simp [sizeAt, hsound.laid.size_eq hi, Except.toOption]
  have hlisted : ∀ c, ∀ b ∈ ls c, ∃ size, ⟨b, size, false⟩ ∈ bs ∧ SizeClass.ofSize size = c :=
    fun c b => (hsound.filed c b).mp
  -- a free block that fits is among the candidates of its class
  have hcandidate : ∀ i ∈ bs, i.allocated = false → need ≤ i.size →
      i.offset ∈ (ls (.ofSize i.size)).filter (need ≤ sizeAt ·) := fun i hi hfree hfits =>
    List.mem_filter.mpr ⟨hsound.filed.mem (hfree ▸ hi), by simpa [(hread i hi).2] using hfits⟩
  rw [findFit_eq hsound.holds fun c b hb => by
    obtain ⟨size, hmem, -⟩ := hlisted c b hb
    exact (hread _ hmem).1]
  cases hfound : (SizeClass.fitting need).findSome? fun c =>
      ((ls c).filter (need ≤ sizeAt ·)).argmin sizeAt with
  | some b =>
      obtain ⟨before, c, after, hclasses, hb, hbefore⟩ := List.findSome?_eq_some_iff.mp hfound
      obtain ⟨hlist, hfits⟩ := List.mem_filter.mp (List.argmin_mem hb)
      obtain ⟨size, hmem, hclass⟩ := hlisted c b hlist
      have hsize : sizeAt b = size := (hread _ hmem).2
      refine .inl ⟨b, size, rfl, hmem, by simpa [hsize] using hfits, ?_⟩
      intro i hi hfree hfits
      have hi' := hcandidate i hi hfree hfits
      have hfit : SizeClass.ofSize i.size ∈ before ++ c :: after :=
        hclasses ▸ SizeClass.mem_fitting.mpr (SizeClass.ofSize_mono hfits)
      rcases List.mem_append.mp hfit with hlower | hfit
      · exact absurd (List.argmin_eq_none.mp (hbefore _ hlower)) (List.ne_nil_of_mem hi')
      rcases List.mem_cons.mp hfit with hsame | hhigher
      · have hle := List.le_of_mem_argmin (hsame ▸ hi') hb
        rwa [hsize, (hread i hi).2] at hle
      · have hordered := hclasses ▸ SizeClass.fitting_pairwise need
        have hlt := (List.pairwise_cons.mp (List.pairwise_append.mp hordered).2.1).1 _ hhigher
        apply Nat.le_of_not_lt
        intro hsmaller
        apply Nat.not_le_of_lt hlt
        exact hclass ▸ SizeClass.ofSize_mono (Nat.le_of_lt hsmaller)
  | none =>
      refine .inr ⟨rfl, ?_⟩
      intro i hi hfree
      apply Nat.lt_of_not_le
      intro hfits
      have hclass := SizeClass.mem_fitting.mpr (SizeClass.ofSize_mono hfits)
      have hnone := List.findSome?_eq_none_iff.mp hfound _ hclass
      exact List.ne_nil_of_mem (hcandidate i hi hfree hfits) (List.argmin_eq_none.mp hnone)

end Heap

end SegregatedFit
