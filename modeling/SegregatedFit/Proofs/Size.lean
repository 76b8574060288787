import SegregatedFit.Size
import Mathlib.Data.List.FinRange

/-!
Sizes. A size that is rounded up is the least multiple of the alignment unit above, and a larger block
is never filed under a lower class.
-/

namespace SegregatedFit

theorem alignUp_spec (n : Nat) : alignUp n % 8 = 0 ∧ n ≤ alignUp n ∧ alignUp n < n + 8 := by
  simp only [alignUp, alignment]
  omega

theorem alignUp_eq_self {n : Nat} (h : n % 8 = 0) : alignUp n = n := by
  simp only [alignUp, alignment]
  omega

-- The block that serves a request has room for it between the two tags, and no smaller one has.
theorem blockSizeFor_spec {request need : Nat} (h : blockSizeFor request = some need) :
    (need % 8 = 0 ∧ 16 ≤ need ∧ need ≤ 4294967288 ∧ request + 8 ≤ need) ∧
      ∀ n, n % 8 = 0 → 16 ≤ n → request + 8 ≤ n → need ≤ n := by
  have halign := alignUp_spec (request + overhead)
  have hoverhead : overhead = 8 := rfl
  have hmin : minBlockSize = 16 := rfl
  have hmax : maxBlockSize = 4294967288 := rfl
  unfold blockSizeFor at h
  by_cases hsmall : request ≤ overhead
  · rw [if_pos hsmall] at h
    obtain rfl := Option.some.inj h
    refine ⟨?_, ?_⟩ <;> omega
  · rw [if_neg hsmall] at h
    by_cases hfits : alignUp (request + overhead) ≤ maxBlockSize
    · obtain rfl := Option.some.inj ((if_pos hfits).symm.trans h)
      refine ⟨?_, ?_⟩ <;> omega
    · cases (if_neg hfits).symm.trans h

-- The requests that no tag can describe a block for.
theorem blockSizeFor_eq_none_iff {request : Nat} :
    blockSizeFor request = none ↔ maxBlockSize - 8 < request := by
  have halign := alignUp_spec (request + overhead)
  have hoverhead : overhead = 8 := rfl
  have hmax : maxBlockSize = 4294967288 := rfl
  unfold blockSizeFor
  by_cases hsmall : request ≤ overhead
  · rw [if_pos hsmall]
    exact iff_of_false (fun h => nomatch h) (by omega)
  · rw [if_neg hsmall]
    by_cases hfits : alignUp (request + overhead) ≤ maxBlockSize
    · rw [if_pos hfits]
      exact iff_of_false (fun h => nomatch h) (by omega)
    · rw [if_neg hfits]
      exact iff_of_true rfl (by omega)

-- A block that is too small for a request has no more payload than is asked for.
theorem le_of_lt_blockSizeFor {request need size : Nat} (h : blockSizeFor request = some need)
    (haligned : size % 8 = 0) (hmin : 16 ≤ size) (hlt : size < need) : size ≤ request + 8 := by
  by_contra hgap
  have hleast := (blockSizeFor_spec h).2 size haligned hmin (by omega)
  omega

namespace SizeClass

private theorem length_takeWhile_le {p q : Nat → Bool} (h : ∀ x, p x = true → q x = true)
    (xs : List Nat) : (xs.takeWhile p).length ≤ (xs.takeWhile q).length := by
  induction xs with
  | nil => exact Nat.le_refl _
  | cons x xs ih =>
      cases hp : p x with
      | false => simp [List.takeWhile_cons, hp]
      | true => simpa [List.takeWhile_cons, hp, h x hp] using ih

theorem ofSize_mono {size size' : Nat} (h : size ≤ size') : ofSize size ≤ ofSize size' :=
  length_takeWhile_le (by simp only [decide_eq_true_eq]; omega) bounds

theorem mem_fitting {c : SizeClass} {need : Nat} : c ∈ fitting need ↔ ofSize need ≤ c := by
  simp [fitting, all]

theorem fitting_pairwise (need : Nat) : (fitting need).Pairwise (· < ·) :=
  (List.pairwise_lt_finRange classCount).filter _

end SizeClass

end SegregatedFit
