import SegregatedFit.Proofs.Memory.Frame

/-!
Bytes that follow a pattern: those that are written from one, and the test that finds them again.
-/

namespace SegregatedFit

theorem size_tabulate (count : Nat) (f : Nat → UInt8) : (tabulate count f).size = count := by
  induction count with
  | zero => rfl
  | succ count ih =>
      rw [tabulate, Nat.fold_succ, ByteArray.size_push]
      exact congrArg (· + 1) ih

theorem getElem?_tabulate {count k : Nat} (f : Nat → UInt8) (hk : k < count) :
    (tabulate count f)[k]? = some (f k) := by
  induction count with
  | zero => exact absurd hk (Nat.not_lt_zero k)
  | succ count ih =>
      have hfold : tabulate (count + 1) f = (tabulate count f).push (f count) := Nat.fold_succ ..
      have hsize : (tabulate count f).data.size = count := size_tabulate count f
      rw [hfold, Memory.getElem?_bytes, ByteArray.data_push, Array.getElem?_push, hsize]
      by_cases hlast : k = count
      · rw [if_pos hlast, hlast]
      · rw [if_neg hlast, ← Memory.getElem?_bytes]
        exact ih (by omega)

theorem Memory.agrees_iff {m : Memory} {pos count : Nat} {f : Nat → UInt8} :
    m.agrees pos f count = true ↔ ∀ k < count, m.bytes[pos + k]? = some (f k) := by
  induction count with
  | zero => simp [agrees]
  | succ count ih =>
      rw [agrees, Bool.and_eq_true, beq_iff_eq, ih]
      constructor
      · rintro ⟨hlast, hfront⟩ k hk
        by_cases heq : k = count
        · exact heq ▸ hlast
        · exact hfront k (by omega)
      · exact fun h => ⟨h count (by omega), fun k hk => h k (by omega)⟩

end SegregatedFit
