/-!
Faults: the ways in which an operation can leave the bytes or numbers that it may touch, or the program
can take for granted what it is not given. On a sound heap none of the former arises; forged tags, stale
handles and forged links can bring about each one.
-/

namespace SegregatedFit

inductive Fault where
  -- a byte outside the region was read or written
  | outOfBounds
  -- an offset or a size would be negative
  | underflow
  -- a tag word has no room for the size
  | oversizedTag
  -- there is no size class of that number
  | unknownClass
  -- the links of a size class form a cycle, so a search along them never ends
  | endlessList
  -- an error stood where the program counts on a value
  | unwrapped
deriving DecidableEq, Repr, Inhabited

-- Offsets and sizes are never negative, so taking too much away is a fault.
def subtract (a b : Nat) : Except Fault Nat :=
  if b ≤ a then .ok (a - b) else .error .underflow

theorem subtract_eq_ok {a b : Nat} (h : b ≤ a) : subtract a b = .ok (a - b) := by
  simp [subtract, h]

theorem subtract_eq_ok_iff {a b c : Nat} : subtract a b = .ok c ↔ b ≤ a ∧ a - b = c := by
  unfold subtract
  split <;> simp <;> omega

-- Steps that do not fail.
section

variable {ε α β : Type}

@[simp] theorem ok_bind (a : α) (f : α → Except ε β) : (Except.ok a >>= f) = f a := rfl

@[simp] theorem map_ok (f : α → β) (a : α) : f <$> (Except.ok a : Except ε α) = .ok (f a) := rfl

@[simp] theorem pure_eq_ok (a : α) : (pure a : Except ε α) = .ok a := rfl

theorem bind_eq_ok_iff {x : Except ε α} {f : α → Except ε β} {b : β} :
    (x >>= f) = .ok b ↔ ∃ a, x = .ok a ∧ f a = .ok b := by
  cases x with
  | error e => exact iff_of_false (fun h => nomatch h) fun ⟨_, h, _⟩ => nomatch h
  | ok a => exact ⟨fun h => ⟨a, rfl, h⟩, fun ⟨_, ha, h⟩ => Except.ok.inj ha ▸ h⟩

@[simp] theorem error_bind (e : ε) (f : α → Except ε β) : (Except.error e >>= f) = .error e := rfl

theorem bind_eq_error_iff {x : Except ε α} {f : α → Except ε β} {e : ε} :
    (x >>= f) = .error e ↔ x = .error e ∨ ∃ a, x = .ok a ∧ f a = .error e := by
  cases x with
  | error e' => simp
  | ok a => simp

end

end SegregatedFit
