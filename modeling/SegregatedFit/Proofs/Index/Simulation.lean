import SegregatedFit.Proofs.Index.Lists
import Mathlib.Algebra.GroupWithZero.Nat

/-!
The index in use. However blocks are filed and taken out again, the index answers what twenty lists would
answer of which a block that is filed becomes the first and from which one that is taken out is deleted.
-/

namespace SegregatedFit

-- A change of the index.
inductive Edit where
  | insert (b : Block) (size : Nat)
  | remove (b : Block) (size : Nat)
deriving DecidableEq, Repr

namespace Edit

def onIndex (ix : Index) : Edit → Index
  | insert b size => ix.insert b size
  | remove b size => ix.remove b size

def onLists (ls : Lists) : Edit → Lists
  | insert b size => ls.insert b size
  | remove b size => ls.remove b size

-- A block is filed while no list has it, and taken out under the class that it is filed under. One that
-- no list has may be taken out under any class.
def Admissible (ls : Lists) : Edit → Prop
  | insert b _ => ∀ c, b ∉ ls c
  | remove b size => (∃ c, b ∈ ls c) → b ∈ ls (.ofSize size)

instance (ls : Lists) (e : Edit) : Decidable (e.Admissible ls) :=
  match e with
  | insert b _ => inferInstanceAs (Decidable (∀ c : SizeClass, b ∉ ls c))
  | remove b size => inferInstanceAs (Decidable ((∃ c : SizeClass, b ∈ ls c) → b ∈ ls (.ofSize size)))

-- Every edit is admissible for the lists that those before it have led to.
def Valid : Lists → List Edit → Prop
  | _, [] => True
  | ls, e :: rest => e.Admissible ls ∧ Valid (e.onLists ls) rest

instance decidableValid : (ls : Lists) → (edits : List Edit) → Decidable (Valid ls edits)
  | _, [] => .isTrue trivial
  | ls, e :: rest =>
    have := decidableValid (e.onLists ls) rest
    inferInstanceAs (Decidable (e.Admissible ls ∧ Valid (e.onLists ls) rest))

end Edit

variable {ix : Index} {ls : Lists}

-- What an index answers that stands for the lists `ls`.
structure Index.Simulates (ix : Index) (ls : Lists) : Prop where
  root : ∀ c, ix.root c = (ls c).head?
  -- a walk from the root meets the blocks of the list in order, and ends behind the last one
  walk : ∀ c count, ix.follow count (ix.root c) = (ls c).take count
  chain : ∀ c, ix.chain c = ls c
  endless : ∀ c, ix.endless c = false
  pred : ∀ {c xs b ys}, ls c = xs ++ b :: ys → ix.pred b = xs.getLast?
  succ : ∀ {c xs b ys}, ls c = xs ++ b :: ys → ix.succ b = ys.head?
  contains : ∀ b, ix.contains b ↔ ∃ c, b ∈ ls c
  size : ix.size = (SizeClass.all.map fun c => (ls c).length).sum
  -- to take out a block that is not listed changes nothing
  unlisted : ∀ b, (∀ c, b ∉ ls c) → ∀ size, ix.remove b size = ix ∧ ls.remove b size = ls

namespace Index

theorem Holds.simulates (h : ix.Holds ls) : ix.Simulates ls where
  root := h.root
  walk c count := by
    have hwhole : ls c = [] ++ ls c := rfl
    rw [h.root]
    exact h.follow hwhole count
  chain := h.chain_eq
  endless := h.endless_eq
  pred hsplit := by simp [Index.pred, h.linked hsplit]
  succ hsplit := by simp [Index.succ, h.linked hsplit]
  contains b := by rw [Index.contains, Std.TreeMap.contains_iff_mem, h.mem_links_iff]
  size := by rw [h.size_eq, List.length_flatMap]
  unlisted b hb size := by
    refine ⟨remove_of_notMem (fun hmem => ?_) size, Lists.remove_of_notMem (hb _)⟩
    obtain ⟨c, hc⟩ := h.listed hmem
    exact hb c hc

theorem Holds.edit (h : ix.Holds ls) {e : Edit} (hadmissible : e.Admissible ls) :
    (e.onIndex ix).Holds (e.onLists ls) := by
  cases e with
  | insert b size => exact h.insert hadmissible size
  | remove b size =>
      by_cases hlisted : ∃ c, b ∈ ls c
      · exact h.remove (hadmissible hlisted)
      · have hb : ∀ c, b ∉ ls c := not_exists.mp hlisted
        obtain ⟨hindex, hlists⟩ := h.simulates.unlisted b hb size
        simpa only [Edit.onIndex, Edit.onLists, hindex, hlists] using h

theorem Holds.edits {edits before : List Edit} (h : ix.Holds ls) (hvalid : Edit.Valid ls edits)
    (hbefore : before <+: edits) :
    (before.foldl Edit.onIndex ix).Holds (before.foldl Edit.onLists ls) := by
  induction edits generalizing ix ls before with
  | nil =>
      obtain rfl := List.prefix_nil.mp hbefore
      exact h
  | cons e rest ih =>
      cases before with
      | nil => exact h
      | cons e' before =>
          obtain ⟨rfl, hrest⟩ := List.cons_prefix_cons.mp hbefore
          rw [List.foldl_cons, List.foldl_cons]
          exact ih (h.edit hvalid.1) hvalid.2 hrest

-- At every point of every sequence of edits the index stands for the lists.
theorem simulates_lists {edits before : List Edit} (hvalid : Edit.Valid .empty edits)
    (hbefore : before <+: edits) :
    (before.foldl Edit.onIndex .empty).Simulates (before.foldl Edit.onLists .empty) :=
  (holds_empty.edits hvalid hbefore).simulates

-- A block is taken out of the middle of its list and another one from its front; one is not listed.
theorem simulates_lists_relinked :
    let edits : List Edit := [.insert 16 48, .insert 64 48, .insert 128 48, .insert 256 48,
      .remove 64 48, .remove 512 48, .insert 512 8192, .remove 256 48]
    Edit.Valid .empty edits ∧ (edits.foldl Edit.onIndex .empty).Simulates (edits.foldl Edit.onLists .empty) ∧
      edits.foldl Edit.onLists .empty (.ofSize 48) = [128, 16] := by
  intro edits
  have hvalid : Edit.Valid .empty edits := by decide
  exact ⟨hvalid, simulates_lists hvalid (List.prefix_refl _), by decide⟩

end Index

end SegregatedFit
