import SegregatedFit.Block
import Std.Data.TreeMap

/-!
The index of free blocks: one doubly linked list per size class, newest block first. The links are
kept in a table beside the heap and never in the free bytes themselves.
-/

namespace SegregatedFit

structure Links where
  pred : Option Block
  succ : Option Block
deriving DecidableEq, Repr, Inhabited

structure Index where
  roots : Vector (Option Block) classCount
  links : Std.TreeMap Nat Links

namespace Index

def empty : Index := ⟨Vector.replicate classCount none, ∅⟩

instance : Inhabited Index := ⟨empty⟩

def root (ix : Index) (c : SizeClass) : Option Block := ix.roots[c]

def pred (ix : Index) (b : Block) : Option Block := ix.links[b]?.bind (·.pred)

def succ (ix : Index) (b : Block) : Option Block := ix.links[b]?.bind (·.succ)

def contains (ix : Index) (b : Block) : Bool := ix.links.contains b

-- Blocks over all classes.
def size (ix : Index) : Nat := ix.links.size

-- Puts `b` before the root of the class for `size`.
def insert (ix : Index) (b : Block) (size : Nat) : Index :=
  let c := SizeClass.ofSize size
  let old := ix.root c
  let links := ix.links.insert b ⟨none, old⟩
  let links := match old with
    | some r => links.modify r ({ · with pred := some b })
    | none => links
  ⟨ix.roots.set c (some b), links⟩

-- Takes `b`, filed under `size`, out of its list. The neighbours are joined; a block without a
-- listed predecessor is taken for the root of its class. A block that is not listed stays so.
def remove (ix : Index) (b : Block) (size : Nat) : Index :=
  match ix.links[b]? with
  | none => ix
  | some ⟨before, after⟩ =>
    let links := ix.links.erase b
    let ⟨roots, links⟩ : Index := match before.filter links.contains with
      | some p => ⟨ix.roots, links.modify p ({ · with succ := after })⟩
      | none => ⟨ix.roots.set (SizeClass.ofSize size) after, links⟩
    match after with
    | some s => ⟨roots, links.modify s ({ · with pred := before })⟩
    | none => ⟨roots, links⟩

-- The first `count` blocks met from `cursor` on, along the successor links.
def follow (ix : Index) : Nat → Option Block → List Block
  | 0, _ => []
  | _, none => []
  | count + 1, some b => b :: follow ix count (ix.succ b)

-- The blocks of a class from its root on. Only a linked block has a successor, so a list that ends
-- has at most one block more than there are links, and a longer one goes round in a cycle.
def chain (ix : Index) (c : SizeClass) : List Block := follow ix (ix.size + 2) (ix.root c)

def endless (ix : Index) (c : SizeClass) : Bool := ix.size + 1 < (ix.chain c).length

-- The items before the first one that occurred earlier.
def untilRepeat {α : Type} [BEq α] (xs : List α) : List α := go [] xs
where
  go (seen : List α) : List α → List α
    | [] => []
    | x :: xs => if seen.contains x then [] else x :: go (x :: seen) xs

-- The distinct blocks of a class, from the root on.
def members (ix : Index) (c : SizeClass) : List Block :=
  if ix.endless c then untilRepeat (ix.chain c) else ix.chain c

theorem follow_none (ix : Index) (count : Nat) : ix.follow count none = [] := by
  cases count <;> rfl

theorem length_follow_le (ix : Index) (count : Nat) (cursor : Option Block) :
    (ix.follow count cursor).length ≤ count := by
  induction count generalizing cursor with
  | zero => simp [follow]
  | succ count ih => cases cursor with
    | none => simp [follow]
    | some b => simpa [follow] using ih (ix.succ b)

end Index

end SegregatedFit
