import SegregatedFit.Proofs.Index.Lists
import SegregatedFit.Proofs.Machine.Block
import SegregatedFit.Proofs.Size
import Mathlib.Order.Bounds.Basic

/-!
From a request to the lists that are searched for it. The size of the block that a request needs is computed
with words, its tags hold it, and the search goes through every list into which a block of this size, or of
a larger one, is ever put.
-/

namespace SegregatedFit

theorem isSome_blockSizeFor_iff {request : Nat} :
    (blockSizeFor request).isSome ↔ request + overhead ≤ maxBlockSize := by
  rw [Option.isSome_iff_ne_none, ne_eq, blockSizeFor_eq_none_iff]
  simp only [overhead, maxBlockSize]
  omega

theorem isLeast_of_blockSizeFor {request need : Nat} (h : blockSizeFor request = some need) :
    IsLeast {n | n % alignment = 0 ∧ minBlockSize ≤ n ∧ request + overhead ≤ n} need := by
  obtain ⟨⟨haligned, hmin, -, hroom⟩, hleast⟩ := blockSizeFor_spec h
  refine ⟨⟨haligned, hmin, hroom⟩, ?_⟩
  rintro n ⟨haligned', hmin', hroom'⟩
  exact hleast n haligned' hmin' hroom'

-- The newest block is the root of its list, whatever else the index is like.
theorem Index.mem_chain_insert (ix : Index) (b size : Nat) :
    b ∈ (ix.insert b size).chain (.ofSize size) := by
  rw [chain, root_insert, if_pos rfl]
  exact List.mem_cons_self

namespace Heap

variable {m : Memory} {h : Heap} {need : Nat}

-- A block that has been met is kept until a better one is found. The links may form a cycle and the tags may
-- be damaged: the search stops with a fault then, and does not report that there is no block.
theorem bestOf_ne_none {endless : Bool} {best : Option (Block × Nat)} {bs : List Block}
    (hfit : best.isSome ∨ ∃ b ∈ bs, ∃ size, Block.size m b = .ok size ∧ need ≤ size) :
    bestOf m need endless best bs ≠ .ok none := by
  induction bs generalizing best with
  | nil =>
      obtain ⟨⟨b, size⟩, rfl⟩ := Option.isSome_iff_exists.mp (hfit.resolve_right (by simp))
      cases endless <;> simp [bestOf]
  | cons b bs ih =>
      rw [bestOf]
      cases hread : Block.size m b with
      | error fault => exact fun h => nomatch h
      | ok size =>
          rw [ok_bind]
          by_cases hexact : size = need
          · rw [if_pos hexact]
            exact fun h => nomatch h
          rw [if_neg hexact]
          apply ih
          rcases hfit with hbest | ⟨b', hb', size', hread', hfits⟩
          · left
            split
            · rfl
            · exact hbest
          rcases List.mem_cons.mp hb' with rfl | hlater
          swap
          · exact .inr ⟨b', hlater, size', hread', hfits⟩
          obtain rfl : size = size' := Except.ok.inj (hread.symm.trans hread')
          left
          cases best with
          | none =>
              have hbetter : need < size := Nat.lt_of_le_of_ne hfits (Ne.symm hexact)
              simp [hbetter]
          | some found => split <;> rfl

theorem search_ne_none {c : SizeClass} {cs : List SizeClass} {b : Block} {size : Nat} (hc : c ∈ cs)
    (hb : b ∈ h.index.chain c) (hread : Block.size h.memory b = .ok size) (hfits : need ≤ size) :
    findFit.search h need cs ≠ .ok none := by
  induction cs with
  | nil => cases hc
  | cons d cs ih =>
      rw [findFit.search]
      cases hbest : bestOf h.memory need (h.index.endless d) none (h.index.chain d) with
      | error fault => exact fun h => nomatch h
      | ok found =>
          cases found with
          | some b => exact fun h => nomatch h
          | none =>
              have hother : c ≠ d := by
                rintro rfl
                exact bestOf_ne_none (.inr ⟨b, hb, size, hread, hfits⟩) hbest
              exact ih (List.mem_of_ne_of_mem hother hc)

-- What a request comes to. The heap is an arbitrary one here, with lists and tags that need not agree.
theorem findFit_covers (request : Nat) :
    Machine.blockSizeFor request = blockSizeFor request ∧
    ((blockSizeFor request).isSome ↔ request + overhead ≤ maxBlockSize) ∧
    ∀ need, blockSizeFor request = some need →
      IsLeast {n | n % alignment = 0 ∧ minBlockSize ≤ n ∧ request + overhead ≤ n} need ∧
      Tag.unpack (Tag.free need).pack = .free need ∧ Tag.unpack (Tag.used need).pack = .used need ∧
      ∀ size, need ≤ size →
        SizeClass.ofSize need ≤ SizeClass.ofSize size ∧ (SizeClass.ofSize size : Nat) < classCount ∧
        (∀ (ix : Index) (b : Block), b ∈ (ix.insert b size).chain (.ofSize size) ∧
          ∀ c ∉ SizeClass.fitting need, (ix.insert b size).root c = ix.root c) ∧
        ∀ (h : Heap) (b : Block), b ∈ h.index.chain (.ofSize size) →
          Block.size h.memory b = .ok size → h.findFit need ≠ .ok none := by
  refine ⟨Machine.blockSizeFor_eq request, isSome_blockSizeFor_iff, fun need hneed => ?_⟩
  obtain ⟨⟨haligned, -, hmax, -⟩, -⟩ := blockSizeFor_spec hneed
  refine ⟨isLeast_of_blockSizeFor hneed, Tag.unpack_pack haligned hmax, Tag.unpack_pack haligned hmax, ?_⟩
  intro size hsize
  have hmono := SizeClass.ofSize_mono hsize
  have hsearched : SizeClass.ofSize size ∈ SizeClass.fitting need := SizeClass.mem_fitting.mpr hmono
  refine ⟨hmono, Fin.isLt _, fun ix b => ⟨ix.mem_chain_insert b size, ?_⟩, ?_⟩
  · intro c hskipped
    have hother : c ≠ .ofSize size := fun hc => hskipped (hc ▸ hsearched)
    rw [Index.root_insert, if_neg hother]
  · intro h b hb hread
    exact search_ne_none hsearched hb hread hsize

-- The largest request there is, and a header alone that holds the largest size.
theorem findFit_covers_largest :
    ∃ h : Heap, blockSizeFor 4294967280 = some 4294967288 ∧ Machine.blockSizeFor 4294967281 = none ∧
      Tag.unpack (Tag.used 4294967288).pack = .used 4294967288 ∧
      4 ∈ h.index.chain (.ofSize 4294967288) ∧ Block.size h.memory 4 = .ok 4294967288 ∧
      h.findFit 4294967288 ≠ .ok none := by
  have hneed : blockSizeFor 4294967280 = some 4294967288 := by decide
  obtain ⟨-, -, hserved⟩ := findFit_covers 4294967280
  obtain ⟨-, -, hused, hlarger⟩ := hserved 4294967288 hneed
  obtain ⟨-, -, hfiled, hfound⟩ := hlarger 4294967288 (Nat.le_refl _)
  have hlisted := (hfiled .empty 4).1
  have hread : Block.size ⟨⟨#[248, 255, 255, 255]⟩⟩ 4 = .ok 4294967288 := by decide +kernel
  have hlimit : Machine.blockSizeFor 4294967281 = none := by decide
  let h : Heap := ⟨⟨⟨#[248, 255, 255, 255]⟩⟩, Index.empty.insert 4 4294967288, 0⟩
  exact ⟨h, hneed, hlimit, hused, hlisted, hread, hfound h 4 hlisted hread⟩

end Heap

end SegregatedFit
