import SegregatedFit.Heap.Walk
import SegregatedFit.Proofs.Memory.Frame
import Mathlib.Algebra.GroupWithZero.Nat
import Mathlib.Data.List.Basic

/-!
The blocks of a heap as a list. `Laid m p bs` says that the memory `m`, whose prologue is `p`, consists
of exactly the blocks `bs` between the two sentinels, and that each of them has its tag at both ends.
A change of a few adjacent blocks keeps the blocks on both sides of them.
-/

namespace SegregatedFit

namespace BlockInfo

variable {i : BlockInfo}

def tag (i : BlockInfo) : Tag := ⟨i.size, i.allocated⟩

-- A tag can hold the size, and there is room for a header, a footer and some payload.
structure Proper (i : BlockInfo) : Prop where
  aligned : i.size % alignment = 0
  le_size : minBlockSize ≤ i.size
  size_le : i.size ≤ maxBlockSize

theorem Proper.bounds (h : i.Proper) : i.size % 8 = 0 ∧ 16 ≤ i.size ∧ i.size ≤ 4294967288 :=
  ⟨h.aligned, h.le_size, h.size_le⟩

end BlockInfo

-- The blocks follow one another without a gap, from offset `start` up to `stop`.
def Tiles : Nat → List BlockInfo → Nat → Prop
  | start, [], stop => start = stop
  | start, i :: is, stop => i.offset = start ∧ Tiles (start + i.size) is stop

variable {bs xs ys : List BlockInfo} {i j : BlockInfo} {a c : Nat}

theorem tiles_append : Tiles a (xs ++ ys) c ↔ ∃ b, Tiles a xs b ∧ Tiles b ys c := by
  induction xs generalizing a with
  | nil => simp [Tiles]
  | cons i xs ih =>
      simp only [List.cons_append, Tiles, ih]
      constructor
      · rintro ⟨hi, b, hx, hy⟩
        exact ⟨b, ⟨hi, hx⟩, hy⟩
      · rintro ⟨b, ⟨hi, hx⟩, hy⟩
        exact ⟨hi, b, hx, hy⟩

namespace Tiles

theorem bounds (h : Tiles a bs c) (hi : i ∈ bs) : a ≤ i.offset ∧ i.offset + i.size ≤ c := by
  obtain ⟨xs, ys, rfl⟩ := List.append_of_mem hi
  obtain ⟨b, hx, rfl, hy⟩ := tiles_append.mp h
  have hle : ∀ {a bs c}, Tiles a bs c → a ≤ c := by
    intro a bs
    induction bs generalizing a with
    | nil => exact fun h => Nat.le_of_eq h
    | cons j bs ih => exact fun h => Nat.le_trans (Nat.le_add_right ..) (ih h.2)
  exact ⟨hle hx, hle hy⟩

theorem sum_eq (h : Tiles a bs c) : a + (bs.map (·.size)).sum = c := by
  induction bs generalizing a with
  | nil => exact h
  | cons i bs ih =>
      have := ih h.2
      simp only [List.map_cons, List.sum_cons]
      omega

theorem le (h : Tiles a bs c) : a ≤ c := by
  have := h.sum_eq
  omega

theorem length_le (h : Tiles a bs c) (hproper : ∀ i ∈ bs, i.Proper) : a + 16 * bs.length ≤ c := by
  induction bs generalizing a with
  | nil => exact Nat.le_of_eq h
  | cons i bs ih =>
      have hsize := (hproper i (by simp)).bounds
      have hrest := ih h.2 fun j hj => hproper j (by simp [hj])
      simp only [List.length_cons]
      omega

theorem aligned (h : Tiles a bs c) (hproper : ∀ i ∈ bs, i.Proper) (ha : a % 8 = 0) :
    (∀ i ∈ bs, i.offset % 8 = 0) ∧ c % 8 = 0 := by
  induction bs generalizing a with
  | nil => exact ⟨by simp, h ▸ ha⟩
  | cons i bs ih =>
      obtain ⟨hi, hrest⟩ := h
      have hsize := (hproper i (by simp)).bounds
      have hrest := ih hrest (fun j hj => hproper j (by simp [hj])) (by omega)
      exact ⟨by simpa [hi, ha] using hrest.1, hrest.2⟩

theorem pairwise (h : Tiles a bs c) (hproper : ∀ i ∈ bs, i.Proper) :
    bs.Pairwise fun i j => i.offset < j.offset := by
  induction bs generalizing a with
  | nil => exact .nil
  | cons i bs ih =>
      obtain ⟨hi, hrest⟩ := h
      have hsize := (hproper i (by simp)).bounds
      have hbehind := ih hrest fun j hj => hproper j (by simp [hj])
      refine .cons ?_ hbehind
      intro j hj
      have := (hrest.bounds hj).1
      omega

-- Two blocks on one offset are one block.
theorem eq_of_offset (h : Tiles a bs c) (hproper : ∀ i ∈ bs, i.Proper) (hi : i ∈ bs) (hj : j ∈ bs)
    (hoffset : i.offset = j.offset) : i = j := by
  induction bs generalizing a with
  | nil => cases hi
  | cons k bs ih =>
      obtain ⟨hk, hrest⟩ := h
      have hsize := (hproper k (by simp)).bounds
      have hlater : ∀ {x}, x ∈ bs → k.offset < x.offset := fun hx => by
        have := (hrest.bounds hx).1
        omega
      rcases List.mem_cons.mp hi with rfl | hi' <;> rcases List.mem_cons.mp hj with rfl | hj'
      · rfl
      · exact absurd hoffset (Nat.ne_of_lt (hlater hj'))
      · exact absurd hoffset.symm (Nat.ne_of_lt (hlater hi'))
      · exact ih hrest (fun x hx => hproper x (by simp [hx])) hi' hj'

-- The blocks on the two sides of one lie outside it.
theorem outside (h : Tiles a (xs ++ i :: ys) c) (hj : j ∈ xs ++ ys) :
    j.offset + j.size ≤ i.offset ∨ i.offset + i.size ≤ j.offset := by
  obtain ⟨b, hx, hi, hy⟩ := tiles_append.mp h
  rcases List.mem_append.mp hj with hj | hj
  · exact .inl (hi ▸ (hx.bounds hj).2)
  · exact .inr (hi ▸ (hy.bounds hj).1)

-- A block divides the others in one way only.
theorem split_unique {xs' ys' : List BlockInfo} (h : Tiles a (xs ++ i :: ys) c)
    (hproper : ∀ k ∈ xs ++ i :: ys, k.Proper) (hsplit : xs ++ i :: ys = xs' ++ j :: ys')
    (hoffset : i.offset = j.offset) : xs = xs' ∧ i = j ∧ ys = ys' := by
  obtain rfl : i = j := h.eq_of_offset hproper (by simp) (by simp [hsplit]) hoffset
  have hsize := (hproper i (by simp)).bounds
  have hnotMem : ∀ {xs ys}, Tiles a (xs ++ i :: ys) c → i ∉ xs := fun h hi => by
    have := h.outside (List.mem_append_left _ hi)
    omega
  have hleft := hnotMem h
  have hright := hnotMem (hsplit ▸ h)
  rcases List.append_eq_append_iff.mp hsplit with ⟨as, rfl, has⟩ | ⟨as, rfl, has⟩
  · cases as with
    | nil => simpa using has
    | cons k as =>
        obtain rfl := (List.cons.inj has).1
        simp at hright
  · cases as with
    | nil => simpa using has.symm
    | cons k as =>
        obtain rfl := (List.cons.inj has).1
        simp at hleft

-- Of two blocks one ends before the other starts.
theorem disjoint (h : Tiles a bs c) (hi : i ∈ bs) (hj : j ∈ bs) (hne : i ≠ j) :
    i.offset + i.size ≤ j.offset ∨ j.offset + j.size ≤ i.offset := by
  induction bs generalizing a with
  | nil => cases hi
  | cons k bs ih =>
      obtain ⟨hk, hrest⟩ := h
      rcases List.mem_cons.mp hi with rfl | hi' <;> rcases List.mem_cons.mp hj with rfl | hj'
      · exact absurd rfl hne
      · exact .inl (hk ▸ (hrest.bounds hj').1)
      · exact .inr (hk ▸ (hrest.bounds hi').1)
      · exact ih hrest hi' hj'

end Tiles

namespace Memory

-- The header is that of the block, and the footer is the same word.
structure Tagged (m : Memory) (i : BlockInfo) : Prop where
  header : m.readTag (i.offset - 4) = .ok i.tag
  footer : m.readWord (i.offset + i.size - 8) = m.readWord (i.offset - 4)

namespace Tagged

theorem exists_word (h : Tagged m i) : ∃ word, m.readWord (i.offset - 4) = .ok word ∧
    m.readWord (i.offset + i.size - 8) = .ok word ∧ Tag.unpack word = i.tag := by
  obtain ⟨word, hword, htag⟩ := readTag_eq_ok_iff.mp h.header
  exact ⟨word, hword, h.footer.trans hword, htag⟩

theorem of_words {word : UInt32} (hheader : m.readWord (i.offset - 4) = .ok word)
    (hfooter : m.readWord (i.offset + i.size - 8) = .ok word) (htag : Tag.unpack word = i.tag) :
    Tagged m i :=
  ⟨readTag_eq_ok_iff.mpr ⟨word, hheader, htag⟩, hfooter.trans hheader.symm⟩

theorem readTag_footer (h : Tagged m i) : m.readTag (i.offset + i.size - 8) = .ok i.tag := by
  obtain ⟨word, -, hfooter, htag⟩ := h.exists_word
  exact readTag_eq_ok_iff.mpr ⟨word, hfooter, htag⟩

-- A change between the two tags of a block, or beside the block, keeps them.
theorem frame (h : Tagged m i) (hsame : SameOff m m' lo hi)
    (hheader : i.offset - 4 + 4 ≤ lo ∨ hi ≤ i.offset - 4)
    (hfooter : i.offset + i.size - 8 + 4 ≤ lo ∨ hi ≤ i.offset + i.size - 8) : Tagged m' i := by
  obtain ⟨word, hword, hword', htag⟩ := h.exists_word
  exact .of_words (hsame.readWord hword hheader) (hsame.readWord hword' hfooter) htag

end Tagged

end Memory

end SegregatedFit
