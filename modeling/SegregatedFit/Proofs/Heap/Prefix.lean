import SegregatedFit.Heap
import SegregatedFit.Proofs.Memory.Frame

/-!
What lies before the blocks. A step writes the tags of the blocks that it works on and bytes of their
payloads, all of which stand at most eight bytes before the first of these blocks; the bytes further in
front stay as they are.
-/

namespace SegregatedFit

-- The first `n` bytes are the same in both memories.
def Memory.Keeps (n : Nat) (m m' : Memory) : Prop := ∀ i < n, m'.bytes[i]? = m.bytes[i]?

variable {n b size : Nat} {m m' m'' : Memory} {h h' : Heap}

namespace Memory.Keeps

theorem refl (n : Nat) (m : Memory) : m.Keeps n m := fun _ _ => rfl

theorem trans (h : m.Keeps n m') (h' : m'.Keeps n m'') : m.Keeps n m'' := fun i hi =>
  (h' i hi).trans (h i hi)

theorem of_sameOff {lo hi : Nat} (h : m.SameOff m' lo hi) (hn : n ≤ lo) : m.Keeps n m' := fun i hi =>
  h i (.inl (Nat.lt_of_lt_of_le hi hn))

theorem append (fresh : ByteArray) (hn : n ≤ m.size) : m.Keeps n (m.append fresh) :=
  .of_sameOff (m.sameOff_append fresh) hn

theorem writeTag {pos : Nat} {t : Tag} (h : m.writeTag pos t = .ok m') (hn : n ≤ pos) :
    m.Keeps n m' := by
  unfold Memory.writeTag at h
  split at h
  · exact fun i hi => byte_of_writeWord h (.inl (by omega))
  · cases h

theorem overwrite {pos : Nat} {source : ByteArray} (h : m.overwrite pos source = .ok m') (hn : n ≤ pos) :
    m.Keeps n m' := by
  by_cases hpos : pos + source.size ≤ m.size
  · obtain ⟨m₁, hwrite, -, -, hsame⟩ := exists_overwrite m pos source hpos
    obtain rfl := Except.ok.inj (hwrite.symm.trans h)
    exact .of_sameOff hsame hn
  · obtain ⟨bytes⟩ := m
    simp only [size] at hpos
    rw [Memory.overwrite, if_neg hpos] at h
    cases h

theorem writeHeader {t : Tag} (h : Block.writeHeader m b t = .ok m') (hn : n + 8 ≤ b) : m.Keeps n m' := by
  obtain ⟨pos, hpos, hwrite⟩ := bind_eq_ok_iff.mp h
  obtain ⟨-, rfl⟩ := subtract_eq_ok_iff.mp hpos
  exact .writeTag hwrite (by simp only [wordSize]; omega)

theorem write {t : Tag} (h : Block.write m b t = .ok m') (hn : n + 8 ≤ b) : m.Keeps n m' := by
  obtain ⟨m₁, hheader, h⟩ := bind_eq_ok_iff.mp h
  obtain ⟨pos, hpos, hfooter⟩ := bind_eq_ok_iff.mp h
  obtain ⟨-, rfl⟩ := subtract_eq_ok_iff.mp hpos
  refine .trans (.writeHeader hheader hn) (.writeTag hfooter ?_)
  simp only [overhead]
  omega

end Memory.Keeps

theorem Block.le_next (h : Block.next m b = .ok b') : b ≤ b' := by
  obtain ⟨size, -, hnext⟩ := bind_eq_ok_iff.mp h
  obtain rfl := Except.ok.inj hnext
  exact Nat.le_add_right ..

namespace Heap

theorem keeps_place {need : Nat} (hplace : h.place b need = .ok h') (hn : n + 8 ≤ b) :
    h.memory.Keeps n h'.memory := by
  obtain ⟨m, ix, p⟩ := h
  obtain ⟨size, -, hplace⟩ := bind_eq_ok_iff.mp hplace
  obtain ⟨left, -, hplace⟩ := bind_eq_ok_iff.mp hplace
  split at hplace
  · obtain ⟨m₁, hfirst, hplace⟩ := bind_eq_ok_iff.mp hplace
    obtain ⟨rest, hnext, hplace⟩ := bind_eq_ok_iff.mp hplace
    obtain ⟨m₂, hsecond, hplace⟩ := bind_eq_ok_iff.mp hplace
    obtain rfl := Except.ok.inj hplace
    have hle := Block.le_next hnext
    exact .trans (.write hfirst hn) (.write hsecond (by omega))
  · obtain ⟨m₁, hwrite, hplace⟩ := bind_eq_ok_iff.mp hplace
    obtain rfl := Except.ok.inj hplace
    exact .write hwrite hn

-- Merging writes the tags of the joint block only.
theorem keeps_coalesce {start : Block} (hcoalesce : h.coalesce b = .ok (start, h')) (hn : n + 8 ≤ start) :
    h.memory.Keeps n h'.memory := by
  obtain ⟨m, ix, p⟩ := h
  obtain ⟨before, -, hcoalesce⟩ := bind_eq_ok_iff.mp hcoalesce
  obtain ⟨next, -, hcoalesce⟩ := bind_eq_ok_iff.mp hcoalesce
  obtain ⟨after, -, hcoalesce⟩ := bind_eq_ok_iff.mp hcoalesce
  obtain ⟨size, -, hcoalesce⟩ := bind_eq_ok_iff.mp hcoalesce
  dsimp only at hcoalesce
  -- on which side it merges makes no difference to what is written last
  split at hcoalesce <;> split at hcoalesce
  all_goals
    obtain ⟨first, -, hcoalesce⟩ := bind_eq_ok_iff.mp hcoalesce
    obtain ⟨m₁, hwrite, hcoalesce⟩ := bind_eq_ok_iff.mp hcoalesce
    obtain ⟨rfl, rfl⟩ := Prod.mk.inj (Except.ok.inj hcoalesce)
    exact .write hwrite hn

theorem keeps_annex (hannex : h.annex b size = .ok h') (hn : n + 8 ≤ b) : h.memory.Keeps n h'.memory := by
  obtain ⟨m, ix, p⟩ := h
  obtain ⟨m₁, hwrite, hannex⟩ := bind_eq_ok_iff.mp hannex
  obtain ⟨next, hnext, hannex⟩ := bind_eq_ok_iff.mp hannex
  obtain ⟨m₂, hepilogue, hannex⟩ := bind_eq_ok_iff.mp hannex
  obtain rfl := Except.ok.inj hannex
  have hle := Block.le_next hnext
  exact .trans (.write hwrite hn) (.writeHeader hepilogue (by omega))

theorem keeps_stretch (hstretch : h.stretch b size = .ok h') (hn : n + 8 ≤ b) :
    h.memory.Keeps n h'.memory := by
  obtain ⟨m, ix, p⟩ := h
  obtain ⟨m₁, hwrite, hstretch⟩ := bind_eq_ok_iff.mp hstretch
  obtain ⟨next, hnext, hstretch⟩ := bind_eq_ok_iff.mp hstretch
  obtain ⟨m₂, hepilogue, hstretch⟩ := bind_eq_ok_iff.mp hstretch
  obtain rfl := Except.ok.inj hstretch
  have hle := Block.le_next hnext
  exact .trans (.write hwrite hn) (.writeHeader hepilogue (by omega))

theorem keeps_absorb {next gain total : Nat} (habsorb : h.absorb b next gain total = .ok h')
    (hn : n + 8 ≤ b) : h.memory.Keeps n h'.memory := by
  obtain ⟨m, ix, p⟩ := h
  obtain ⟨m₁, hwrite, habsorb⟩ := bind_eq_ok_iff.mp habsorb
  obtain rfl := Except.ok.inj habsorb
  exact .write hwrite hn

theorem keeps_fill {bytes : ByteArray} (hfill : h.fill b bytes = .ok h') (hn : n ≤ b) :
    h.memory.Keeps n h'.memory := by
  obtain ⟨m, ix, p⟩ := h
  obtain ⟨usable, -, hfill⟩ := bind_eq_ok_iff.mp hfill
  split at hfill
  · cases hfill
  · obtain ⟨m₁, hwrite, hfill⟩ := bind_eq_ok_iff.mp hfill
    obtain rfl := Except.ok.inj hfill
    exact .overwrite hwrite hn

theorem keeps_copy {source target count : Nat} (hcopy : h.copy source target count = .ok h')
    (hn : n ≤ target) : h.memory.Keeps n h'.memory := by
  obtain ⟨m, ix, p⟩ := h
  obtain ⟨bytes, -, hcopy⟩ := bind_eq_ok_iff.mp hcopy
  obtain ⟨m₁, hwrite, hcopy⟩ := bind_eq_ok_iff.mp hcopy
  obtain rfl := Except.ok.inj hcopy
  exact .overwrite hwrite hn

theorem keeps_seed {start : Nat} (hseed : seed m start = .ok h') (hn : n ≤ start) :
    m.Keeps n h'.memory := by
  obtain ⟨m₁, hpad, hseed⟩ := bind_eq_ok_iff.mp hseed
  obtain ⟨m₂, hwrite, hseed⟩ := bind_eq_ok_iff.mp hseed
  obtain ⟨first, hnext, hseed⟩ := bind_eq_ok_iff.mp hseed
  obtain ⟨m₃, hepilogue, hseed⟩ := bind_eq_ok_iff.mp hseed
  obtain rfl := Except.ok.inj hseed
  have hle := Block.le_next hnext
  have hfirst : m.Keeps n m₁ := fun i hi => Memory.byte_of_writeWord hpad (.inl (by omega))
  exact hfirst.trans (.trans (.write hwrite (by omega)) (.writeHeader hepilogue (by omega)))

end Heap

end SegregatedFit
