import SegregatedFit.Proofs.Heap.Filing

/-!
What a step spares. Of the allocated blocks, a step changes only those at the offsets that it works on:
the others stay where they are, with the size and the payload that they have.
-/

namespace SegregatedFit

variable {m m' m'' : Memory} {p : Nat} {i : BlockInfo} {xs ys old new bs bs' bs'' : List BlockInfo}
  {own own' : List Nat} {h h' h'' : Heap} {ls ls' ls'' : Lists}

-- The payload of `i` holds the same bytes in both memories.
def Memory.SamePayload (m m' : Memory) (i : BlockInfo) : Prop :=
  ∀ k, i.offset ≤ k → k < i.offset + i.size - 8 → m'.bytes[k]? = m.bytes[k]?

-- The blocks `bs` of `m` and `bs'` of `m'` are the same allocated ones, except at the offsets `own`.
structure Spares (own : List Nat) (m m' : Memory) (bs bs' : List BlockInfo) : Prop where
  kept : ∀ i : BlockInfo, i.allocated = true → i.offset ∉ own → (i ∈ bs' ↔ i ∈ bs)
  payload : ∀ i ∈ bs, i.allocated = true → i.offset ∉ own → m.SamePayload m' i

namespace Spares

theorem refl (own : List Nat) (m : Memory) (bs : List BlockInfo) : Spares own m m bs bs :=
  ⟨fun _ _ _ => Iff.rfl, fun _ _ _ _ _ _ _ => rfl⟩

theorem trans (h : Spares own m m' bs bs') (h' : Spares own m' m'' bs' bs'') :
    Spares own m m'' bs bs'' := by
  refine ⟨fun i hi hout => (h'.kept i hi hout).trans (h.kept i hi hout), ?_⟩
  intro i hmem hi hout k hk hk'
  rw [h'.payload i ((h.kept i hi hout).mpr hmem) hi hout k hk hk', h.payload i hmem hi hout k hk hk']

theorem mono (h : Spares own m m' bs bs') (hown : own ⊆ own') : Spares own' m m' bs bs' :=
  ⟨fun i hi hout => h.kept i hi fun hmem => hout (hown hmem),
    fun i hmem hi hout => h.payload i hmem hi fun hmem' => hout (hown hmem')⟩

-- A handle that is not worked on stays one, or stays unused.
theorem handle_iff (h : Spares own m m' bs bs') (hb : b ∉ own) :
    (∃ size, ⟨b, size, true⟩ ∈ bs') ↔ ∃ size, ⟨b, size, true⟩ ∈ bs :=
  exists_congr fun size => h.kept ⟨b, size, true⟩ rfl hb

-- A change of adjacent blocks, all of whose allocated ones are named.
theorem of_replace {start stop hi : Nat} (h : Laid m p (xs ++ old ++ ys)) (hx : Tiles (p + 8) xs start)
    (hy : Tiles stop ys m.size) (hsame : m.SameOff m' (start - 4) hi) (hhi : hi ≤ stop - 4 ∨ ys = [])
    (hown : ∀ i ∈ old ++ new, i.allocated = true → i.offset ∈ own) :
    Spares own m m' (xs ++ old ++ ys) (xs ++ new ++ ys) := by
  refine ⟨?_, ?_⟩
  · intro i hi hout
    have hold : i ∉ old := fun hmem => hout (hown i (by simp [hmem]) hi)
    have hnew : i ∉ new := fun hmem => hout (hown i (by simp [hmem]) hi)
    simp [hold, hnew]
  · intro i hmem hi hout k hk hk'
    have hbounds := h.mem_bounds hmem
    have hold : i ∉ old := fun hmem => hout (hown i (by simp [hmem]) hi)
    apply hsame
    simp only [List.mem_append, hold, or_false] at hmem
    rcases hmem with hmem | hmem
    · have hend := (hx.bounds hmem).2
      omega
    · have hbegin := (hy.bounds hmem).1
      have hys : ys ≠ [] := List.ne_nil_of_mem hmem
      rcases hhi with hhi | hnil
      · omega
      · exact absurd hnil hys

end Spares

-- Writing one tag over adjacent blocks makes one block of them, whose payload stays as it is.
theorem Laid.exists_write {start size : Nat} (h : Laid m p (xs ++ old ++ ys)) (allocated : Bool)
    (own : List Nat) (hx : Tiles (p + 8) xs start) (hy : Tiles (start + size) ys m.size)
    (hproper : BlockInfo.Proper ⟨start, size, allocated⟩)
    (hown : ∀ i ∈ old ++ [⟨start, size, allocated⟩], i.allocated = true → i.offset ∈ own) :
    ∃ m', Block.write m start ⟨size, allocated⟩ = .ok m' ∧ m'.size = m.size ∧
      Laid m' p (xs ++ ⟨start, size, allocated⟩ :: ys) ∧
      Spares own m m' (xs ++ old ++ ys) (xs ++ ⟨start, size, allocated⟩ :: ys) ∧
      m.SamePayload m' ⟨start, size, allocated⟩ := by
  have hbounds := hproper.bounds
  have hpad := h.pad
  have hstart := hx.le
  have hstop := hy.le
  dsimp only at hbounds
  obtain ⟨m', hwrite, hsize, htagged, hbytes⟩ :=
    Block.exists_write m start size allocated (by omega) hproper.aligned (by omega) hproper.size_le
      (by omega)
  have hsame : m.SameOff m' (start - 4) (start + size - 4) := fun i _ =>
    hbytes i (by omega) (by omega)
  refine ⟨m', hwrite, hsize, ?_, ?_, fun k hk hk' => hbytes k (.inr hk) (.inl hk')⟩
  · have hold : ∀ i ∈ xs ++ ys, i ∈ xs ++ old ++ ys := fun i hi => by
      simp only [List.mem_append] at hi ⊢
      tauto
    have hlaid := h.replace [⟨start, size, allocated⟩] hold hx ⟨rfl, rfl⟩ hy (by simpa using hproper)
      (by simpa using htagged) hsize hsame
    simpa using hlaid
  · simpa using Spares.of_replace h hx hy hsame (.inl (Nat.le_refl _)) hown

-- A step from the sound heap `h`, of blocks `bs`, to another sound one, which only works on the
-- allocated blocks at the offsets `own`.
structure Heap.Becomes (own : List Nat) (h : Heap) (bs : List BlockInfo) (h' : Heap)
    (bs' : List BlockInfo) (ls' : Lists) : Prop where
  sound : h'.Sound bs' ls'
  prologue : h'.prologue = h.prologue
  size_le : h.memory.size ≤ h'.memory.size
  spares : Spares own h.memory h'.memory bs bs'

namespace Heap.Becomes

theorem refl (h : Heap.Sound h' bs ls) (own : List Nat) : Becomes own h' bs h' bs ls :=
  ⟨h, rfl, Nat.le_refl _, .refl own _ _⟩

theorem trans (h₁ : Becomes own h bs h' bs' ls') (h₂ : Becomes own h' bs' h'' bs'' ls'') :
    Becomes own h bs h'' bs'' ls'' :=
  ⟨h₂.sound, h₂.prologue.trans h₁.prologue, Nat.le_trans h₁.size_le h₂.size_le,
    h₁.spares.trans h₂.spares⟩

theorem mono (h₁ : Becomes own h bs h' bs' ls') (hown : own ⊆ own') : Becomes own' h bs h' bs' ls' :=
  ⟨h₁.sound, h₁.prologue, h₁.size_le, h₁.spares.mono hown⟩

end Heap.Becomes

end SegregatedFit
