import SegregatedFit.Command
import SegregatedFit.Proofs.Machine.Replay

/-!
The replay command on a machine: what it does besides the replay, which is to set up an allocator and, when
that is asked for, to walk over its blocks and its lists at the end.
-/

namespace SegregatedFit

namespace Machine

-- The sentinels in sixteen fresh bytes.
def seed (memory : Memory) (start : Nat) : Option Heap := do
  let memory ← writeWord memory start 0
  let prologue ← add start 8
  return ⟨← writeLast memory prologue (.used overhead), .empty, prologue⟩

def init {ρ : Type} [Reserve ρ] (region : Region ρ) (chunk : ChunkSize) :
    Option (Except InitError (Allocator ρ)) := do
  match ← (region.extend 16).result.toOption with
  | (.error cause, _) => return .error (.heap cause)
  | (.ok start, ⟨memory, reserve⟩) =>
    match ← grow ⟨← seed memory start, reserve, chunk⟩ chunk.val with
    | (.error cause, _) => return .error (.heap cause)
    | (.ok _, a) => return .ok a

-- Only a filter that lets such events through makes the walks worth while.
def dump {ρ : Type} (a : Allocator ρ) (filter : LevelFilter) : Option Unit := do
  if filter.admits .trace then
    let _ ← blocks a.heap
    if SizeClass.all.any a.heap.index.endless then none

def replayText (filter : LevelFilter) (base : Nat) (text : String) :
    Option (Except Command.Failure ReplayStats) :=
  match Trace.parse text with
  | .error cause => some (.error (.badTrace cause))
  | .ok trace => do
    match ← init (.ofReserve (Arena.new base)) .default with
    | .error _ => none
    | .ok a =>
      match ← replay trace a true with
      | (.error cause, _) => return .error (.replay cause)
      | (.ok stats, a) =>
        dump a filter
        return .ok stats

theorem seed_of {m : Memory} {start : Nat} {h : Heap} (hm : Spacious m)
    (hseed : Heap.seed m start = .ok h) : seed m start = some h := by
  obtain ⟨m₁, hpad, hseed⟩ := bind_eq_ok_iff.mp hseed
  obtain ⟨m₂, hwrite, hseed⟩ := bind_eq_ok_iff.mp hseed
  obtain ⟨first, hnext, hseed⟩ := bind_eq_ok_iff.mp hseed
  obtain ⟨m₃, hepilogue, hseed⟩ := bind_eq_ok_iff.mp hseed
  obtain rfl := Except.ok.inj hseed
  have hstart := Memory.writeWord_bounds hpad
  have hm₁ : Spacious m₁ := by
    rw [Spacious, Memory.size_of_writeWord hpad]
    exact hm
  have hsum : start + 8 < wordLimit := hm.lt (by omega)
  simp [seed, writeWord_of hm hpad, add_eq_some hsum, writeLast_of hm₁ rfl hwrite hnext hepilogue]

variable {ρ : Type} {a : Allocator ρ} {bs : List BlockInfo} {ls : Lists}

-- A machine sets an allocator up, or is refused the same bytes.
theorem init_of [Reserve ρ] {region : Region ρ} {chunk : ChunkSize} {out : Except InitError (Allocator ρ)}
    (haligned : region.memory.size % 8 = 0) (hsize : region.memory.size + 16 < 9223372036854775808)
    (hinit : (Allocator.init region chunk).result = .ok out) : init region chunk = some out := by
  obtain ⟨memory, reserve⟩ := region
  simp only [Allocator.init, Run.result_bind, Region.extend] at hinit
  simp only [init, Region.extend]
  generalize Reserve.request reserve memory.size 16 = answer at hinit ⊢
  rcases answer with ⟨cause | ⟨fresh, hfresh⟩, reserve', log⟩
  · obtain rfl := Except.ok.inj hinit
    rfl
  have hlength : (memory.append fresh).size = memory.size + 16 := by
    rw [Memory.size_append, hfresh]
  have hchunk := chunk.aligned
  have hmin := chunk.le_val
  simp only [alignment, minBlockSize] at hchunk hmin
  dsimp only at hsize
  obtain ⟨h, hseed, -, hsound, hsame⟩ := Heap.seed_spec hlength haligned
  simp only [ok_bind, Run.result_bind, Run.result_lift, hseed] at hinit
  obtain ⟨⟨grown, a⟩, hgrow, hinit⟩ := bind_eq_ok_iff.mp hinit
  have hseeded := seed_of (.of_lt (by omega)) hseed
  have hshort : h.memory.size < 9223372036854775808 := by omega
  obtain ⟨hgrown, -⟩ := grow_of hsound hchunk hmin chunk.val_le hshort hgrow
  simp only [Except.toOption, Option.bind_eq_bind, Option.bind_some, hseeded, hgrown]
  cases grown with
  | error cause =>
      obtain rfl := Except.ok.inj hinit
      rfl
  | ok b =>
      obtain rfl := Except.ok.inj hinit
      rfl

theorem dump_of (hm : Spacious a.heap.memory) (hsound : a.heap.Sound bs ls) (filter : LevelFilter) :
    dump a filter = some () := by
  have hblocks := blocks_of hm (Heap.blocks_eq hsound.laid)
  have hends : SizeClass.all.any a.heap.index.endless = false := by
    simp [hsound.holds.endless_eq]
  simp [dump, hblocks, hends]

end Machine

end SegregatedFit
