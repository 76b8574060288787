import SegregatedFit.Proofs.Client.Service
import SegregatedFit.Proofs.Machine.Replay
import SegregatedFit.Proofs.Trace.Shadow

/-!
Operations of a replay. The allocator holds for every live id a block of its own that begins with the
bytes of that id, so that what the replay verifies is as it should be. An operation goes wrong for two
reasons only: there is no room, or the trace names an id that is not live.
-/

namespace SegregatedFit

-- The ways to go wrong that tell nothing against the allocator.
inductive ReplayError.Ordinary : ReplayError → Prop
  | outOfMemory (op : Nat) : Ordinary (.outOfMemory op)
  | notLive (op id : Nat) : Ordinary (.notLive op id)

variable {ρ : Type}

theorem Request.free_of_run [Reserve ρ] {a a' : Allocator ρ} {block answer : Option Block}
    (h : ((Request.free block).run a).result = .ok (answer, a')) : (a.free block).result = .ok a' := by
  obtain ⟨a₁, hfree, h⟩ := bind_eq_ok_iff.mp ((Run.result_bind ..).symm.trans h)
  obtain ⟨-, rfl⟩ := Prod.mk.inj (Except.ok.inj h)
  exact hfree

theorem Request.fill_of_run [Reserve ρ] {a a' : Allocator ρ} {b : Block} {content : ByteArray}
    {answer : Option Block} (h : ((Request.write b content).run a).result = .ok (answer, a')) :
    (a.update (·.fill b content)).result = .ok a' := by
  obtain ⟨a₁, hfill, h⟩ := bind_eq_ok_iff.mp ((Run.result_bind ..).symm.trans h)
  obtain ⟨-, rfl⟩ := Prod.mk.inj (Except.ok.inj h)
  exact hfill

-- The heap is so short that one tag could span it, and all of its addresses are words.
structure Allocator.Compact [Reserve ρ] (a : Allocator ρ) : Prop where
  size_le : a.heap.memory.size ≤ maxBlockSize
  address_lt : Reserve.base a.reserve + a.heap.memory.size < Machine.wordLimit

theorem Allocator.Compact.of_leaves [Reserve ρ] {a a' : Allocator ρ} {others : Finset Nat}
    (hcompact : a'.Compact) (hleaves : a.Leaves others a') : a.Compact := by
  have hsize := hleaves.size_le
  have hbase := hleaves.base
  obtain ⟨hmax, haddress⟩ := hcompact
  exact ⟨by omega, by omega⟩

theorem Allocator.Compact.spacious [Reserve ρ] {a : Allocator ρ} (hcompact : a.Compact) :
    Machine.Spacious a.heap.memory := by
  have hsize := hcompact.size_le
  simp only [maxBlockSize] at hsize
  exact .of_lt (by omega)

namespace Replay

variable {r r' : Replay ρ} {others live : Finset Nat} {id b size op : Nat} {e : Live}

theorem result_update {step : Allocator ρ → Run (Allocator ρ)} {a' : Allocator ρ}
    (h : (step r.allocator).result = .ok a') : (r.update step).result = .ok (r.atop a') := by
  obtain ⟨a, live, ranges, liveBytes, peakLiveBytes⟩ := r
  simp only [update, Run.result_bind, h, ok_bind]
  rfl

variable [Reserve ρ]

theorem result_allocate {answer : Option Block} {a' : Allocator ρ}
    (h : ((Request.allocate size).run r.allocator).result = .ok (answer, a')) :
    (r.allocate size).result = .ok (answer, r.atop a') := by
  obtain ⟨a, live, ranges, liveBytes, peakLiveBytes⟩ := r
  have hallocate : (a.allocate size).result = .ok (answer, a') := h
  simp only [allocate, Run.result_bind, hallocate, ok_bind]
  rfl

theorem result_reallocate {answer : Option Block} {a' : Allocator ρ}
    (h : ((Request.reallocate (some b) size).run r.allocator).result = .ok (answer, a')) :
    (r.reallocate b size).result = .ok (answer, r.atop a') := by
  obtain ⟨a, live, ranges, liveBytes, peakLiveBytes⟩ := r
  have hreallocate : (a.reallocate (some b) size).result = .ok (answer, a') := h
  simp only [reallocate, Run.result_bind, hreallocate, ok_bind]
  rfl

-- What stands behind a replay: `live` are all the handles in use, `others` those in use by others.
structure Backed (others live : Finset Nat) (r : Replay ρ) : Prop where
  reachable : Client.Reachable ⟨r.allocator, live⟩
  aligned : Reserve.base r.allocator.reserve % alignment = 0
  kept : others ⊆ live
  shadow : r.Shadow
  entries : ∀ id b size : Nat, r.live[id]? = some ⟨b, size⟩ → b ∉ others ∧
    ∃ content, Client.ledger ⟨r.allocator, live⟩ b = some content ∧ size ≤ content.size ∧
      ∀ k < size, content[k]? = some (pattern id k)

namespace Backed

theorem start {c : Client ρ} (hreachable : c.Reachable)
    (haligned : Reserve.base c.allocator.reserve % alignment = 0) :
    (start c.allocator).Backed c.live c.live :=
  ⟨hreachable, haligned, Finset.Subset.refl _, shadow_start _, fun id b size h => by simp [Replay.start] at h⟩

theorem geometry (h : r.Backed others live) : Client.Geometry ⟨r.allocator, live⟩ :=
  (Client.refines_ledger h.reachable).1

theorem without (h : r.Backed others live) (hlive : r.live[id]? = some ⟨b, size⟩) :
    (r.without id ⟨b, size⟩).Backed others live :=
  ⟨h.reachable, h.aligned, h.kept, h.shadow.without hlive,
    fun id' b' size' h' => h.entries id' b' size' (getElem?_without.mp h').2⟩

-- A request that the entries do not notice.
theorem atop (h : r.Backed others live) {q : Request} {answer : Option Block} {c' : Client ρ}
    (hserves : Client.Serves others ⟨r.allocator, live⟩ q answer c')
    (hledger : ∀ id b size : Nat, r.live[id]? = some ⟨b, size⟩ →
      c'.ledger b = Client.ledger ⟨r.allocator, live⟩ b) :
    (r.atop c'.allocator).Backed others c'.live := by
  refine ⟨hserves.reachable, ?_, hserves.kept, h.shadow.atop _, ?_⟩
  · exact hserves.leaves.base ▸ h.aligned
  · intro id b size hlive
    obtain ⟨hout, content, hcontent, hbytes⟩ := h.entries id b size hlive
    exact ⟨hout, content, (hledger id b size hlive).trans hcontent, hbytes⟩

-- The bytes of an id are found in its block when it is taken out.
theorem intact (h : r.Backed others live) (hlive : r.live[id]? = some ⟨b, size⟩) :
    (r.without id ⟨b, size⟩).intact id b size = .ok true := by
  obtain ⟨-, content, hcontent, hsize, hbytes⟩ := h.entries id b size hlive
  exact h.geometry.holds_eq hcontent hsize hbytes

theorem machine_intact (h : r.Backed others live) (hlive : r.live[id]? = some ⟨b, size⟩)
    (hcompact : r.allocator.Compact) :
    Machine.Replay.intact (r.without id ⟨b, size⟩) id b size = some true :=
  Machine.Replay.intact_of hcompact.spacious (h.intact hlive)

-- The requested bytes of the live ids all lie in the heap.
theorem liveBytes_le (h : r.Backed others live) :
    r.liveBytes ≤ r.allocator.heap.memory.size := by
  refine h.shadow.liveBytes_le fun id b size hlive => ?_
  obtain ⟨-, content, hcontent, hsize, -⟩ := h.entries id b size hlive
  obtain ⟨-, -, hinside⟩ := h.geometry.inside b _ (h.geometry.spans hcontent)
  exact Nat.le_trans (Nat.add_le_add_left hsize b) hinside

-- A handle that the ledger has no entry for is neither in use by others nor that of a live id.
theorem notMem_of_ledger (h : r.Backed others live)
    (hb : Client.ledger ⟨r.allocator, live⟩ b = none) : b ∉ others := by
  intro hmem
  obtain ⟨-, content, -, hcontent, -⟩ := h.geometry.entries b (h.kept hmem)
  cases hb.symm.trans hcontent

theorem ne_of_ledger (h : r.Backed others live) (hb : Client.ledger ⟨r.allocator, live⟩ b = none)
    {id' b' size' : Nat} (hlive : r.live[id']? = some ⟨b', size'⟩) : b' ≠ b := by
  rintro rfl
  obtain ⟨-, content, hcontent, -⟩ := h.entries id' b' size' hlive
  cases hb.symm.trans hcontent

theorem exists_serves [FixedBase ρ] (h : r.Backed others live) {q : Request}
    (hadmits : Client.Admits ⟨r.allocator, live⟩ q) (htarget : ∀ b ∈ q.target, b ∉ others) :
    ∃ answer c', Client.Serves others ⟨r.allocator, live⟩ q answer c' ∧
      (c'.allocator.Compact → Machine.run r.allocator q = some (answer, c'.allocator)) := by
  obtain ⟨answer, c', hserves⟩ := h.reachable.exists_serves hadmits h.kept htarget
  refine ⟨answer, c', hserves, fun hcompact => ?_⟩
  have hsize := (hcompact.of_leaves hserves.leaves).size_le
  simp only [maxBlockSize] at hsize
  obtain ⟨bs, ls, hinv⟩ := h.reachable.exists_inv
  exact hinv.run_eq hadmits (by dsimp only; omega) hserves.run

end Backed

-- How `x` ends, and `y` on a machine: well, or in one of the two ordinary ways, with the blocks of the
-- others left alone.
structure Settles (others : Finset Nat) (r : Replay ρ) (x : Run (Except ReplayError Unit × Replay ρ))
    (y : Option (Except ReplayError Unit × Replay ρ)) (answer : Except ReplayError Unit)
    (r' : Replay ρ) : Prop where
  result : x.result = .ok (answer, r')
  machine : r'.allocator.Compact → y = some (answer, r')
  backed : ∃ live, r'.Backed others live
  leaves : r.allocator.Leaves others r'.allocator
  ordinary : ∀ error, answer = .error error → error.Ordinary

-- The block `b` has been handed out, and may be made that of `id`.
structure Fresh (others live : Finset Nat) (r : Replay ρ) (id b size : Nat) : Prop where
  backed : r.Backed others live
  idle : r.live[id]? = none
  pos : 0 < size
  out : b ∉ others
  entry : ∃ content, Client.ledger ⟨r.allocator, live⟩ b = some content ∧ size ≤ content.size
  other : ∀ id' b' size' : Nat, r.live[id']? = some ⟨b', size'⟩ → b' ≠ b

-- A request that puts an entry of its own into the ledger hands out a fresh block.
theorem Backed.fresh (h : r.Backed others live) {q : Request} {answer : Option Block} {c' : Client ρ}
    (hserves : Client.Serves others ⟨r.allocator, live⟩ q answer c') {l : Ledger} {content : ByteArray}
    (hledger : c'.ledger = l.put b content) (hout : b ∉ others) (hroom : size ≤ content.size)
    (hkept : ∀ id' b' size' : Nat, r.live[id']? = some ⟨b', size'⟩ →
      b' ≠ b ∧ l b' = Client.ledger ⟨r.allocator, live⟩ b')
    (hidle : r.live[id]? = none) (hpos : 0 < size) :
    (r.atop c'.allocator).Fresh others c'.live id b size := by
  refine ⟨h.atop hserves fun id' b' size' hlive => ?_, hidle, hpos, hout, ⟨content, ?_, hroom⟩,
    fun id' b' size' hlive => (hkept id' b' size' hlive).1⟩
  · obtain ⟨hne, heq⟩ := hkept id' b' size' hlive
    rw [hledger]
    exact (if_neg hne).trans heq
  · change c'.ledger b = _
    rw [hledger]
    exact if_pos rfl

namespace Fresh

theorem overlaps_eq (h : r.Fresh others live id b size) :
    overlaps r.ranges b (b + size) = false := by
  obtain ⟨content, hcontent, hsize⟩ := h.entry
  rw [Bool.eq_false_iff]
  intro hoverlaps
  obtain ⟨id', b', size', hlive, hlt, hmeets⟩ := h.backed.shadow.overlaps_iff.mp hoverlaps
  obtain ⟨-, content', hcontent', hsize', -⟩ := h.backed.entries id' b' size' hlive
  have hapart := h.backed.geometry.apart hcontent' hcontent (h.other id' b' size' hlive)
  omega

theorem address_aligned (h : r.Fresh others live id b size) :
    (Reserve.base r.allocator.reserve + b) % alignment = 0 := by
  obtain ⟨content, hcontent, -⟩ := h.entry
  obtain ⟨hb, -⟩ := h.backed.geometry.inside b _ (h.backed.geometry.spans hcontent)
  have haligned := h.backed.aligned
  simp only [alignment] at hb haligned ⊢
  omega

theorem claim_eq (h : r.Fresh others live id b size) (op : Nat) :
    r.claim op id b size = (.ok (), r.enter id b size) := by
  simp [claim, Allocator.address, h.address_aligned, h.overlaps_eq]

theorem machine_claim (h : r.Fresh others live id b size) (op : Nat) (hcompact : r.allocator.Compact)
    (hbytes : r.liveBytes + size < Machine.wordLimit) :
    Machine.Replay.claim r op id b size = some (.ok (), r.enter id b size) := by
  obtain ⟨content, hcontent, hsize⟩ := h.entry
  obtain ⟨-, -, hinside⟩ := h.backed.geometry.inside b _ (h.backed.geometry.spans hcontent)
  obtain ⟨-, hlimit⟩ := hcompact
  dsimp only at hinside
  have hstart : Machine.add (Reserve.base r.allocator.reserve) b =
      some (Reserve.base r.allocator.reserve + b) := Machine.add_eq_some (by omega)
  have hstop : b + size < Machine.wordLimit := by omega
  have hentered : Machine.Replay.enter r id b size = some (r.enter id b size) :=
    Machine.Replay.enter_of hstop hbytes
  simp [Machine.Replay.claim, hstart, h.address_aligned, Machine.add_eq_some hstop, h.overlaps_eq,
    hentered]

-- The bytes of `id` fit.
theorem admits_write (h : r.Fresh others live id b size) :
    Client.Admits ⟨r.allocator, live⟩ (.write b (tabulate size (pattern id))) := by
  obtain ⟨content, hcontent, hsize⟩ := h.entry
  have hspans := h.backed.geometry.spans hcontent
  have husable : r.allocator.usableSize b = .ok content.size := hspans.2
  refine ⟨by simpa [Request.target] using hspans.1, content.size, ?_, ?_⟩
  · simp [husable, Except.toOption]
  · rw [size_tabulate]
    exact hsize

-- Once the block holds the bytes of `id`, it backs the new entry.
theorem backed_of_write (h : r.Fresh others live id b size) {answer : Option Block} {c' : Client ρ}
    (hserves : Client.Serves others ⟨r.allocator, live⟩ (.write b (tabulate size (pattern id))) answer
      c') : ((r.enter id b size).atop c'.allocator).Backed others c'.live := by
  obtain ⟨content₀, hcontent₀, hsize⟩ := h.entry
  obtain ⟨-, content, content', hcontent, hsize', hbytes, hledger⟩ := hserves.step.of_write
  obtain rfl := Option.some.inj (hcontent.symm.trans hcontent₀)
  refine ⟨hserves.reachable, hserves.leaves.base ▸ h.backed.aligned, hserves.kept,
    (h.backed.shadow.enter h.idle h.pos h.overlaps_eq).atop _, ?_⟩
  intro id' b' size' hlive
  change _ ∧ ∃ content, c'.ledger b' = some content ∧ _
  rw [hledger]
  rcases (getElem?_enter h.idle).mp hlive with ⟨rfl, rfl, rfl⟩ | hlive
  · refine ⟨h.out, content', if_pos rfl, by omega, fun k hk => ?_⟩
    rw [hbytes k (by rwa [size_tabulate]), getElem?_tabulate _ hk]
  · obtain ⟨hout, old, hold, hentry⟩ := h.backed.entries id' b' size' hlive
    exact ⟨hout, old, (if_neg (h.other id' b' size' hlive)).trans hold, hentry⟩

theorem exists_fill [FixedBase ρ] (h : r.Fresh others live id b size) :
    ∃ r', ((r.enter id b size).fill id b size).result = .ok r' ∧
      (r'.allocator.Compact →
        (∀ op, Machine.Replay.claim r op id b size = some (.ok (), r.enter id b size)) ∧
        Machine.Replay.fill (r.enter id b size) id b size = some r') ∧
      (∃ live', r'.Backed others live') ∧ r.allocator.Leaves others r'.allocator := by
  obtain ⟨answer, c', hserves, hmachine⟩ :=
    h.backed.exists_serves h.admits_write (by simpa [Request.target] using h.out)
  have hbacked := h.backed_of_write hserves
  refine ⟨(r.enter id b size).atop c'.allocator, ?_, fun hcompact => ⟨fun op => ?_, ?_⟩, ⟨_, hbacked⟩,
    hserves.leaves⟩
  · exact result_update (Request.fill_of_run hserves.run)
  · apply h.machine_claim op (hcompact.of_leaves hserves.leaves)
    have hbytes : r.liveBytes + size ≤ c'.allocator.heap.memory.size := hbacked.liveBytes_le
    have hmax : c'.allocator.heap.memory.size ≤ maxBlockSize := hcompact.size_le
    simp only [maxBlockSize, Machine.wordLimit] at hmax ⊢
    omega
  · have hrun : Machine.run (r.enter id b size).allocator (.write b (tabulate size (pattern id))) =
        some (answer, c'.allocator) := hmachine hcompact
    simp [Machine.Replay.fill, Machine.Replay.serve_of hrun]

end Fresh

namespace Backed

variable [FixedBase ρ]

theorem exists_retire (h : r.Backed others live) (op id : Nat) :
    ∃ answer r', Settles others r (r.retire op id) (Machine.Replay.retire r op id) answer r' ∧
      (answer = .ok () → r'.live[id]? = none) := by
  cases hlive : r.live[id]? with
  | none =>
      refine ⟨.error (.notLive op id), r, ⟨?_, fun _ => ?_, ⟨live, h⟩, .refl _ _, ?_⟩, by simp⟩
      · simp [retire, release, hlive]
      · simp [Machine.Replay.retire, Machine.Replay.release, hlive]
      · rintro error ⟨⟩
        exact .notLive op id
  | some e =>
      obtain ⟨b, size⟩ := e
      obtain ⟨hout, content, hcontent, -⟩ := h.entries id b size hlive
      have hwithout := h.without hlive
      obtain ⟨answer, c', hserves, hmachine⟩ := hwithout.exists_serves (q := .free (some b))
        ⟨by simpa [Request.target] using (Client.ledger_eq_some_iff.mp hcontent).1, trivial⟩
        (by simpa [Request.target] using hout)
      obtain ⟨rfl, hledger⟩ := hserves.step.of_free
      have hbacked := hwithout.atop hserves fun id' b' size' hlive' => by
        rw [hledger]
        exact if_neg (h.shadow.ne_of_without hlive hlive')
      have hfree : ((r.without id ⟨b, size⟩).update (·.free (some b))).result = .ok _ :=
        result_update (Request.free_of_run hserves.run)
      refine ⟨.ok (), _, ⟨?_, fun hcompact => ?_, ⟨_, hbacked⟩, hserves.leaves, by simp⟩, fun _ => ?_⟩
      · simp [retire, release_eq hlive, h.intact hlive, hfree]
      · have hverdict := h.machine_intact hlive (hcompact.of_leaves hserves.leaves)
        simp [Machine.Replay.retire, Machine.Replay.release_of h.shadow hlive, hverdict,
          Machine.Replay.serve_of (hmachine hcompact)]
      · simp [Replay.atop, Replay.without]

theorem exists_obtain (h : r.Backed others live) (hidle : r.live[id]? = none) (op size : Nat) :
    ∃ answer r', Settles others r (r.obtain op id size) (Machine.Replay.obtain r op id size) answer r' := by
  by_cases hzero : size = 0
  · refine ⟨.ok (), r, ⟨?_, fun _ => ?_, ⟨live, h⟩, .refl _ _, by simp⟩⟩
    · simp [obtain, hzero]
    · simp [Machine.Replay.obtain, hzero]
  obtain ⟨answer, c', hserves, hmachine⟩ := h.exists_serves (q := .allocate size)
    ⟨by simp [Request.target], trivial⟩ (by simp [Request.target])
  have hallocate := result_allocate hserves.run
  rcases hserves.step.of_allocate with ⟨rfl, hledger⟩ | ⟨b, content, rfl, hfresh, hroom, hledger⟩
  · have hbacked := h.atop hserves fun _ _ _ _ => congrFun hledger _
    refine ⟨.error (.outOfMemory op), _, ⟨?_, fun hcompact => ?_, ⟨_, hbacked⟩, hserves.leaves, ?_⟩⟩
    · simp [obtain, hzero, hallocate]
    · simp [Machine.Replay.obtain, hzero, Machine.Replay.serve_of (hmachine hcompact)]
    · rintro error ⟨⟩
      exact .outOfMemory op
  · have hb : (r.atop c'.allocator).Fresh others c'.live id b size :=
      h.fresh hserves hledger (h.notMem_of_ledger hfresh) hroom
        (fun _ _ _ hlive => ⟨h.ne_of_ledger hfresh hlive, rfl⟩) hidle (Nat.pos_of_ne_zero hzero)
    obtain ⟨r', hfill, hmachine', hbacked', hleaves⟩ := hb.exists_fill
    refine ⟨.ok (), r', ⟨?_, fun hcompact => ?_, hbacked', hserves.leaves.trans hleaves, by simp⟩⟩
    · simp [obtain, hzero, hallocate, hb.claim_eq, hfill]
    · obtain ⟨hclaim, hfill⟩ := hmachine' hcompact
      have hrun := hmachine (hcompact.of_leaves hleaves)
      simp [Machine.Replay.obtain, hzero, Machine.Replay.serve_of hrun, hclaim, hfill]

-- To resize to nothing is to free.
omit [FixedBase ρ] in
theorem step_realloc_zero (r : Replay ρ) (op id : Nat) : r.step op (.realloc id 0) = r.retire op id ∧
    Machine.Replay.step r op (.realloc id 0) = Machine.Replay.retire r op id := by
  constructor
  · simp only [step, retire]
    cases r.release id with
    | none => rfl
    | some out =>
        obtain ⟨e, ⟨a, live, ranges, liveBytes, peakLiveBytes⟩⟩ := out
        dsimp only
        congr 1
        funext intact
        cases intact <;> simp [reallocate, Allocator.reallocate, update]
  · simp only [Machine.Replay.step, Machine.Replay.retire]
    congr 1
    funext out
    cases out with
    | none => rfl
    | some out =>
        dsimp only
        congr 1
        funext intact
        cases intact with
        | false => rfl
        | true =>
            cases hfree : Machine.free out.2.allocator (some out.1.block) <;>
              simp [Machine.Replay.serve, Machine.run, Machine.reallocate, hfree]

theorem exists_resize (h : r.Backed others live) (op : Nat) {id size : Nat} (hpos : 0 < size) :
    ∃ answer r', Settles others r (r.step op (.realloc id size))
      (Machine.Replay.step r op (.realloc id size)) answer r' := by
  cases hlive : r.live[id]? with
  | none =>
      refine ⟨.error (.notLive op id), r, ⟨?_, fun _ => ?_, ⟨live, h⟩, .refl _ _, ?_⟩⟩
      · simp [step, release, hlive]
      · simp [Machine.Replay.step, Machine.Replay.release, hlive]
      · rintro error ⟨⟩
        exact .notLive op id
  | some e =>
      obtain ⟨b, old⟩ := e
      obtain ⟨hout, content, hcontent, hroom, hbytes⟩ := h.entries id b old hlive
      have hintact := h.intact hlive
      have hreleased := Machine.Replay.release_of h.shadow hlive
      have hwithout := h.without hlive
      obtain ⟨answer, c', hserves, hmachine⟩ := hwithout.exists_serves (q := .reallocate (some b) size)
        ⟨by simpa [Request.target] using (Client.ledger_eq_some_iff.mp hcontent).1, trivial⟩
        (by simpa [Request.target] using hout)
      have hreallocate := result_reallocate hserves.run
      rcases hserves.step.of_reallocate hpos with ⟨rfl, hledger⟩ |
        ⟨q, content₀, content', rfl, hcontent₀, hfresh, hroom', hkept, hledger⟩
      · have hbacked := hwithout.atop hserves fun _ _ _ _ => congrFun hledger _
        refine ⟨.error (.outOfMemory op), _, ⟨?_, fun hcompact => ?_, ⟨_, hbacked⟩, hserves.leaves, ?_⟩⟩
        · simp [step, release_eq hlive, hintact, hreallocate, Nat.ne_of_gt hpos]
        · have hverdict := h.machine_intact hlive (hcompact.of_leaves hserves.leaves)
          simp [Machine.Replay.step, hreleased, hverdict, Machine.Replay.serve_of (hmachine hcompact),
            Nat.ne_of_gt hpos]
        · rintro error ⟨⟩
          exact .outOfMemory op
      · obtain rfl := Option.some.inj (hcontent.symm.trans hcontent₀)
        have hidle : (r.without id ⟨b, old⟩).live[id]? = none := by simp [Replay.without]
        have hout' : q ∉ others := by
          rcases hfresh with rfl | hfresh
          · exact hout
          · exact hwithout.notMem_of_ledger hfresh
        have hq : ((r.without id ⟨b, old⟩).atop c'.allocator).Fresh others c'.live id q size := by
          refine hwithout.fresh hserves hledger hout' hroom' (fun id' b' size' hlive' => ?_) hidle hpos
          have hne := h.shadow.ne_of_without hlive hlive'
          refine ⟨?_, if_neg hne⟩
          rcases hfresh with rfl | hfresh
          · exact hne
          · exact hwithout.ne_of_ledger hfresh hlive'
        have hagain : (((r.without id ⟨b, old⟩).atop c'.allocator).enter id q size).intact id q
            (min old size) = .ok true := by
          have hnew : c'.ledger q = some content' := by
            rw [hledger]
            exact if_pos rfl
          refine hq.backed.geometry.holds_eq hnew (by omega) fun k hk => ?_
          rw [hkept k (by omega)]
          exact hbytes k (by omega)
        obtain ⟨r', hfill, hmachine', hbacked', hleaves⟩ := hq.exists_fill
        refine ⟨.ok (), r', ⟨?_, fun hcompact => ?_, hbacked', hserves.leaves.trans hleaves, by simp⟩⟩
        · simp [step, release_eq hlive, hintact, hreallocate, hq.claim_eq, hagain, hfill]
        · obtain ⟨hclaim, hfill⟩ := hmachine' hcompact
          have hcompact₁ := hcompact.of_leaves hleaves
          have hverdict := h.machine_intact hlive (hcompact₁.of_leaves hserves.leaves)
          have hverdict' : Machine.Replay.intact (((r.without id ⟨b, old⟩).atop c'.allocator).enter id q size)
              id q (min old size) = some true :=
            Machine.Replay.intact_of hcompact₁.spacious hagain
          simp [Machine.Replay.step, hreleased, hverdict, Machine.Replay.serve_of (hmachine hcompact₁),
            hclaim, hverdict', hfill]

end Backed

end Replay

end SegregatedFit
