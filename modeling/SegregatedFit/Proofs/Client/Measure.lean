import SegregatedFit.Proofs.Allocator.Diagnosis
import SegregatedFit.Proofs.Client.Plan

/-!
How much longer a request makes the heap. The steps on a heap leave its length as it is, and what is asked
of the reserve is all that is added. So whatever every answer of the reserve keeps true, of itself and of
the number of bytes that have been taken from it, every request keeps true.
-/

namespace SegregatedFit

theorem Memory.size_of_overwrite {m m' : Memory} {pos : Nat} {source : ByteArray}
    (h : m.overwrite pos source = .ok m') : m'.size = m.size := by
  by_cases hpos : pos + source.size ≤ m.size
  · obtain ⟨m₁, hwrite, hsize, -⟩ := exists_overwrite m pos source hpos
    obtain rfl := Except.ok.inj (hwrite.symm.trans h)
    exact hsize
  · obtain ⟨bytes⟩ := m
    simp only [size] at hpos
    rw [overwrite, if_neg hpos] at h
    cases h

namespace Heap

variable {h h' : Heap} {b b' size : Nat}

theorem size_of_release (hrelease : h.release b = .ok h') : h'.memory.size = h.memory.size := by
  obtain ⟨m, ix, p⟩ := h
  obtain ⟨size, -, hrelease⟩ := bind_eq_ok_iff.mp hrelease
  obtain ⟨m₁, hwrite, hrelease⟩ := bind_eq_ok_iff.mp hrelease
  obtain ⟨⟨start, h₁⟩, hcoalesce, hrelease⟩ := bind_eq_ok_iff.mp hrelease
  obtain rfl := Except.ok.inj hrelease
  exact (coalesce_kept hcoalesce).1.trans (Machine.size_of_write hwrite)

theorem size_of_stretch (hstretch : h.stretch b size = .ok h') : h'.memory.size = h.memory.size := by
  obtain ⟨m, ix, p⟩ := h
  obtain ⟨m₁, hwrite, hstretch⟩ := bind_eq_ok_iff.mp hstretch
  obtain ⟨next, -, hstretch⟩ := bind_eq_ok_iff.mp hstretch
  obtain ⟨m₂, hepilogue, hstretch⟩ := bind_eq_ok_iff.mp hstretch
  obtain rfl := Except.ok.inj hstretch
  exact (Machine.size_of_writeHeader hepilogue).1.trans (Machine.size_of_write hwrite)

theorem size_of_absorb {next gain total : Nat} (habsorb : h.absorb b next gain total = .ok h') :
    h'.memory.size = h.memory.size := by
  obtain ⟨m, ix, p⟩ := h
  obtain ⟨m₁, hwrite, habsorb⟩ := bind_eq_ok_iff.mp habsorb
  obtain rfl := Except.ok.inj habsorb
  exact Machine.size_of_write hwrite

theorem size_of_fill {bytes : ByteArray} (hfill : h.fill b bytes = .ok h') :
    h'.memory.size = h.memory.size := by
  obtain ⟨m, ix, p⟩ := h
  obtain ⟨usable, -, hfill⟩ := bind_eq_ok_iff.mp hfill
  split at hfill
  · cases hfill
  · obtain ⟨m₁, hwrite, hfill⟩ := bind_eq_ok_iff.mp hfill
    obtain rfl := Except.ok.inj hfill
    exact Memory.size_of_overwrite hwrite

theorem size_of_copy {source target count : Nat} (hcopy : h.copy source target count = .ok h') :
    h'.memory.size = h.memory.size := by
  obtain ⟨m, ix, p⟩ := h
  obtain ⟨bytes, -, hcopy⟩ := bind_eq_ok_iff.mp hcopy
  obtain ⟨m₁, hwrite, hcopy⟩ := bind_eq_ok_iff.mp hcopy
  obtain rfl := Except.ok.inj hcopy
  exact Memory.size_of_overwrite hwrite

theorem size_of_enlarge {fresh : ByteArray} (henlarge : h.enlarge fresh = .ok (b, h')) :
    h'.memory.size = h.memory.size + fresh.size := by
  obtain ⟨h₁, hannex, hcoalesce⟩ := bind_eq_ok_iff.mp henlarge
  exact (coalesce_kept hcoalesce).1.trans
    ((Allocator.annex_kept hannex).1.trans (Memory.size_append h.memory fresh))

theorem size_of_moveInto {request moved : Nat} (hmove : moveInto b size request moved h = .ok (b', h')) :
    h'.memory.size = h.memory.size := by
  obtain ⟨usable, -, hmove⟩ := bind_eq_ok_iff.mp hmove
  obtain ⟨h₁, hcopy, hmove⟩ := bind_eq_ok_iff.mp hmove
  obtain ⟨h₂, hrelease, hmove⟩ := bind_eq_ok_iff.mp hmove
  obtain ⟨-, rfl⟩ := Prod.mk.inj (Except.ok.inj hmove)
  exact (size_of_release hrelease).trans (size_of_copy hcopy)

end Heap

-- A plan for a heap of `len` bytes, which adds the bytes that it asks for and no others.
def Plan.Measured (len : Nat) : Plan → Prop
  | settled outcome => ∀ answer h, outcome = .ok (answer, h) → h.memory.size = len
  | asking delta granted => ∀ fresh b h, granted fresh = .ok (b, h) → h.memory.size = len + delta

namespace Plan.Measured

variable {len : Nat} {plan : Plan}

theorem reading {α : Type} (x : Except Fault α) {next : α → Plan}
    (hnext : ∀ v, (next v).Measured len) : (Plan.reading x next).Measured len := by
  cases x with
  | error fault => exact fun _ _ hfault => nomatch hfault
  | ok v => exact hnext v

theorem unchanged (answer : Option Block) (h : Heap) :
    (settled (.ok (answer, h))).Measured h.memory.size := by
  intro answer' h' hsame
  obtain ⟨-, rfl⟩ := Prod.mk.inj (Except.ok.inj hsame)
  rfl

theorem stepping {x : Except Fault Heap} (answer : Option Block)
    (hx : ∀ h, x = .ok h → h.memory.size = len) :
    (settled do return (answer, ← x)).Measured len := by
  intro answer' h' hstep
  obtain ⟨h₁, hok, hsame⟩ := bind_eq_ok_iff.mp hstep
  obtain ⟨-, rfl⟩ := Prod.mk.inj (Except.ok.inj hsame)
  exact hx h₁ hok

theorem andThen (hplan : plan.Measured len) {next : Block → Heap → Except Fault (Block × Heap)}
    (hnext : ∀ b h b' h', next b h = .ok (b', h') → h'.memory.size = h.memory.size) :
    (plan.andThen next).Measured len := by
  cases plan with
  | settled outcome =>
      intro answer h' hrun
      obtain ⟨⟨_ | b, h⟩, houtcome, hrun⟩ := bind_eq_ok_iff.mp hrun
      · obtain ⟨-, rfl⟩ := Prod.mk.inj (Except.ok.inj hrun)
        exact hplan _ _ houtcome
      · dsimp only at hrun
        rcases hmove : next b h with fault | ⟨b', h₁⟩ <;> rw [hmove] at hrun
        · cases hrun
        · obtain ⟨-, rfl⟩ := Prod.mk.inj (Except.ok.inj hrun)
          exact (hnext b h b' h₁ hmove).trans (hplan _ _ houtcome)
  | asking delta granted =>
      intro fresh b' h' hrun
      obtain ⟨⟨b, h⟩, hgranted, hrun⟩ := bind_eq_ok_iff.mp hrun
      exact (hnext b h b' h' hrun).trans (hplan fresh b h hgranted)

end Plan.Measured

namespace Heap

variable (h : Heap) (chunk : ChunkSize)

theorem measured_planAllocate (size : Nat) : (h.planAllocate chunk size).Measured h.memory.size := by
  unfold planAllocate
  by_cases hzero : size = 0
  · rw [if_pos hzero]
    exact .unchanged none h
  rw [if_neg hzero]
  cases blockSizeFor size with
  | none => exact .unchanged none h
  | some need =>
      refine .reading _ fun found => ?_
      cases found with
      | some b => exact .stepping (some b) fun h' => Machine.size_of_place
      | none =>
          rintro ⟨fresh, hfresh⟩ b h' hgranted
          obtain ⟨⟨b₁, h₁⟩, henlarge, hgranted⟩ := bind_eq_ok_iff.mp hgranted
          obtain ⟨h₂, hplace, hgranted⟩ := bind_eq_ok_iff.mp hgranted
          obtain ⟨-, rfl⟩ := Prod.mk.inj (Except.ok.inj hgranted)
          rw [Machine.size_of_place hplace, size_of_enlarge henlarge, hfresh]

theorem measured_planResize (b : Block) (request need : Nat) :
    (h.planResize chunk b request need).Measured h.memory.size := by
  refine .reading _ fun size => ?_
  by_cases hstay : need ≤ size
  · rw [if_pos hstay]
    exact .unchanged (some b) h
  rw [if_neg hstay]
  refine .reading _ fun next => .reading _ fun after => ?_
  dsimp only
  split
  · exact .stepping (some b) fun h' => size_of_absorb
  split
  · rintro ⟨fresh, hfresh⟩ b' h' hgranted
    obtain ⟨h₁, hstretch, hgranted⟩ := bind_eq_ok_iff.mp hgranted
    obtain ⟨-, rfl⟩ := Prod.mk.inj (Except.ok.inj hgranted)
    rw [size_of_stretch hstretch, Memory.size_append, hfresh]
  · exact (h.measured_planAllocate chunk request).andThen fun moved h₁ b' h' => size_of_moveInto

end Heap

theorem Request.measured_plan (r : Request) (h : Heap) (chunk : ChunkSize) :
    (r.plan h chunk).Measured h.memory.size := by
  cases r with
  | allocate size => exact h.measured_planAllocate chunk size
  | free block =>
      cases block with
      | none => exact .unchanged none h
      | some b => exact .stepping none fun h' => Heap.size_of_release
  | write b content => exact .stepping none fun h' => Heap.size_of_fill
  | reallocate block size =>
      cases block with
      | none => exact h.measured_planAllocate chunk size
      | some b =>
          unfold plan Heap.planReallocate
          dsimp only
          by_cases hzero : size = 0
          · rw [if_pos hzero]
            exact .stepping none fun h' => Heap.size_of_release
          rw [if_neg hzero]
          cases blockSizeFor size with
          | none => exact .unchanged none h
          | some need => exact h.measured_planResize chunk b size need

variable {ρ : Type} [Reserve ρ]

-- What is true of a reserve and of the number of bytes that have been taken from it, and remains so whether
-- a request for more is refused or granted.
structure Reserve.Lasting (holds : ρ → Nat → Prop) : Prop where
  refused : ∀ (r : ρ) (len delta : Nat) (cause : GrowError), holds r len →
    (Reserve.request r len delta).fresh = .error cause → holds (Reserve.request r len delta).reserve len
  granted : ∀ (r : ρ) (len delta : Nat) (fresh : { bytes : ByteArray // bytes.size = delta }),
    holds r len → (Reserve.request r len delta).fresh = .ok fresh →
      holds (Reserve.request r len delta).reserve (len + delta)

theorem Reserve.Lasting.run {holds : ρ → Nat → Prop} (hlasting : Lasting holds) {a a' : Allocator ρ}
    {r : Request} {answer : Option Block} (hrun : (r.run a).result = .ok (answer, a'))
    (h : holds a.reserve a.heap.memory.size) : holds a'.reserve a'.heap.memory.size := by
  have hmeasured := r.measured_plan a.heap a.chunk
  rw [r.result_run] at hrun
  cases hplan : r.plan a.heap a.chunk with
  | settled outcome =>
      rw [hplan] at hrun hmeasured
      obtain ⟨h', houtcome, rfl⟩ := Plan.run_settled_eq_ok hrun
      dsimp only
      rwa [hmeasured _ _ houtcome]
  | asking delta granted =>
      rw [hplan] at hrun hmeasured
      obtain ⟨cause, hfresh, -, rfl⟩ | ⟨fresh, b, h', hfresh, hgranted, -, rfl⟩ :=
        Plan.run_asking_eq_ok hrun
      · exact hlasting.refused _ _ delta cause h hfresh
      · dsimp only
        rw [hmeasured fresh b h' hgranted]
        exact hlasting.granted _ _ delta fresh h hfresh

end SegregatedFit
