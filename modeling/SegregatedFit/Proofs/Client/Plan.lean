import SegregatedFit.Proofs.Client.Course

/-!
What an allocator does, apart from its reserve. The heap alone decides whether a request is settled at once
or waits for a number of fresh bytes, and in the second case the bytes are all that the reserve adds. When
they are refused, nothing has happened to the heap yet.
-/

namespace SegregatedFit

-- Either the reserve is not asked, or it is asked once for `delta` bytes. When it grants them, there is an
-- answer; when it does not, there is none.
inductive Plan where
  | settled (outcome : Except Fault (Option Block × Heap))
  | asking (delta : Nat) (granted : { bytes : ByteArray // bytes.size = delta } → Except Fault (Block × Heap))

namespace Plan

-- A plan that starts with a look at the heap.
def reading {α : Type} (x : Except Fault α) (next : α → Plan) : Plan :=
  match x with
  | .error fault => settled (.error fault)
  | .ok v => next v

-- Goes on with the block that is handed out, if there is one.
def andThen (next : Block → Heap → Except Fault (Block × Heap)) : Plan → Plan
  | settled outcome => settled do
    match ← outcome with
    | (none, h) => return (none, h)
    | (some b, h) => (next b h).map fun (b, h) => (some b, h)
  | asking delta granted => asking delta fun fresh => do
    let (b, h) ← granted fresh
    next b h

variable {ρ : Type} [Reserve ρ]

-- What the reserve makes of a plan.
def run (a : Allocator ρ) : Plan → Except Fault (Option Block × Allocator ρ)
  | settled outcome => outcome.map fun (answer, h) => (answer, ⟨h, a.reserve, a.chunk⟩)
  | asking delta granted =>
    match (a.request delta).fresh with
    | .error _ => .ok (none, ⟨a.heap, (a.request delta).reserve, a.chunk⟩)
    | .ok fresh => (granted fresh).map fun (b, h) => (some b, ⟨h, (a.request delta).reserve, a.chunk⟩)

@[simp] theorem run_settled (a : Allocator ρ) (outcome : Except Fault (Option Block × Heap)) :
    (settled outcome).run a = outcome.map fun (answer, h) => (answer, ⟨h, a.reserve, a.chunk⟩) := rfl

variable {a a' : Allocator ρ} {answer : Option Block}

theorem run_settled_eq_ok {outcome : Except Fault (Option Block × Heap)}
    (hrun : (settled outcome).run a = .ok (answer, a')) :
    ∃ h, outcome = .ok (answer, h) ∧ a' = ⟨h, a.reserve, a.chunk⟩ := by
  rcases outcome with fault | ⟨given, h⟩
  · cases hrun
  · obtain ⟨rfl, rfl⟩ := Prod.mk.inj (Except.ok.inj hrun)
    exact ⟨h, rfl, rfl⟩

-- The bytes are either refused or put to use.
theorem run_asking_eq_ok {delta : Nat}
    {granted : { bytes : ByteArray // bytes.size = delta } → Except Fault (Block × Heap)}
    (hrun : (asking delta granted).run a = .ok (answer, a')) :
    (∃ cause, (a.request delta).fresh = .error cause ∧ answer = none ∧
        a' = ⟨a.heap, (a.request delta).reserve, a.chunk⟩) ∨
      ∃ fresh b h, (a.request delta).fresh = .ok fresh ∧ granted fresh = .ok (b, h) ∧ answer = some b ∧
        a' = ⟨h, (a.request delta).reserve, a.chunk⟩ := by
  simp only [run] at hrun
  cases hfresh : (a.request delta).fresh with
  | error cause =>
      rw [hfresh] at hrun
      obtain ⟨rfl, rfl⟩ := Prod.mk.inj (Except.ok.inj hrun)
      exact .inl ⟨cause, rfl, rfl, rfl⟩
  | ok fresh =>
      rw [hfresh] at hrun
      dsimp only at hrun
      rcases hgranted : granted fresh with fault | ⟨b, h⟩
      · simp [hgranted, Except.map] at hrun
      · rw [hgranted] at hrun
        obtain ⟨rfl, rfl⟩ := Prod.mk.inj (Except.ok.inj hrun)
        exact .inr ⟨fresh, b, h, rfl, hgranted, rfl, rfl⟩

-- Either the reserve has not been asked, or it has been asked once.
theorem reserve_of_run {plan : Plan} (hrun : plan.run a = .ok (answer, a')) :
    a'.reserve = a.reserve ∨ ∃ delta, a'.reserve = (a.request delta).reserve := by
  cases plan with
  | settled outcome =>
      obtain ⟨h, -, rfl⟩ := run_settled_eq_ok hrun
      exact .inl rfl
  | asking delta granted =>
      obtain ⟨cause, -, -, rfl⟩ | ⟨fresh, b, h, -, -, -, rfl⟩ := run_asking_eq_ok hrun
      · exact .inr ⟨delta, rfl⟩
      · exact .inr ⟨delta, rfl⟩

@[simp] theorem run_reading {α : Type} (a : Allocator ρ) (x : Except Fault α) (next : α → Plan) :
    (reading x next).run a = x >>= fun v => (next v).run a := by
  cases x <;> rfl

end Plan

namespace Heap

-- The bytes behind the last block become a free block, which is merged with a free one before it.
def enlarge (h : Heap) (fresh : ByteArray) : Except Fault (Block × Heap) := do
  let h' ← annex ⟨h.memory.append fresh, h.index, h.prologue⟩ h.memory.size fresh.size
  h'.coalesce h.memory.size

def planAllocate (h : Heap) (chunk : ChunkSize) (size : Nat) : Plan :=
  if size = 0 then .settled (.ok (none, h))
  else
    match blockSizeFor size with
    | none => .settled (.ok (none, h))
    | some need =>
      .reading (h.findFit need) fun
        | some b => .settled do return (some b, ← h.place b need)
        | none => .asking (alignUp (max need chunk.val)) fun fresh => do
          let (b, h') ← h.enlarge fresh
          return (b, ← h'.place b need)

-- The content of block `b`, of `size` bytes, moves to the block `moved`, and `b` is given back.
def moveInto (b size request : Nat) (moved : Block) (h : Heap) : Except Fault (Block × Heap) := do
  let count := min (← subtract size overhead) request
  let h ← h.copy b moved count
  return (moved, ← h.release b)

def planResize (h : Heap) (chunk : ChunkSize) (b : Block) (request need : Nat) : Plan :=
  .reading (b.size h.memory) fun size =>
    if need ≤ size then .settled (.ok (some b, h))
    else
      .reading (b.next h.memory) fun next =>
        .reading (Block.tag h.memory next) fun after =>
          let total := size + after.size
          if ¬after.allocated ∧ need ≤ total ∧ total ≤ maxBlockSize then
            .settled do return (some b, ← h.absorb b next after.size total)
          else if after.size = 0 then
            .asking (need - size) fun fresh => do
              return (b, ← stretch ⟨h.memory.append fresh, h.index, h.prologue⟩ b need)
          else
            (h.planAllocate chunk request).andThen (moveInto b size request)

def planReallocate (h : Heap) (chunk : ChunkSize) (block : Option Block) (size : Nat) : Plan :=
  match block with
  | none => h.planAllocate chunk size
  | some b =>
    if size = 0 then .settled do return (none, ← h.release b)
    else
      match blockSizeFor size with
      | none => .settled (.ok (none, h))
      | some need => h.planResize chunk b size need

end Heap

namespace Allocator

variable {ρ : Type} [Reserve ρ]

theorem result_grow (a : Allocator ρ) (bytes : Nat) :
    (a.grow bytes).result = match (a.request (alignUp bytes)).fresh with
      | .error cause => .ok (.error cause, ⟨a.heap, (a.request (alignUp bytes)).reserve, a.chunk⟩)
      | .ok fresh => (a.heap.enlarge fresh).map fun (b, h) =>
          (.ok b, ⟨h, (a.request (alignUp bytes)).reserve, a.chunk⟩) := by
  simp only [grow, Run.result_bind]
  rcases a.extend_cases (alignUp bytes) with ⟨cause, hfresh, hextend⟩ | ⟨⟨fresh, hsize⟩, hfresh, hextend⟩
  · rw [hextend, hfresh]
    rfl
  · rw [hextend, hfresh]
    simp only [ok_bind, update, Run.result_bind, Run.result_lift, Heap.enlarge, hsize]
    cases Heap.annex ⟨a.heap.memory.append fresh, a.heap.index, a.heap.prologue⟩ a.heap.memory.size
        (alignUp bytes) with
    | error fault => rfl
    | ok h₁ =>
        simp only [ok_bind, Run.result_pure, Run.result_emit]
        cases h₁.coalesce a.heap.memory.size <;> rfl

theorem result_allocate (a : Allocator ρ) (size : Nat) :
    (a.allocate size).result = (a.heap.planAllocate a.chunk size).run a := by
  unfold allocate Heap.planAllocate
  by_cases hzero : size = 0
  · rw [if_pos hzero, if_pos hzero]
    rfl
  rw [if_neg hzero, if_neg hzero]
  cases hneed : blockSizeFor size with
  | none => rfl
  | some need =>
      simp only [Run.result_bind, Run.result_lift, Plan.run_reading]
      cases hfit : a.heap.findFit need with
      | error fault => rfl
      | ok found =>
          cases found with
          | some b =>
              simp only [ok_bind, Plan.run_settled, update, Run.result_bind, Run.result_lift]
              cases a.heap.place b need <;> rfl
          | none =>
              simp only [ok_bind, Run.result_bind, result_grow, Plan.run]
              cases (a.request (alignUp (max need a.chunk.val))).fresh with
              | error cause => rfl
              | ok fresh =>
                  dsimp only
                  cases a.heap.enlarge fresh with
                  | error fault => rfl
                  | ok grown =>
                      obtain ⟨b, h'⟩ := grown
                      simp only [ok_bind, Except.map, update, Run.result_bind, Run.result_lift]
                      cases h'.place b need <;> rfl

theorem result_move (a : Allocator ρ) (b size request : Nat) :
    (a.move b size request).result =
      ((a.heap.planAllocate a.chunk request).andThen (Heap.moveInto b size request)).run a := by
  -- whatever the reserve has become by then
  have hrest : ∀ (moved : Block) (h : Heap) (s : ρ),
      (do
        let count := min (← subtract size overhead) request
        let a ← (Allocator.mk h s a.chunk).update (·.copy b moved count)
        let a ← a.free (some b)
        return (some moved, a) : Run (Option Block × Allocator ρ)).result =
      (Heap.moveInto b size request moved h).map fun (b, h) => (some b, ⟨h, s, a.chunk⟩) := by
    intro moved h s
    simp only [Heap.moveInto, update, free, Run.result_bind, Run.result_lift]
    cases subtract size overhead with
    | error fault => rfl
    | ok usable =>
        simp only [ok_bind]
        cases h.copy b moved (min usable request) with
        | error fault => rfl
        | ok h₁ =>
            simp only [ok_bind, Run.result_pure]
            cases h₁.release b <;> rfl
  rw [move, Run.result_bind, result_allocate]
  cases a.heap.planAllocate a.chunk request with
  | settled outcome =>
      rcases outcome with fault | ⟨_ | moved, h⟩
      · rfl
      · rfl
      · refine (hrest moved h a.reserve).trans ?_
        simp only [Plan.andThen, Plan.run_settled, ok_bind]
        cases Heap.moveInto b size request moved h <;> rfl
  | asking delta granted =>
      simp only [Plan.run, Plan.andThen]
      cases (a.request delta).fresh with
      | error cause => rfl
      | ok fresh =>
          dsimp only
          rcases granted fresh with fault | ⟨moved, h⟩
          · rfl
          · exact hrest moved h (a.request delta).reserve

theorem result_resize (a : Allocator ρ) (b : Block) (request need : Nat) :
    (a.resize b request need).result = (a.heap.planResize a.chunk b request need).run a := by
  unfold resize Heap.planResize
  simp only [Run.result_bind, Run.result_lift, Plan.run_reading]
  cases b.size a.heap.memory with
  | error fault => rfl
  | ok size =>
      simp only [ok_bind]
      by_cases hstay : need ≤ size
      · rw [if_pos hstay, if_pos hstay]
        rfl
      rw [if_neg hstay, if_neg hstay]
      simp only [Run.result_bind, Run.result_lift, Plan.run_reading]
      cases b.next a.heap.memory with
      | error fault => rfl
      | ok next =>
          simp only [ok_bind]
          cases Block.tag a.heap.memory next with
          | error fault => rfl
          | ok after =>
              simp only [ok_bind]
              by_cases habsorb : ¬after.allocated = true ∧ need ≤ size + after.size ∧
                  size + after.size ≤ maxBlockSize
              · rw [if_pos habsorb, if_pos habsorb]
                simp only [update, Run.result_bind, Run.result_lift, Plan.run_settled]
                cases a.heap.absorb b next after.size (size + after.size) <;> rfl
              rw [if_neg habsorb, if_neg habsorb]
              by_cases hlast : after.size = 0
              · rw [if_pos hlast, if_pos hlast]
                simp only [Run.result_bind, Plan.run]
                rcases a.extend_cases (need - size) with
                  ⟨cause, hfresh, hextend⟩ | ⟨fresh, hfresh, hextend⟩
                · rw [hextend, hfresh]
                  rfl
                · rw [hextend, hfresh]
                  simp only [ok_bind, update, Run.result_bind, Run.result_lift]
                  cases Heap.stretch ⟨a.heap.memory.append fresh, a.heap.index, a.heap.prologue⟩ b need <;>
                    rfl
              · rw [if_neg hlast, if_neg hlast]
                exact a.result_move b size request

omit [Reserve ρ] in
theorem result_free (a : Allocator ρ) (b : Block) :
    (a.free (some b)).result = (a.heap.release b).map fun h => ⟨h, a.reserve, a.chunk⟩ := by
  simp only [free, update, Run.result_bind, Run.result_lift]
  cases a.heap.release b <;> rfl

theorem result_reallocate (a : Allocator ρ) (block : Option Block) (size : Nat) :
    (a.reallocate block size).result = (a.heap.planReallocate a.chunk block size).run a := by
  cases block with
  | none => exact a.result_allocate size
  | some b =>
      unfold reallocate Heap.planReallocate
      dsimp only
      by_cases hzero : size = 0
      · rw [if_pos hzero, if_pos hzero]
        simp only [Run.result_bind, result_free, Plan.run_settled]
        cases a.heap.release b <;> rfl
      rw [if_neg hzero, if_neg hzero]
      cases blockSizeFor size with
      | none => rfl
      | some need => exact a.result_resize b size need

end Allocator

namespace Request

def plan (h : Heap) (chunk : ChunkSize) : Request → Plan
  | allocate size => h.planAllocate chunk size
  | free none => .settled (.ok (none, h))
  | free (some b) => .settled do return (none, ← h.release b)
  | reallocate block size => h.planReallocate chunk block size
  | write b content => .settled do return (none, ← h.fill b content)

variable {ρ : Type} [Reserve ρ]

-- What a request does is its plan, whatever the state of the heap.
theorem result_run (r : Request) (a : Allocator ρ) :
    (r.run a).result = (r.plan a.heap a.chunk).run a := by
  cases r with
  | allocate size => exact a.result_allocate size
  | free block =>
      cases block with
      | none => rfl
      | some b =>
          simp only [run, plan, Run.result_bind, Allocator.result_free, Plan.run_settled]
          cases a.heap.release b <;> rfl
  | reallocate block size => exact a.result_reallocate block size
  | write b content =>
      simp only [run, plan, Allocator.update, Run.result_bind, Run.result_lift, Plan.run_settled]
      cases a.heap.fill b content <;> rfl

end Request

namespace Plan

-- A plan that has done nothing to the heap `h` when there is no answer.
def Atomic (h : Heap) : Plan → Prop
  | settled outcome => ∀ h', outcome = .ok (none, h') → h' = h
  | asking _ _ => True

variable {h : Heap} {plan : Plan}

theorem Atomic.reading {α : Type} (x : Except Fault α) {next : α → Plan}
    (hnext : ∀ v, x = .ok v → (next v).Atomic h) : (Plan.reading x next).Atomic h := by
  cases x with
  | error fault => exact fun _ hfault => nomatch hfault
  | ok v => exact hnext v rfl

theorem Atomic.declining (h : Heap) : (settled (.ok (none, h))).Atomic h := fun _ hsame =>
  (Prod.mk.inj (Except.ok.inj hsame)).2.symm

theorem Atomic.answering {x : Except Fault Heap} (b : Block) :
    (settled do return (some b, ← x)).Atomic h := by
  intro h' hnone
  cases x with
  | error fault => cases hnone
  | ok v => cases hnone

theorem Atomic.andThen (hatomic : plan.Atomic h) (next : Block → Heap → Except Fault (Block × Heap)) :
    (plan.andThen next).Atomic h := by
  cases plan with
  | asking delta granted => trivial
  | settled outcome =>
      intro h' hnone
      rcases outcome with fault | ⟨_ | b, h₁⟩
      · cases hnone
      · obtain ⟨-, rfl⟩ := Prod.mk.inj (Except.ok.inj hnone)
        exact hatomic _ rfl
      · simp only [ok_bind] at hnone
        cases hnext : next b h₁ <;> simp [hnext, Except.map] at hnone

-- Whatever the reserve has answered, it is the only thing that has changed.
theorem Atomic.run {ρ : Type} [Reserve ρ] {a a' : Allocator ρ} (hatomic : plan.Atomic a.heap)
    (hrun : plan.run a = .ok (none, a')) : a'.heap = a.heap ∧ a'.chunk = a.chunk := by
  cases plan with
  | settled outcome =>
      obtain ⟨h, hnone, rfl⟩ := run_settled_eq_ok hrun
      exact ⟨hatomic h hnone, rfl⟩
  | asking delta granted =>
      obtain ⟨cause, -, -, rfl⟩ | ⟨fresh, b, h, -, -, hanswer, -⟩ := run_asking_eq_ok hrun
      · exact ⟨rfl, rfl⟩
      · cases hanswer

end Plan

namespace Heap

variable (h : Heap) (chunk : ChunkSize)

theorem atomic_planAllocate (size : Nat) : (h.planAllocate chunk size).Atomic h := by
  unfold planAllocate
  by_cases hzero : size = 0
  · rw [if_pos hzero]
    exact .declining h
  rw [if_neg hzero]
  cases blockSizeFor size with
  | none => exact .declining h
  | some need =>
      refine .reading _ fun found _ => ?_
      cases found with
      | some b => exact .answering b
      | none => trivial

theorem atomic_planResize (b : Block) (request need : Nat) : (h.planResize chunk b request need).Atomic h := by
  refine .reading _ fun size _ => ?_
  by_cases hstay : need ≤ size
  · rw [if_pos hstay]
    exact .answering (x := .ok h) b
  rw [if_neg hstay]
  refine .reading _ fun next _ => .reading _ fun after _ => ?_
  dsimp only
  split
  · exact .answering b
  split
  · trivial
  · exact (h.atomic_planAllocate chunk request).andThen _

end Heap

-- The requests for a block, to which no answer means that there is none to be had.
def Request.Demands : Request → Prop
  | allocate _ => True
  | reallocate _ size => size ≠ 0
  | free _ | write .. => False

theorem Request.Demands.atomic {r : Request} (hr : r.Demands) (h : Heap) (chunk : ChunkSize) :
    (r.plan h chunk).Atomic h := by
  cases r with
  | allocate size => exact h.atomic_planAllocate chunk size
  | free block => cases hr
  | write b content => cases hr
  | reallocate block size =>
      cases block with
      | none => exact h.atomic_planAllocate chunk size
      | some b =>
          have hsize : size ≠ 0 := hr
          unfold plan Heap.planReallocate
          dsimp only
          rw [if_neg hsize]
          cases blockSizeFor size with
          | none => exact .declining h
          | some need => exact h.atomic_planResize chunk b size need

end SegregatedFit
