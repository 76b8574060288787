import SegregatedFit.Proofs.Client.Course
import SegregatedFit.Proofs.Region.FixedBase

/-!
The record of a run: what was answered, which states were gone through, and which requests for more bytes
were granted. One request takes a client from an outline to the next, and the outline together with the
record of what was granted leaves no choice about it.
-/

namespace SegregatedFit

-- A reserve that keeps book of which of its requests are granted.
structure Recorded (ρ : Type) where
  inner : ρ
  grants : List Bool

namespace Recorded

variable {ρ : Type}

def request [Reserve ρ] (r : Recorded ρ) (len delta : Nat) : Answer (Recorded ρ) delta :=
  let ⟨fresh, inner, log⟩ := Reserve.request r.inner len delta
  ⟨fresh, ⟨inner, r.grants ++ [fresh.isOk]⟩, log⟩

instance [Reserve ρ] : Reserve (Recorded ρ) where
  base r := Reserve.base r.inner
  request := request

end Recorded

-- What comes of a course at the outline `o`, given what is granted on it.
inductive Course.Ends (o : Outline) : Course → List Bool → Option Block → Outline → Prop
  | settled {answer : Option Block} {after : Outline} : Ends o (.settled answer after) [] answer after
  | refused {delta : Nat} {b : Block} {after : Outline} :
      Ends o (.growing delta b after) [false] none o
  | grown {delta : Nat} {b : Block} {after : Outline} :
      Ends o (.growing delta b after) [true] (some b) after

-- What the reserve grants on a course.
def Allocator.granting {ρ : Type} [Reserve ρ] (a : Allocator ρ) : Course → List Bool
  | .settled _ _ => []
  | .growing delta _ _ => [(a.request delta).fresh.isOk]

namespace Client

section

variable {ρ : Type} [Reserve ρ]

-- Which of the requests for more bytes that `r` makes of the reserve are granted.
def granted (c : Client ρ) (r : Request) : List Bool :=
  match (r.run (Allocator.mk c.allocator.heap (Recorded.mk c.allocator.reserve [])
      c.allocator.chunk)).result with
  | .ok (_, a) => a.reserve.grants
  | .error _ => []

-- What is answered, and the state that is left, one request after the other, up to the first that is
-- not admissible.
def history (c : Client ρ) : List Request → List (Option Block × Client ρ)
  | [] => []
  | r :: rest =>
    if c.Admits r then
      match c.step r with
      | .ok (answer, c') => (answer, c') :: c'.history rest
      | .error _ => []
    else []

-- What is granted on the way.
def grants (c : Client ρ) : List Request → List Bool
  | [] => []
  | r :: rest =>
    if c.Admits r then
      match c.step r with
      | .ok (_, c') => c.granted r ++ c'.grants rest
      | .error _ => []
    else []

end

variable {ρ : Type} {c c' : Client ρ} {o o' : Outline} {r : Request} {answer : Option Block}

-- The heap and the live handles of a client in outline.
structure Drawn (o : Outline) (c : Client ρ) : Prop where
  depicts : o.Depicts c.allocator.heap
  live : ∀ b, b ∈ c.live ↔ ∃ size, ⟨b, size, true⟩ ∈ o.blocks

theorem Drawn.inv (h : c.Drawn o) : c.Inv o.blocks o.lists := ⟨h.depicts.sound, h.live⟩

variable [Reserve ρ]

-- The request `r` is answered, and leads from the outline `o` to `o'`.
structure Takes (c : Client ρ) (o : Outline) (r : Request) (answer : Option Block) (c' : Client ρ)
    (o' : Outline) : Prop where
  step : c.step r = .ok (answer, c')
  drawn : Drawn o' c'
  ends : (o.course c.allocator.chunk.val r).Ends o (c.granted r) answer o'
  chunk : c'.allocator.chunk = c.allocator.chunk
  prologue : c'.allocator.heap.prologue = c.allocator.heap.prologue
  kept : c.allocator.heap.memory.Keeps c.allocator.heap.prologue c'.allocator.heap.memory

namespace Takes

theorem history (h : c.Takes o r answer c' o') (hadmits : c.Admits r) (rest : List Request) :
    c.history (r :: rest) = (answer, c') :: c'.history rest := by
  simp only [Client.history, if_pos hadmits, h.step]

theorem grants (h : c.Takes o r answer c' o') (hadmits : c.Admits r) (rest : List Request) :
    c.grants (r :: rest) = c.granted r ++ c'.grants rest := by
  simp only [Client.grants, if_pos hadmits, h.step]

theorem base [FixedBase ρ] (h : c.Takes o r answer c' o') :
    Reserve.base c'.allocator.reserve = Reserve.base c.allocator.reserve := by
  obtain ⟨⟨answer', a⟩, hrun, hstep⟩ := bind_eq_ok_iff.mp h.step
  obtain ⟨-, rfl⟩ := Prod.mk.inj (Except.ok.inj hstep)
  exact Request.run_base hrun

end Takes

-- What a request over a recorded reserve puts down is what its course asks for.
theorem Drawn.granted_eq (h : c.Drawn o) (hadmits : c.Admits r) :
    c.granted r = c.allocator.granting (o.course c.allocator.chunk.val r) := by
  let a : Allocator (Recorded ρ) := ⟨c.allocator.heap, ⟨c.allocator.reserve, []⟩, c.allocator.chunk⟩
  have hadmits' : (Client.mk a c.live).Admits r := hadmits
  have hfollows : a.Follows (r.run a) (o.course c.allocator.chunk.val r) :=
    follows_run (c := ⟨a, c.live⟩) h.depicts ⟨h.depicts.sound, h.live⟩ hadmits'
  have hgranted : ∀ {answer h' delta}, (r.run a).result =
      .ok (answer, ⟨h', (a.request delta).reserve, a.chunk⟩) →
      c.granted r = [(c.allocator.request delta).fresh.isOk] := by
    intro answer h' delta hrun
    rw [granted, hrun]
    rfl
  cases hcourse : o.course c.allocator.chunk.val r with
  | settled answer after =>
      rw [hcourse] at hfollows
      cases hfollows with
      | settled hrun hreaches =>
      rw [granted, hrun]
      rfl
  | growing delta b after =>
      rw [hcourse] at hfollows
      cases hfollows with
      | refused hfresh hrun => exact hgranted hrun
      | grown hfresh hrun hreaches => exact hgranted hrun

-- Every admissible request leads to another outline.
theorem Drawn.exists_takes (h : c.Drawn o) (hadmits : c.Admits r) :
    ∃ answer c' o', c.Takes o r answer c' o' := by
  have hgranted := h.granted_eq hadmits
  -- the live handles are the allocated blocks, whichever way the step is described
  have hstep : ∀ {answer h' reserve o'}, (r.run c.allocator).result =
      .ok (answer, ⟨h', reserve, c.allocator.chunk⟩) → c.allocator.heap.Reaches h' o' →
      (o.course c.allocator.chunk.val r).Ends o (c.granted r) answer o' →
      ∃ answer c' o', c.Takes o r answer c' o' := by
    intro answer h' reserve o' hrun hreaches hends
    obtain ⟨answer', c', bs', ls', hstep, hinv, -⟩ := h.inv.exists_step hadmits
    have hstep' : c.step r =
        .ok (answer, ⟨⟨h', reserve, c.allocator.chunk⟩, r.liveAfter c.live answer⟩) := by
      simp [step, hrun]
    obtain ⟨rfl, rfl⟩ := Prod.mk.inj (Except.ok.inj (hstep.symm.trans hstep'))
    obtain rfl := hreaches.depicts.sound.blocks_unique hinv.sound
    exact ⟨_, _, o', hstep', ⟨hreaches.depicts, hinv.live⟩, hends, rfl, hreaches.prologue, hreaches.kept⟩
  cases hcourse : o.course c.allocator.chunk.val r with
  | settled answer after =>
      have hfollows := follows_run h.depicts h.inv hadmits
      rw [hcourse] at hfollows hgranted hstep
      cases hfollows with
      | settled hrun hreaches => exact hstep hrun hreaches (hgranted ▸ .settled)
  | growing delta b after =>
      have hfollows := follows_run h.depicts h.inv hadmits
      rw [hcourse] at hfollows hgranted hstep
      cases hfollows with
      | refused hfresh hrun =>
          rw [Allocator.granting, hfresh] at hgranted
          exact hstep hrun (.refl h.depicts) (hgranted ▸ .refused)
      | grown hfresh hrun hreaches =>
          rw [Allocator.granting, hfresh] at hgranted
          exact hstep hrun hreaches (hgranted ▸ .grown)

theorem init_of_launch {region : Region ρ} {chunk : ChunkSize}
    (hlaunch : launch region chunk [] = some c) :
    (Allocator.init region chunk).result = .ok (.ok c.allocator) ∧ c.live = ∅ := by
  unfold launch at hlaunch
  split at hlaunch
  · obtain rfl := Option.some.inj hlaunch
    exact ⟨by assumption, rfl⟩
  · cases hlaunch

end Client

-- A fresh allocator behind `n` bytes that somebody else has used.
def Outline.initial (n size : Nat) : Outline :=
  ⟨n + 16, [⟨n + 16, size, false⟩], Lists.empty.insert (n + 16) size⟩

theorem Allocator.initial_of_init {ρ : Type} [Reserve ρ] {region : Region ρ} {chunk : ChunkSize}
    {a : Allocator ρ} (haligned : region.memory.size % alignment = 0)
    (hinit : (Allocator.init region chunk).result = .ok (.ok a)) :
    (Outline.initial region.memory.size chunk.val).Depicts a.heap ∧ a.chunk = chunk ∧
      region.memory.Keeps region.memory.size a.heap.memory := by
  rcases init_spec region chunk haligned with ⟨cause, hfail, -⟩ | ⟨h, hok, hprologue, hsound⟩
  · cases hfail.symm.trans hinit
  obtain rfl := Except.ok.inj (Except.ok.inj (hok.symm.trans hinit))
  refine ⟨⟨hsound, by rw [Outline.initial, hprologue]⟩, rfl, ?_⟩
  -- the two steps of the set-up, once more
  obtain ⟨memory, reserve⟩ := region
  simp only [init, Run.result_bind, Region.extend] at hinit
  rcases hseeded : Reserve.request reserve memory.size 16 with ⟨cause | ⟨fresh, hfresh⟩, reserve', log⟩
  · rw [hseeded] at hinit
    cases hinit
  rw [hseeded] at hinit
  have hsize : (memory.append fresh).size = memory.size + 16 := by
    rw [Memory.size_append, hfresh]
  obtain ⟨h₁, hseed, hprologue₁, hsound₁, hlength⟩ := Heap.seed_spec hsize haligned
  have hchunk := chunk.le_val
  have hchunk' := chunk.val_le
  have haligned' := chunk.aligned
  simp only [alignment, minBlockSize] at haligned' hchunk
  have hdepicts : Outline.Depicts ⟨h₁.prologue + 8, [], .empty⟩ h₁ := .of_sound hsound₁
  simp only [ok_bind, Run.result_bind, Run.result_lift, hseed] at hinit
  rcases Allocator.grow_reaches (a := ⟨h₁, reserve', chunk⟩) hdepicts haligned' hchunk hchunk' with
    ⟨cause, -, hgrow⟩ | ⟨fresh', h₂, -, hgrow, hreaches⟩
  · simp [hgrow] at hinit
  · simp only [hgrow, ok_bind, Run.result_bind, Run.result_emit, Run.result_pure, Except.ok.injEq,
      Allocator.mk.injEq] at hinit
    obtain ⟨rfl, -, -⟩ := hinit
    have hfirst : memory.Keeps memory.size (memory.append fresh) := .append fresh (Nat.le_refl _)
    have hlast : h₁.memory.Keeps memory.size h₂.memory := fun i hi =>
      hreaches.kept i (by rw [hprologue₁]; omega)
    exact hfirst.trans ((Heap.keeps_seed hseed (Nat.le_refl _)).trans hlast)

theorem Client.drawn_init {ρ : Type} [Reserve ρ] {region : Region ρ} {chunk : ChunkSize}
    {a : Allocator ρ} (haligned : region.memory.size % alignment = 0)
    (hinit : (Allocator.init region chunk).result = .ok (.ok a)) :
    Drawn (.initial region.memory.size chunk.val) ⟨a, ∅⟩ :=
  ⟨(Allocator.initial_of_init haligned hinit).1, fun b => by simp [Outline.initial]⟩

end SegregatedFit
