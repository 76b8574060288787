import SegregatedFit.Allocator
import Mathlib.Data.Finset.Basic

/-!
Clients. A client makes requests and keeps book of the handles that it has been given and that it has
not given back. It may free and resize only those, and write only into their payloads.
-/

namespace SegregatedFit

inductive Request where
  | allocate (size : Nat)
  | free (block : Option Block)
  | reallocate (block : Option Block) (size : Nat)
  -- new content for the first bytes of a payload
  | write (block : Block) (content : ByteArray)

structure Client (ρ : Type) where
  allocator : Allocator ρ
  live : Finset Nat

variable {ρ : Type} [Reserve ρ]

namespace Request

def run (a : Allocator ρ) : Request → Run (Option Block × Allocator ρ)
  | allocate size => a.allocate size
  | free block => return (none, ← a.free block)
  | reallocate block size => a.reallocate block size
  | write b content => return (none, ← a.update (·.fill b content))

-- The block that a request is about.
def target : Request → Option Block
  | allocate _ => none
  | free block => block
  | reallocate block _ => block
  | write b _ => some b

-- The live handles once a request has been answered. A resized block is given back when there is an
-- answer, which may be the same handle again.
def liveAfter (live : Finset Nat) : Request → Option Block → Finset Nat
  | allocate _, answer => answer.elim live (insert · live)
  | free block, _ => block.elim live live.erase
  | reallocate block size, answer =>
    if size = 0 ∨ answer.isSome then
      let rest := block.elim live live.erase
      answer.elim rest (insert · rest)
    else live
  | write _ _, _ => live

end Request

namespace Client

-- A client works on live handles only, and writes no more than the payload holds.
def Admits (c : Client ρ) (r : Request) : Prop :=
  (∀ b ∈ r.target, b ∈ c.live) ∧
    match r with
    | .write b content => ∃ usable ∈ (c.allocator.usableSize b).toOption, content.size ≤ usable
    | _ => True

instance (c : Client ρ) (r : Request) : Decidable (c.Admits r) :=
  match r with
  | .write b content => inferInstanceAs (Decidable (_ ∧
      ∃ usable ∈ (c.allocator.usableSize b).toOption, content.size ≤ usable))
  | .allocate _ | .free _ | .reallocate .. => inferInstanceAs (Decidable (_ ∧ True))

def step (c : Client ρ) (r : Request) : Except Fault (Option Block × Client ρ) := do
  let (answer, a) ← (r.run c.allocator).result
  return (answer, ⟨a, r.liveAfter c.live answer⟩)

-- The states that a client can bring about, from a region that holds whole alignment units.
inductive Reachable : Client ρ → Prop
  | init {region : Region ρ} {chunk : ChunkSize} {a : Allocator ρ}
      (haligned : region.memory.size % alignment = 0)
      (hinit : (Allocator.init region chunk).result = .ok (.ok a)) : Reachable ⟨a, ∅⟩
  | step {c c' : Client ρ} {r : Request} {answer : Option Block} (hreachable : Reachable c)
      (hadmits : c.Admits r) (hstep : c.step r = .ok (answer, c')) : Reachable c'

-- The state after a list of requests; there is none when one of them is not admissible.
def run (c : Client ρ) : List Request → Except Fault (Option (Client ρ))
  | [] => .ok (some c)
  | r :: rest => do
    if c.Admits r then
      let (_, c) ← c.step r
      run c rest
    else return none

theorem run_cons {c c' : Client ρ} {r : Request} {answer : Option Block} (hadmits : c.Admits r)
    (hstep : c.step r = .ok (answer, c')) (rest : List Request) : c.run (r :: rest) = c'.run rest := by
  rw [run, if_pos hadmits, hstep]
  rfl

theorem Reachable.run {c c' : Client ρ} {requests : List Request} (hreachable : Reachable c)
    (hrun : c.run requests = .ok (some c')) : Reachable c' := by
  induction requests generalizing c with
  | nil =>
      obtain rfl := Option.some.inj (Except.ok.inj hrun)
      exact hreachable
  | cons r rest ih =>
      rw [Client.run] at hrun
      by_cases hadmits : c.Admits r
      · rw [if_pos hadmits] at hrun
        cases hstep : c.step r with
        | error fault =>
            rw [hstep] at hrun
            cases hrun
        | ok next =>
            rw [hstep, ok_bind] at hrun
            exact ih (hreachable.step hadmits hstep) hrun
      · rw [if_neg hadmits] at hrun
        cases hrun

-- The state that the requests lead to from a new allocator, when it gets that far.
def launch (region : Region ρ) (chunk : ChunkSize) (requests : List Request) : Option (Client ρ) :=
  match (Allocator.init region chunk).result with
  | .ok (.ok a) => (run ⟨a, ∅⟩ requests).toOption.join
  | _ => none

theorem Reachable.of_launch {region : Region ρ} {chunk : ChunkSize} {requests : List Request}
    {c : Client ρ} (haligned : region.memory.size % alignment = 0)
    (hlaunch : launch region chunk requests = some c) : Reachable c := by
  unfold launch at hlaunch
  split at hlaunch
  · rename_i a hinit
    suffices hrun : Client.run ⟨a, ∅⟩ requests = .ok (some c) from
      (Reachable.init haligned hinit).run hrun
    cases hrun : Client.run ⟨a, ∅⟩ requests with
    | error fault =>
        rw [hrun] at hlaunch
        cases hlaunch
    | ok last =>
        rw [hrun] at hlaunch
        exact congrArg _ hlaunch
  · cases hlaunch

end Client

end SegregatedFit
