import SegregatedFit.Region

/-!
A reserve that fails on schedule: a stand-in for another one, used to see how its users take a
failure at any given request.
-/

namespace SegregatedFit

-- `requests` counts the requests made so far. The first entry of `faults` for a request's number
-- decides that it fails, and the inner reserve does not hear of it.
structure Scheduled (ρ : Type) where
  inner : ρ
  address : Nat
  faults : List (Nat × GrowError)
  requests : Nat

namespace Scheduled

variable {ρ : Type}

def wrap (inner : ρ) (address : Nat) (faults : List (Nat × GrowError)) : Scheduled ρ :=
  ⟨inner, address, faults, 0⟩

def request [Reserve ρ] (r : Scheduled ρ) (len delta : Nat) : Answer (Scheduled ρ) delta :=
  let counted := { r with requests := r.requests + 1 }
  match r.faults.lookup r.requests with
  | some cause => ⟨.error cause, counted, #[]⟩
  | none =>
    let ⟨fresh, inner, log⟩ := Reserve.request r.inner len delta
    ⟨fresh, { counted with inner }, log⟩

instance [Reserve ρ] : Reserve (Scheduled ρ) where
  base := address
  request := request

end Scheduled

end SegregatedFit
