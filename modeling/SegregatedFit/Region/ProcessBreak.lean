import SegregatedFit.Region

/-!
The process break: the end of a data segment that several parties may move up and nobody moves down.
A heap on it starts at an aligned address and grows for as long as nobody else moves the break.
-/

namespace SegregatedFit

-- `current` is the address of the break; the system refuses to move it past `ceiling`.
structure ProcessBreak where
  current : Nat
  ceiling : Nat
deriving DecidableEq, Repr, Inhabited

namespace ProcessBreak

-- The largest distance by which a break can be asked to move.
def maxMove : Nat := 9223372036854775807

-- Moves the break up and returns where it was before.
def advance (p : ProcessBreak) (delta : Nat) : Except GrowError (Nat × ProcessBreak) :=
  if maxMove < delta then .error (.exhausted delta maxMove)
  else if p.ceiling < p.current + delta then .error .refused
  else .ok (p.current, { p with current := p.current + delta })

-- Another party moves the break, if the system lets it.
def moveAway (p : ProcessBreak) (delta : Nat) : ProcessBreak :=
  match p.advance delta with
  | .ok (_, moved) => moved
  | .error _ => p

end ProcessBreak

-- The reserve of a heap on a process break: where the heap starts, and the break itself.
structure BreakReserve where
  start : Nat
  segment : ProcessBreak
deriving DecidableEq, Repr, Inhabited

namespace BreakReserve

-- Where a heap starts whose opener has read the break as `seen`: at the first aligned address that is
-- not below it, up to which the break is moved. When somebody else has moved the break meanwhile, these
-- bytes do not lie where they should, and are lost.
def openAt (p : ProcessBreak) (seen : Nat) : Except GrowError Nat × ProcessBreak :=
  let pad := alignUp seen - seen
  if pad = 0 then (.ok seen, p)
  else match p.advance pad with
    | .error cause => (.error cause, p)
    | .ok (found, moved) =>
      if found ≠ seen then (.error (.discontiguous seen found), moved) else (.ok (seen + pad), moved)

-- A heap that is opened with nobody else at work.
def atBreak (p : ProcessBreak) : Except GrowError BreakReserve :=
  match openAt p p.current with
  | (.ok start, segment) => .ok ⟨start, segment⟩
  | (.error cause, _) => .error cause

-- Bytes that do not follow the heap's own are of no use to it, but the break stays moved.
def request (r : BreakReserve) (len delta : Nat) : Answer BreakReserve delta :=
  if delta % alignment ≠ 0 then ⟨.error (.misaligned delta), r, #[]⟩
  else match r.segment.advance delta with
    | .error cause => ⟨.error cause, r, #[]⟩
    | .ok (found, moved) =>
      let expected := r.start + len
      let r := { r with segment := moved }
      if found ≠ expected then ⟨.error (.discontiguous expected found), r, #[]⟩
      else ⟨.ok (zeros delta), r, #[.breakMoved found moved.current]⟩

instance : Reserve BreakReserve where
  base := start
  request := request

end BreakReserve

end SegregatedFit
