import SegregatedFit.Proofs.Client

/-!
The allocator on a machine. Here its steps compute with words of 64 bits, and the machine stops, with
`none`, at a sum that does not fit into a word, at a difference below zero, at an access outside the
heap, at a tag that its word does not hold unchanged, and when a block is filed twice or is taken out
without being filed.
-/

namespace SegregatedFit.Machine

-- One more than the largest word.
def wordLimit : Nat := 18446744073709551616

def add (a b : Nat) : Option Nat := if a + b < wordLimit then some (a + b) else none

def sub (a b : Nat) : Option Nat := if b ≤ a then some (a - b) else none

def alignUp (n : Nat) : Option Nat := do
  let padded ← sub (← add n alignment) 1
  return padded / alignment * alignment

-- Here a sum that is too large is no reason to stop: the request is too large as well.
def blockSizeFor (request : Nat) : Option Nat :=
  if request ≤ overhead then some minBlockSize
  else match add request (overhead + alignment - 1) with
    | some padded =>
      let size := padded / alignment * alignment
      if size ≤ maxBlockSize then some size else none
    | none => none

def readWord (m : Memory) (pos : Nat) : Option UInt32 := do
  let _ ← add pos Memory.wordSize
  (m.readWord pos).toOption

def writeWord (m : Memory) (pos : Nat) (word : UInt32) : Option Memory := do
  let _ ← add pos Memory.wordSize
  (m.writeWord pos word).toOption

def readTag (m : Memory) (pos : Nat) : Option Tag := return Tag.unpack (← readWord m pos)

def writeTag (m : Memory) (pos : Nat) (t : Tag) : Option Memory :=
  if Tag.unpack t.pack = t then writeWord m pos t.pack else none

section Block

variable (m : Memory) (b : Block)

def header : Option Nat := sub b Memory.wordSize

def tag : Option Tag := do readTag m (← header b)

def size : Option Nat := return (← tag m b).size

def footer : Option Nat := do sub (← add b (← size m b)) overhead

def footerTag : Option Tag := do readTag m (← footer m b)

def prevTag : Option Tag := do readTag m (← sub b overhead)

def next : Option Block := do add b (← size m b)

def prev : Option Block := do sub b (← prevTag m b).size

def writeHeader (t : Tag) : Option Memory := do writeTag m (← header b) t

def write (t : Tag) : Option Memory := do
  let m ← writeHeader m b t
  writeTag m (← sub (← add b t.size) overhead) t

def usableSize : Option Nat := do sub (← size m b) overhead

end Block

-- A block is filed once.
def enlist (ix : Index) (b : Block) (size : Nat) : Option Index :=
  if ix.contains b then none else some (ix.insert b size)

-- Only a block that is filed is taken out.
def unlist (ix : Index) (b : Block) (size : Nat) : Option Index :=
  if ix.contains b then some (ix.remove b size) else none

section Heap

def coalesce : Heap → Block → Option (Block × Heap)
  | ⟨memory, index, prologue⟩, b => do
    let before ← prevTag memory b
    let behind ← next memory b
    let after ← tag memory behind
    let own ← size memory b
    let joint ← add own after.size
    let mergeNext := !after.allocated && joint ≤ maxBlockSize
    let withNext := if mergeNext then joint else own
    let whole ← add withNext before.size
    let mergePrev := !before.allocated && whole ≤ maxBlockSize
    let start ← if mergePrev then prev memory b else some b
    let index ← if mergePrev then unlist index start before.size else some index
    let index ← if mergeNext then unlist index behind after.size else some index
    let total := if mergePrev then whole else withNext
    let memory ← write memory start (.free total)
    return (start, ⟨memory, ← enlist index start total, prologue⟩)

-- The choice is kept together with what its size exceeds the need by.
def bestOf (memory : Memory) (need : Nat) (endless : Bool) :
    (best : Option Block) → (least : Nat) → List Block → Option (Option Block)
  | best, _, [] => if endless then none else some best
  | best, least, b :: rest => do
    let own ← size memory b
    if own < need then bestOf memory need endless best least rest
    else
      let excess ← sub own need
      if excess = 0 then return some b
      if excess < least then bestOf memory need endless (some b) excess rest
      else bestOf memory need endless best least rest

def findFit (h : Heap) (need : Nat) : Option (Option Block) := search (SizeClass.fitting need)
where
  search : List SizeClass → Option (Option Block)
    | [] => some none
    | c :: rest => do
      match ← bestOf h.memory need (h.index.endless c) none (wordLimit - 1) (h.index.chain c) with
      | some b => return some b
      | none => search rest

def place : Heap → Block → Nat → Option Heap
  | ⟨memory, index, prologue⟩, b, need => do
    let own ← size memory b
    let index ← unlist index b own
    let left ← sub own need
    if minBlockSize ≤ left then
      let memory ← write memory b (.used need)
      let rest ← next memory b
      let memory ← write memory rest (.free left)
      return ⟨memory, ← enlist index rest left, prologue⟩
    else
      return ⟨← write memory b (.used own), index, prologue⟩

def release : Heap → Block → Option Heap
  | ⟨memory, index, prologue⟩, b => do
    let own ← size memory b
    let memory ← write memory b (.free own)
    return (← coalesce ⟨memory, index, prologue⟩ b).2

-- Writes both tags of a block that the region ends with, and the epilogue behind it.
def writeLast (memory : Memory) (b : Block) (t : Tag) : Option Memory := do
  let memory ← write memory b t
  writeHeader memory (← next memory b) .epilogue

def stretch : Heap → Block → Nat → Option Heap
  | ⟨memory, index, prologue⟩, b, size =>
    return ⟨← writeLast memory b (.used size), index, prologue⟩

def absorb : Heap → (b behind : Block) → (gain total : Nat) → Option Heap
  | ⟨memory, index, prologue⟩, b, behind, gain, total => do
    let index ← unlist index behind gain
    return ⟨← write memory b (.used total), index, prologue⟩

def payload (h : Heap) (b : Block) : Option ByteArray := do
  let usable ← usableSize h.memory b
  let _ ← add b usable
  (h.memory.slice b usable).toOption

def fill : Heap → Block → ByteArray → Option Heap
  | ⟨memory, index, prologue⟩, b, bytes => do
    let usable ← usableSize memory b
    let stop ← add b usable
    if usable < bytes.size ∨ memory.size < stop then none
    return ⟨← (memory.overwrite b bytes).toOption, index, prologue⟩

def copy : Heap → (source target count : Nat) → Option Heap
  | ⟨memory, index, prologue⟩, source, target, count => do
    let _ ← add source count
    let bytes ← (memory.slice source count).toOption
    return ⟨← (memory.overwrite target bytes).toOption, index, prologue⟩

def blocksFrom (memory : Memory) : (fuel : Nat) → Block → Option (List BlockInfo)
  | 0, _ => none
  | fuel + 1, b => do
    let tag ← tag memory b
    if tag.size = 0 then return []
    let behind ← add b tag.size
    return ⟨b, tag.size, tag.allocated⟩ :: (← blocksFrom memory fuel behind)

def blocks (h : Heap) : Option (List BlockInfo) := do
  blocksFrom h.memory (h.memory.size / 8 + 2) (← next h.memory h.prologue)

def count (s : HeapStats) (b : BlockInfo) : Option HeapStats := do
  if b.allocated then
    return { s with
      allocatedBlocks := ← add s.allocatedBlocks 1
      allocatedBytes := ← add s.allocatedBytes b.size }
  else
    return { s with
      freeBlocks := ← add s.freeBlocks 1
      freeBytes := ← add s.freeBytes b.size }

def stats (h : Heap) : Option HeapStats := do
  (← blocks h).foldlM count (.ofSize h.memory.size)

end Heap

section Check

def checkBlocksFrom (memory : Memory) (base : Nat) :
    (fuel : Nat) → Block → (free : Nat) → Option (Except Corruption Nat)
  | 0, b, _ => some (.error (.outOfHeap b))
  | fuel + 1, b, free => do
    let stop ← add (← header b) Memory.wordSize
    if memory.size < stop then return .error (.outOfHeap b)
    let t ← tag memory b
    if t.size = 0 then
      if t.allocated ∧ stop = memory.size then return .ok free
      return .error (.badEpilogue b)
    let address ← add base b
    if address % alignment ≠ 0 then return .error (.misaligned b)
    if t.size < minBlockSize then return .error (.badSize b t.size)
    let behind ← add b t.size
    if memory.size < behind then return .error (.outOfHeap b)
    let front ← readWord memory (← header b)
    let back ← readWord memory (← footer memory b)
    if front ≠ back then return .error (.tagMismatch b front back)
    if t.allocated then
      checkBlocksFrom memory base fuel behind free
    else
      let free ← add free 1
      let after ← tag memory behind
      let joint ← add t.size after.size
      if after.size ≠ 0 ∧ ¬after.allocated ∧ joint ≤ maxBlockSize then
        return .error (.uncoalesced b)
      checkBlocksFrom memory base fuel behind free

def checkBlocks (h : Heap) (base : Nat) : Option (Except Corruption Nat) := do
  let sentinel := Tag.used overhead
  if (← tag h.memory h.prologue) ≠ sentinel then return .error (.badPrologue h.prologue)
  if (← footerTag h.memory h.prologue) ≠ sentinel then return .error (.badPrologue h.prologue)
  checkBlocksFrom h.memory base (h.memory.size / 16 + 1) (← add h.prologue overhead) 0

def checkListFrom (memory : Memory) (index : Index) (c : SizeClass) :
    (fuel : Nat) → (before cursor : Option Block) → (seen : Std.TreeSet Nat) →
      Option (Except Corruption (Std.TreeSet Nat))
  | _, _, none, seen => some (.ok seen)
  | 0, _, some _, _ => some (.error (.listCycle c))
  | fuel + 1, before, some b, seen => do
    if seen.contains b then return .error (.listCycle c)
    if b < Memory.wordSize ∨ memory.size - 1 < b then return .error (.outOfBounds c b)
    let t ← tag memory b
    if t.allocated then return .error (.allocatedInList c b)
    if SizeClass.ofSize t.size ≠ c then return .error (.wrongClass c b t.size)
    if index.pred b ≠ before then return .error (.brokenLink b before (index.pred b))
    checkListFrom memory index c fuel (some b) (index.succ b) (seen.insert b)

def checkClasses (memory : Memory) (index : Index) :
    List SizeClass → Std.TreeSet Nat → Option (Except Corruption (Std.TreeSet Nat))
  | [], seen => some (.ok seen)
  | c :: rest, seen => do
    match ← checkListFrom memory index c (index.size + 2) none (index.root c) seen with
    | .error corruption => return .error corruption
    | .ok seen => checkClasses memory index rest seen

def checkLists (h : Heap) : Option (Except Corruption Nat) := do
  match ← checkClasses h.memory h.index SizeClass.all ∅ with
  | .error corruption => return .error corruption
  | .ok seen =>
    if seen.size ≠ h.index.size then return .error (.orphanLinks seen.size h.index.size)
    return .ok seen.size

def check (h : Heap) (base : Nat) : Option (Except Corruption Unit) := do
  match ← checkBlocks h base with
  | .error corruption => return .error corruption
  | .ok free =>
    match ← checkLists h with
    | .error corruption => return .error corruption
    | .ok listed =>
      if free ≠ listed then return .error (.freeCountMismatch free listed)
      return .ok ()

end Check

section Allocator

variable {ρ : Type}

def update : Allocator ρ → (Heap → Option Heap) → Option (Allocator ρ)
  | ⟨heap, reserve, chunk⟩, step => return ⟨← step heap, reserve, chunk⟩

def free (a : Allocator ρ) : Option Block → Option (Allocator ρ)
  | none => some a
  | some b => update a (release · b)

variable [Reserve ρ]

def grow (a : Allocator ρ) (bytes : Nat) : Option (Except GrowError Block × Allocator ρ) := do
  let own ← alignUp bytes
  match ← (a.extend own).result.toOption with
  | (.error cause, a) => return (.error cause, a)
  | (.ok b, ⟨⟨memory, index, prologue⟩, reserve, chunk⟩) =>
    let memory ← writeLast memory b (.free own)
    let (merged, heap) ← coalesce ⟨memory, index, prologue⟩ b
    return (.ok merged, ⟨heap, reserve, chunk⟩)

def allocate (a : Allocator ρ) (request : Nat) : Option (Option Block × Allocator ρ) := do
  if request = 0 then return (none, a)
  match blockSizeFor request with
  | none => return (none, a)
  | some need =>
    match ← findFit a.heap need with
    | some b => return (some b, ← update a (place · b need))
    | none =>
      match ← grow a (max need a.chunk.val) with
      | (.ok b, a) => return (some b, ← update a (place · b need))
      | (.error _, a) => return (none, a)

def resize (a : Allocator ρ) (b : Block) (request need : Nat) :
    Option (Option Block × Allocator ρ) := do
  let own ← size a.heap.memory b
  if need ≤ own then return (some b, a)
  let behind ← next a.heap.memory b
  let after ← tag a.heap.memory behind
  let total ← add own after.size
  if ¬after.allocated ∧ need ≤ total ∧ total ≤ maxBlockSize then
    return (some b, ← update a (absorb · b behind after.size total))
  if after.size = 0 then
    match ← (a.extend (← sub need own)).result.toOption with
    | (.error _, a) => return (none, a)
    | (.ok _, a) => return (some b, ← update a (stretch · b need))
  match ← allocate a request with
  | (none, a) => return (none, a)
  | (some moved, a) =>
    let count := min (← sub own overhead) request
    let a ← update a (copy · b moved count)
    return (some moved, ← free a (some b))

def reallocate (a : Allocator ρ) (block : Option Block) (request : Nat) :
    Option (Option Block × Allocator ρ) :=
  match block with
  | none => allocate a request
  | some b => do
    if request = 0 then return (none, ← free a (some b))
    match blockSizeFor request with
    | none => return (none, a)
    | some need => resize a b request need

def run (a : Allocator ρ) : Request → Option (Option Block × Allocator ρ)
  | .allocate request => allocate a request
  | .free block => return (none, ← free a block)
  | .reallocate block request => reallocate a block request
  | .write b content => return (none, ← update a (fill · b content))

end Allocator

end SegregatedFit.Machine
