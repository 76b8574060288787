import SegregatedFit.Tag

/-!
Blocks. A block is named by the offset of its payload. Its header is the word before the payload and
its footer the last word of the block; the next block's payload starts `size` bytes further on, and
the footer of the block before ends where the own header begins.
-/

namespace SegregatedFit

abbrev Block := Nat

namespace Block

def header (b : Block) : Except Fault Nat := subtract b Memory.wordSize

def tag (m : Memory) (b : Block) : Except Fault Tag := do m.readTag (← header b)

def size (m : Memory) (b : Block) : Except Fault Nat := return (← tag m b).size

def footer (m : Memory) (b : Block) : Except Fault Nat := do subtract (b + (← size m b)) overhead

def footerTag (m : Memory) (b : Block) : Except Fault Tag := do m.readTag (← footer m b)

-- The tag of the block before, read from that block's footer.
def prevTag (m : Memory) (b : Block) : Except Fault Tag := do m.readTag (← subtract b overhead)

def next (m : Memory) (b : Block) : Except Fault Block := return b + (← size m b)

def prev (m : Memory) (b : Block) : Except Fault Block := do subtract b (← prevTag m b).size

def writeHeader (m : Memory) (b : Block) (t : Tag) : Except Fault Memory := do
  m.writeTag (← header b) t

-- Writes `t` at both ends of the block that starts at `b` and spans `t.size` bytes.
def write (m : Memory) (b : Block) (t : Tag) : Except Fault Memory := do
  let m ← writeHeader m b t
  m.writeTag (← subtract (b + t.size) overhead) t

-- The bytes of a block that are not its tags.
def usableSize (m : Memory) (b : Block) : Except Fault Nat := do subtract (← size m b) overhead

end Block

end SegregatedFit
