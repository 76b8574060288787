import SegregatedFit.Region

/-!
Arenas: regions over a reservation of fixed size. A fresh arena is all zero. After a reset it starts
anew over the bytes that it has handed out before.
-/

namespace SegregatedFit

-- `limit` bytes are reserved at `base`; `stale` is what their first bytes held at the last reset.
structure Arena where
  limit : Nat
  base : Nat
  stale : ByteArray
deriving Inhabited

namespace Arena

-- Twenty mebibytes.
def defaultLimit : Nat := 20971520

-- A reservation of at least `limit` bytes at `base`.
def withLimit (base limit : Nat) : Arena := ⟨alignUp limit, base, .empty⟩

def new (base : Nat) : Arena := withLimit base defaultLimit

-- The bytes of the reservation from `len` on, `delta` of them.
def handOut (a : Arena) (len delta : Nat) : { bytes : ByteArray // bytes.size = delta } :=
  if a.stale.size ≤ len then zeros delta
  else
    let old := a.stale.extract len (len + delta)
    ⟨old ++ (zeros (delta - old.size)).1, by
      have hold : old.size ≤ delta := by
        simp only [old, ByteArray.size_extract]
        omega
      have hrest := (zeros (delta - old.size)).2
      simp only [ByteArray.size_append, hrest]
      omega⟩

def request (a : Arena) (len delta : Nat) : Answer Arena delta :=
  let available := a.limit - len
  if delta % alignment ≠ 0 then ⟨.error (.misaligned delta), a, #[]⟩
  else if available < delta then ⟨.error (.exhausted delta available), a, #[]⟩
  else ⟨.ok (a.handOut len delta), a, #[.arenaGrew len (len + delta)]⟩

instance : Reserve Arena where
  base := base
  request := request

end Arena

-- Takes all bytes back. They keep their content until they are handed out again.
def Region.reset : Region Arena → Region Arena
  | ⟨memory, arena⟩ =>
    let rest := arena.stale.extract memory.size arena.stale.size
    ⟨.empty, { arena with stale := memory.bytes ++ rest }⟩

end SegregatedFit
