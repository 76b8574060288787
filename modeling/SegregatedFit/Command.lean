import SegregatedFit.Region.Arena
import SegregatedFit.Trace.Parse
import SegregatedFit.Trace.Replay

/-!
The replay command: runs one trace on a fresh arena, checks the heap after every operation, and says
how well the heap was used. It counts on arguments that are texts, and on an arena with room for a heap.
-/

namespace SegregatedFit.Command

-- Why a file has no text.
inductive ReadError where
  | system (reason : String) (code : Nat)
  | notUtf8
deriving DecidableEq, Repr, Inhabited

namespace ReadError

def notFound : ReadError := .system "No such file or directory" 2

def isDirectory : ReadError := .system "Is a directory" 21

def message : ReadError → String
  | system reason code => s!"{reason} (os error {code})"
  | notUtf8 => "stream did not contain valid UTF-8"

end ReadError

-- Why the command fails.
inductive Failure where
  | unreadable (path : String) (cause : ReadError)
  | badTrace (cause : TraceError)
  | replay (cause : ReplayError)
deriving DecidableEq, Repr, Inhabited

def Failure.message : Failure → String
  | unreadable path cause => s!"cannot read {path}: {cause.message}"
  | badTrace cause => s!"bad trace: {cause.message}"
  | replay cause => s!"replay failed: {cause.message}"

def Failure.record (f : Failure) : Record := ⟨.error, "replay", f.message⟩

-- The trace that is run when no file is named.
def builtin : String :=
  "\n  20000\n  4\n  10\n  1\n  a 0 512\n  a 1 128\n  a 2 2040\n  r 0 640\n  f 1\n  a 3 96\n" ++
  "  r 2 6000\n  f 0\n  f 3\n  f 2\n"

-- An argument as the system hands it over, which need not be a text.
@[ext]
structure Arg where
  bytes : ByteArray

namespace Arg

instance : DecidableEq Arg := fun _ _ =>
  decidable_of_iff _ (ByteArray.ext_iff.symm.trans Arg.ext_iff.symm)

def ofText (text : String) : Arg := ⟨text.toUTF8⟩

def decode (a : Arg) : Except Fault String :=
  match String.fromUTF8? a.bytes with
  | some text => .ok text
  | none => .error .unwrapped

end Arg

-- The words of one call: the name of the program, and the arguments behind it.
structure Call where
  name : Arg
  args : List Arg

instance : Coe (List String) Call := ⟨fun args => ⟨.ofText "replay", args.map .ofText⟩⟩

-- The first text that satisfies `p`. The arguments are read one by one up to there.
def findArg (p : String → Bool) : List Arg → Except Fault (Option String)
  | [] => .ok none
  | a :: rest => do
    let text ← a.decode
    if p text then return some text
    findArg p rest

-- What the words ask for: a file, unless the built-in trace is meant, and whether every event is to be
-- shown. A flag is looked for in the name as well.
structure Options where
  path : Option String
  verbose : Bool
deriving DecidableEq, Repr, Inhabited

def Options.ofCall (call : Call) : Except Fault Options := do
  let flag ← findArg (· = "-v") (call.name :: call.args)
  let path ← findArg (· ≠ "-v") call.args
  return ⟨path, flag.isSome⟩

def Options.filter (o : Options) : LevelFilter := .upTo (if o.verbose then .trace else .info)

-- What a run of the command leaves behind.
structure Outcome where
  code : Nat
  stdout : String
  stderr : List String
deriving DecidableEq, Repr, Inhabited

def summary (s : ReplayStats) : String :=
  let size := s!"{s.peakLiveBytes} bytes live, heap {s.heapBytes} bytes"
  s!"{s.ops} ops, peak {size}, utilization {s.percentText}%\n"

-- The text to run: that of the named file, which `read` has the bytes of, or the built-in one.
def chooseText (path : Option String) (read : String → Except ReadError ByteArray) :
    Except Failure String :=
  match path with
  | none => .ok builtin
  | some path =>
    match read path with
    | .error cause => .error (.unreadable path cause)
    | .ok bytes =>
      match String.fromUTF8? bytes with
      | some text => .ok text
      | none => .error (.unreadable path .notUtf8)

-- Runs a trace on an arena at address `base`.
def replayText (filter : LevelFilter) (base : Nat) (text : String) :
    Run (Except Failure ReplayStats) :=
  match Trace.parse text with
  | .error cause => return .error (.badTrace cause)
  | .ok trace => do
    match ← Allocator.init (.ofReserve (Arena.new base)) .default with
    | .error _ => Run.quiet (.error .unwrapped)
    | .ok allocator =>
      match ← trace.replay allocator true with
      | (.error cause, _) => return .error (.replay cause)
      | (.ok stats, allocator) =>
        allocator.dump filter
        return .ok stats

-- The whole command, given its words, a way to read files and the address of the arena.
def run (call : Call) (read : String → Except ReadError ByteArray) (base : Nat) :
    Except Fault Outcome := do
  let options ← Options.ofCall call
  let lines (records : List Record) : List String :=
    (records.filter (options.filter.admits ·.level)).map Record.line
  match chooseText options.path read with
  | .error failure => return ⟨1, "", lines [failure.record]⟩
  | .ok text =>
    let ⟨result, log⟩ := replayText options.filter base text
    let records := log.toList.map Event.record
    match ← result with
    | .ok stats => return ⟨0, summary stats, lines records⟩
    | .error failure => return ⟨1, "", lines (records ++ [failure.record])⟩

end SegregatedFit.Command
