import SegregatedFit.Command

/-!
The command line. It reads the file that is named, if any, and prints what the command leaves behind.
-/

namespace SegregatedFit.Command

-- The words that go with the number of an error of the system.
def reason : Nat → String
  | 1 => "Operation not permitted"
  | 2 => "No such file or directory"
  | 13 => "Permission denied"
  | 20 => "Not a directory"
  | 21 => "Is a directory"
  | 36 => "File name too long"
  | 40 => "Too many levels of symbolic links"
  | _ => "Input/output error"

-- The number of an error, which some calls give with its sign turned.
def errorNumber (error : IO.Error) : Nat :=
  let code : UInt32 := match error with
    | .noFileOrDirectory _ code _ | .inappropriateType _ code _ | .permissionDenied _ code _
    | .resourceExhausted _ code _ | .invalidArgument _ code _ | .noSuchThing _ code _
    | .otherError code _ | .hardwareFault code _ => code
    | _ => 5
  if code < 0x80000000 then code.toNat else (0 - code).toNat

def readFile (path : String) : IO (Except ReadError ByteArray) := do
  try return .ok (← IO.FS.readBinFile path)
  catch error =>
    let number := errorNumber error
    return .error (.system (reason number) number)

end SegregatedFit.Command

open SegregatedFit Command in
def main (args : List String) : IO UInt32 := do
  let content : Except ReadError ByteArray ← match Options.ofCall args with
    | .ok ⟨some path, _⟩ => readFile path
    | _ => pure (.error .notFound)
  match run args (fun _ => content) 0 with
  | .ok outcome =>
    for line in outcome.stderr do IO.eprintln line
    IO.print outcome.stdout
    return outcome.code.toUInt32
  | .error _ => return 101
