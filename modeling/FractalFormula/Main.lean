import FractalFormula.CommandLine.Session

/-!
The command.  It reads the file that its arguments name and prints its transcript.
-/

namespace FractalFormula
namespace Command

/-- What the system says about an operation that failed, and the number under which it says so. -/
def reason : IO.Error → String
  | .noFileOrDirectory _ _ _ => World.missingFile
  | .permissionDenied _ code details
  | .inappropriateType _ code details
  | .invalidArgument _ code details
  | .resourceExhausted _ code details
  | .otherError code details => details ++ " (os error " ++ toString code ++ ")"
  | e => toString e

/-- The text of a file, or why there is none. -/
def readFile (path : String) : IO (Except String String) := do
  match ← (IO.FS.readBinFile path).toBaseIO with
  | .error e => return .error (reason e)
  | .ok bytes =>
    match String.fromUTF8? bytes with
    | some text => return .ok text
    | none => return .error World.notText

/-- A random number of 64 bits. -/
def entropy : IO UInt64 := do
  let bytes ← IO.getRandomBytes 8
  return bytes.toList.foldl (fun n b => n * 256 + b.toUInt64) 0

end Command
end FractalFormula

open FractalFormula in
def main (args : List String) : IO UInt32 := do
  let text ← match (Request.ofArguments args).toOption.bind Request.file with
    | some path => Command.readFile path
    | none => pure (.error World.missingFile)
  let stderr ← IO.getStderr
  let colour := (← stderr.isTty) && (← IO.getEnv "NO_COLOR").isNone
  let t := Session.transcript ⟨fun _ => text, ← Command.entropy, colour⟩ args
  IO.print t.out
  stderr.putStr t.err
  return t.code
