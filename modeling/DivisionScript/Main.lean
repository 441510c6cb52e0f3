import DivisionScript.CommandLine.Command

/-!
# Main

The command line program: what a command sees of the world comes from the system, and what it leaves
behind goes to the two outputs, the log file and the exit status.
-/

namespace DivisionScript.CommandLine

/-- Writes the log file, if there is one. -/
def writeLog (log : Option String) : IO Unit := do
  if let some text := log then IO.FS.writeFile LogFile.name text

/-- What opening a file leads to once the log file holds the given text. -/
def openFile (log : Option String) (path : String) : IO Opened := do
  writeLog log
  try
    return .contents (← IO.FS.readBinFile path)
  catch
    | .noFileOrDirectory .. => return .missing
    | .inappropriateType _ code _ => return if code = 21 then .directory else .throughFile
    | e => return .refused (toString e)

/-- The bytes of a stream that have not been read. -/
partial def readAll (stream : IO.FS.Stream) (read : ByteArray) : IO ByteArray := do
  let bytes ← stream.read 65536
  if bytes.isEmpty then return read else readAll stream (read ++ bytes)

/-- Random bits of the system. -/
def systemEntropy : IO UInt64 := do
  let bytes ← IO.getRandomBytes 8
  return bytes.foldl (fun n b => n * 256 + b.toUInt64) 0

/-- The world as the system shows it. -/
def systemWorld : World IO where
  openPath := openFile
  input := do return (← readAll (← IO.getStdin) .empty).toList
  entropy := systemEntropy
  clock := IO.monoMsNow

end DivisionScript.CommandLine

open DivisionScript.CommandLine in
def main (args : List String) : IO UInt32 := do
  let outcome ← command systemWorld args
  writeLog outcome.log
  let stdout ← IO.getStdout
  stdout.write outcome.output
  stdout.flush
  (← IO.getStderr).putStr outcome.errors
  return outcome.ending.status.toUInt32
