import Valgen.Command.Run
/-!
# Main — the program

Runs the command on the files of the disk.
-/
namespace Valgen

def onDisk : Files IO where
  read? path := do
    try
      let text ← IO.FS.readFile path
      return some text
    catch _ => return none
  makeFolder path := do
    if path.isEmpty then return true
    try
      IO.FS.createDirAll path
      return true
    catch _ => return false
  write path text := do
    try
      IO.FS.writeFile path text
      return true
    catch _ => return false

end Valgen

def main (arguments : List String) : IO UInt32 := do
  let outcome ← Valgen.Command.run Valgen.onDisk arguments
  (← IO.getStdout).putStr outcome.stdout
  (← IO.getStderr).putStr outcome.stderr
  return outcome.exit.toUInt32
