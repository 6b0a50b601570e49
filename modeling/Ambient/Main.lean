import Ambient.CommandLine

/-! The program. Standard input names the files there are, a path on each line; no others are seen.
What a command changes is written when it ends. -/
namespace Ambient

partial def readNames (input : IO.FS.Stream) (names : List String) : IO (List String) := do
  let line ← input.getLine
  if line.isEmpty then return names.reverse
  let name := String.ofList (Text.dropEndWhile (fun c => c == '\n' || c == '\r') line.toList)
  readNames input (if name.isEmpty then names else name :: names)

/-- The current directory as a place, and the file system that it alone is in. -/
def startingFiles (dir : String) : FileSystem :=
  let place := (Text.pieces Path.isSlash dir.toList).filter (· ≠ []) |>.map String.ofList
  ⟨FileTree.empty.put place .empty, place⟩

def loadFile (fs : FileSystem) (name : String) : IO FileSystem := do
  let text ← IO.FS.readFile name
  return (fs.create ⟨name⟩ text).toOption.getD fs

/-- The files whose text is not what it was. -/
def changedFiles (before after : FileSystem) : List (Path × String) :=
  (after.tree.files fun _ => true).filterMap fun place =>
    let path := FileSystem.pathOf place
    match (after.read path).toOption with
    | some text => if (before.read path).toOption = some text then none else some (path, text)
    | none => none

end Ambient

open Ambient in
def main (args : List String) : IO UInt32 := do
  let dir := (← IO.getEnv "PWD").getD "/"
  let home := (← IO.getEnv "HOME").map Ambient.Path.mk
  let names ← readNames (← IO.getStdin) []
  let fs ← names.foldlM loadFile (startingFiles dir)
  let done := CommandLine.run fs home args
  (← IO.getStdout).putStr done.stdout
  (← IO.getStderr).putStr done.stderr
  for (path, text) in changedFiles fs done.fs do
    IO.FS.writeFile path.text text
  return UInt32.ofNat done.exitCode
