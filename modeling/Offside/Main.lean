import Offside.Session
import Offside.Tool.Standard

/-!
# The program

The command line over the real working folder: the folder is read into a tree, the session runs on the tree, and
what it changed is written back.
-/

namespace Offside.WorkingFolder

/-- How deep folders are read. -/
def depthLimit : Nat := 64

/-- What stands at and below the entries of a folder.  What cannot be read is left out. -/
def nodesOf : (depth : Nat) → Location → Array IO.FS.DirEntry → IO (List (Location × Node))
  | 0, _, _ => return []
  | depth + 1, folder, entries => do
    let mut nodes := []
    for entry in entries do
      let location := folder ++ [entry.fileName]
      try
        if ← entry.path.isDir then
          nodes := nodes ++ (location, .folder) :: (← nodesOf depth location (← entry.path.readDir))
        else
          nodes := nodes ++ [(location, .file (← IO.FS.readBinFile entry.path))]
      catch _ => pure ()
    return nodes

/-- A system with what stands in the working folder. -/
def readTree : IO FileTree := do
  let folder ← IO.currentDir
  let tree := FileTree.system (folder.components.filter fun name => name ≠ "" && name ≠ "/")
  return { tree with nodes := tree.nodes ++ (← nodesOf depthLimit tree.working (← folder.readDir)) }

/-- Writes the files that changed. -/
def writeChanges (before after : FileTree) : IO Unit := do
  for (location, content) in after.filesNotIn before do
    IO.FS.writeBinFile ("/" ++ "/".intercalate location) content

/-- The variables of the environment that are meant for the program or for tools. -/
def readEnvironment : IO Environment := do
  let names := Environment.usual.map (·.1) ++ Session.fileVariable ::
    Settings.Key.all.map fun key => Settings.variableStart ++ key.text.toUpper
  let mut found := []
  for name in names do
    if let some value ← IO.getEnv name then found := found ++ [(name, value)]
  return found

/-- What changed between two trees. -/
def changesBetween (before after : FileTree) : List Watch.Change :=
  let gone := before.nodes.filterMap fun (location, node) =>
    match node, after.node? location with
    | .file _, none => some (.remove location)
    | _, _ => none
  gone ++ (after.filesNotIn before).map fun (location, content) => .move location content

def print (printout : Printout) : IO Unit := do
  IO.print printout.output
  IO.eprint printout.errors

/-- Looks for changes again and again, and deals with each of them. -/
partial def watchForever (tools : Tool.Box) (watch : Watch) : IO Unit := do
  IO.sleep 200
  let current ← readTree
  let mut known := watch
  for change in changesBetween watch.tree current do
    let (next, printout) := known.react tools change
    print printout
    known := next
  writeChanges current known.tree
  watchForever tools known

/-- Runs the program on the words of its command line. -/
def run (words : List String) : IO UInt32 := do
  let before ← readTree
  let environment ← readEnvironment
  let tools := Tool.standard (Environment.usual.updated environment)
  let ending := Session.run tools words environment before
  writeChanges before ending.tree
  print ending.printout
  if let some watch := ending.watching then watchForever tools watch
  return ending.status.toUInt32

end Offside.WorkingFolder

def main (words : List String) : IO UInt32 := Offside.WorkingFolder.run words
