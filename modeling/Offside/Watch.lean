import Offside.Build

/-!
# Watching

After a first build the target is watched, and a source that changes is compiled again.
-/

namespace Offside

/-- What is watched: one file, the files of a folder, or those at any depth below it.  A file that is replaced or
taken away is lost, and nothing is watched from then on. -/
inductive Scope
  | file (path : Path) (location : Location)
  | folder (path : Path) (location : Location) (recursive : Bool)
  | nothing
deriving DecidableEq, Repr

/-- A watch that goes on: what is done with each source, what is watched and the tree as it is now. -/
structure Watch where
  job : Job
  scope : Scope
  tree : FileTree

/-- What is printed on the two outputs. -/
structure Printout where
  output : String := ""
  errors : String := ""
deriving DecidableEq, Repr

def Printout.append (first second : Printout) : Printout :=
  ⟨first.output ++ second.output, first.errors ++ second.errors⟩

namespace Watch

/-- What can happen to a file. -/
inductive Kind
  | any | access | create | modify | rename | remove | other
deriving DecidableEq, Repr

/-- Something that happened to files. -/
structure Event where
  kind : Kind
  paths : List Path
deriving DecidableEq, Repr

/-- Whether files have other content after an event of a kind. -/
def Kind.changes : Kind → Bool
  | .create | .modify | .rename => true
  | _ => false

/-- Drops each path that has the parts of the path before it. -/
def dropRepeats : List Path → List Path
  | [] => []
  | [path] => [path]
  | path :: next :: rest =>
    if path.same next then dropRepeats (path :: rest) else path :: dropRepeats (next :: rest)
termination_by paths => paths.length

/-- The sources that an event changed. -/
def changedSources (tree : FileTree) (extension : String) (event : Event) : List Path :=
  if event.kind.changes then
    dropRepeats (event.paths.filter fun path => path.hasExtension extension && tree.isFile path)
  else []

/-- Compiles a changed source. -/
def recompile (tools : Tool.Box) (job : Job) (tree : FileTree) (path : Path) : FileTree × Printout :=
  match job.compileFile tools tree path with
  | .ok (tree, text) =>
    (tree, { output := text ++ Terminal.bold (Terminal.green "Compiled") ++ " " ++ path.text ++ "\n" })
  | .error failure => (tree, { errors := failure.report })

/-- Deals with an event. -/
def handle (tools : Tool.Box) (job : Job) (tree : FileTree) (event : Event) : FileTree × Printout :=
  (changedSources tree job.settings.sourceExtension event).foldl
    (fun (tree, printout) path =>
      let (tree, more) := recompile tools job tree path
      (tree, printout.append more))
    (tree, {})

/-- What the watch of a target sees. -/
def scopeOf (job : Job) (tree : FileTree) (target : Path) : Scope :=
  match tree.find .visit target with
  | .ok (location, .folder) => .folder target location job.settings.recursive
  | .ok (location, _) => .file target location
  | .error _ => .nothing

/-- Starts to watch a target with a build of it. -/
def start (tools : Tool.Box) (job : Job) (tree : FileTree) (target : Path) :
    Except Failure (Watch × Printout) := do
  let build ← Build.run tools job tree target
  let line := " ".intercalate
    [Terminal.bold (Terminal.green "Watching"), Terminal.cyan target.text, Terminal.dimmed "(Ctrl-C to stop)"]
  return (⟨job, scopeOf job build.tree target, build.tree⟩,
    { output := build.printed ++ line ++ "\n", errors := build.report })

/-! ## Changes of watched files -/

/-- What somebody else does to a file. -/
inductive Change
  | move (location : Location) (content : ByteArray)
  | append (location : Location) (content : ByteArray)
  | remove (location : Location)

namespace Change

/-- The location of what changes.  Links are followed to what is appended to, and are themselves replaced or taken
away. -/
def place (tree : FileTree) : Change → Location
  | .move location _ | .remove location => location
  | .append location _ => (tree.resolveSteps .visit FileTree.linkLimit [] location).toOption.getD location

def kind : Change → Kind
  | .move _ _ => .rename
  | .append _ _ => .modify
  | .remove _ => .remove

/-- The tree after a change of what is at a place. -/
def apply (tree : FileTree) (place : Location) : Change → FileTree
  | .move _ content => tree.plant place (.file content)
  | .append _ content =>
    match tree.node? place with
    | some (.file old) => tree.put place (.file (old ++ content))
    | _ => tree.plant place (.file content)
  | .remove _ => tree.erase place

/-- Whether a change ends what stood at its place. -/
def replaces : Change → Bool
  | .move _ _ | .remove _ => true
  | .append _ _ => false

end Change

end Watch

namespace Scope

/-- The path by which a location is seen, if it is. -/
def sees? : Scope → Location → Option Path
  | .file path watched, location => if location = watched then some path else none
  | .folder path top recursive, location =>
    let names := location.drop top.length
    if top.isPrefixOf location && (names.length = 1 || (recursive && names ≠ [])) then
      some (names.foldl Path.join path)
    else none
  | .nothing, _ => none

/-- What is watched after something else came to a location. -/
def afterLoss (location : Location) : Scope → Scope
  | .file path watched => if location = watched then .nothing else .file path watched
  | scope => scope

end Scope

/-- Applies a change and deals with its event if it is seen. -/
def Watch.react (tools : Tool.Box) (watch : Watch) (change : Change) : Watch × Printout :=
  let place := change.place watch.tree
  let tree := change.apply watch.tree place
  let scope := if change.replaces then watch.scope.afterLoss place else watch.scope
  match watch.scope.sees? place with
  | some path =>
    let (tree, printout) := handle tools watch.job tree ⟨change.kind, [path]⟩
    (⟨watch.job, scope, tree⟩, printout)
  | none => (⟨watch.job, scope, tree⟩, {})

end Offside
