import Cartridge.Build.Host
import Cartridge.Path

/-!
# Directories in memory

A `Workspace` holds directories and files, so that a build can run without a disk. A location lists
names from the inside out. Relative paths start at the home directory; `..` at the top stays there.
-/

namespace Cartridge

/-- Directories and files by their locations. -/
structure Workspace where
  /-- Where relative paths start. -/
  home : List String
  directories : List (List String)
  files : List (List String × String)
deriving DecidableEq, Repr, Inhabited

namespace Workspace

/-- A workspace without files. -/
def empty : Workspace := ⟨["home"], [["home"]], []⟩

variable (w : Workspace)

/-- Whether a location is a directory. -/
def isDirectory (location : List String) : Bool :=
  location.isEmpty || w.directories.contains location

/-- The text of a file. -/
def text? (location : List String) : Option String := w.files.lookup location

/-- Where a path starts. -/
def origin (path : String) : List String :=
  if path.toList.head? = some '/' then [] else w.home

/-- Whether a component stays in its directory. -/
def isHere (component : String) : Bool := component == "" || component == "."

/-- The longest name of a file, in bytes. -/
def maxName : Nat := 255

/-- The longest path, in bytes. -/
def maxPath : Nat := 4095

/-- Whether a file or directory may have a name. -/
def isValidName (name : String) : Bool := name.utf8ByteSize ≤ maxName

/-- Whether a path can be used at all. -/
def isValidPath (path : String) : Bool :=
  path ≠ "" && path.utf8ByteSize ≤ maxPath && !path.toList.contains '\x00'

/-- The location of a component inside a directory. -/
def enter (location : List String) (component : String) : Option (List String) :=
  if isHere component then some location
  else if component = ".." then some location.tail
  else if w.isDirectory (component :: location) then some (component :: location)
  else none

/-- The location of the file that a path names; the directories of the path must exist. -/
def locate (path : String) : Option (List String) :=
  match (Path.components path).reverse with
  | name :: directories =>
    if !isValidPath path || isHere name || name = ".." then none
    else (directories.reverse.foldlM w.enter (w.origin path)).map (name :: ·)
  | [] => none

/-- The text of the file at a path. -/
def read (path : String) : Except String String :=
  match (w.locate path).bind w.text? with
  | some text => .ok text
  | none => .error "no such file"

/-- Enters a directory, which is created if it does not exist. -/
def enterNew (state : Workspace × List String) (component : String) :
    Option (Workspace × List String) :=
  let (w, location) := state
  let next := component :: location
  match w.enter location component with
  | some inside => some (w, inside)
  | none =>
    if isValidName component && (w.text? next).isNone then
      some ({ w with directories := next :: w.directories }, next)
    else none

/-- Creates the directories of a path. -/
def createDirectories (path : String) : Except String Workspace :=
  if !isValidPath path then .error "invalid path"
  else match (Path.components path).foldlM enterNew (w, w.origin path) with
    | some (w, _) => .ok w
    | none => .error "not a directory"

/-- Replaces the text of the file at a path. -/
def write (path text : String) : Except String Workspace :=
  match w.locate path with
  | some location =>
    if w.isDirectory location then .error "is a directory"
    else if !isValidName (location.headD "") then .error "name too long"
    else .ok { w with files := (location, text) :: w.files.filter (·.1 != location) }
  | none => .error "no such directory"

/-- Puts a file at a path, with the directories around it; one that cannot be there is left out. -/
def add (path text : String) : Workspace :=
  let inside := (w.createDirectories (Path.parent path)).toOption.getD w
  (inside.write path text).toOption.getD w

/-- A workspace with the given files. -/
def ofFiles (files : List (String × String)) : Workspace :=
  files.foldl (fun w f => w.add f.1 f.2) empty

/-- The files inside the home directory, by path. -/
def toFiles : List (String × String) :=
  (w.files.filter fun f => w.home.isSuffixOf f.1).map fun f =>
    ("/".intercalate (f.1.take (f.1.length - w.home.length)).reverse, f.2)

/-- The files that are new or have changed. -/
def changesSince (before : Workspace) : List (String × String) :=
  w.toFiles.filter fun f => !before.toFiles.contains f

/-- A workspace as the host of a build. -/
def host (runTool : String → List String → Except String ToolRun)
    (date temporaryDirectory : String) : Host (StateM Workspace) where
  readFile path := return (← get).read path
  createDirectories path := update (·.createDirectories path)
  writeFile path text := update (·.write path text)
  runTool tool arguments := pure (runTool tool arguments)
  launch _ _ := pure ()
  date := pure date
  temporaryDirectory := temporaryDirectory
where
  /-- Goes on with the new workspace, if there is one. -/
  update (change : Workspace → Except String Workspace) :
      StateM Workspace (Except String Unit) := do
    match change (← get) with
    | .ok w => set w; pure (.ok ())
    | .error reason => pure (.error reason)

end Workspace

end Cartridge
