/-!
# Paths

A path is a text with `/` between its components. The final component is the last one, where empty
components and `.` at the end do not count; a path may have none. `withExtension` replaces what
stands after the last dot of the final component, unless that dot is its first character: it takes
the old extension off and puts the new one on what is left.
-/

namespace Cartridge.Path

/-- The components, empty ones and `.` included. -/
def components (path : String) : List String :=
  (path.toList.splitOn '/').map String.ofList

/-- Drops the components at the end that do not count; the characters are in reverse. -/
def trimEnd : List Char → List Char
  | '/' :: cs => trimEnd cs
  | '.' :: '/' :: cs => trimEnd cs
  | cs => cs

/-- What stands before the final component, and the component itself, both in reverse. -/
def split (path : String) : List Char × List Char :=
  let cs := trimEnd path.toList.reverse
  (cs.dropWhile (· != '/'), cs.takeWhile (· != '/'))

/-- Whether a component, in reverse, names something inside its directory. -/
def isName (component : List Char) : Bool :=
  component ≠ [] && component ≠ ['.'] && component ≠ ['.', '.']

/-- A component, in reverse, without its extension. -/
def stem (component : List Char) : List Char :=
  match (component.dropWhile (· != '.')).drop 1 with
  | [] => component
  | cs => cs

/-- The length of the extension of a component, in reverse. -/
def extensionLength (component : List Char) : Nat :=
  component.length - (stem component).length - 1

/-- Takes as many characters off the end of a path as its extension has; the dot stays. -/
def dropExtension (path : String) : String :=
  let component := (split path).2
  if isName component then
    String.ofList (path.toList.reverse.drop (extensionLength component)).reverse
  else path

/-- Puts an extension in the place of what stands after the stem of the final component. A path
without a final component stays as it is. -/
def setExtension (path extension : String) : String :=
  let (directory, component) := split path
  if isName component then
    String.ofList (stem component ++ directory).reverse ++ "." ++ extension
  else path

/-- Replaces the extension of the final component. If only two dots are left without the old one,
nothing is put on them. -/
def withExtension (path extension : String) : String :=
  setExtension (dropExtension path) extension

/-- The directory of the final component. -/
def parent (path : String) : String := String.ofList (split path).1.reverse

/-- A name inside a directory. -/
def join (directory name : String) : String :=
  match directory.toList.getLast? with
  | some '/' | none => directory ++ name
  | _ => directory ++ "/" ++ name

end Cartridge.Path
