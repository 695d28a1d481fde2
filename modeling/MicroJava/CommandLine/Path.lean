/-!
# Names of files

A path is a sequence of names between slashes. The extension of a file is what follows the last dot
of its name, unless that dot begins the name. `withExtension` replaces the extension, or adds one to
a file that has none.
-/

namespace MicroJava.CommandLine.Path

/-- The names between the slashes of a path. Those before, after and between two slashes that are next
to each other are empty. -/
def names (path : String) : List String :=
  (path.toList.splitOn '/').map String.ofList

/-- The name of the file that a path leads to, with the part of the path before it. Paths that end
in a dot or two dots lead to a directory and name no file. -/
def splitName? (path : List Char) : Option (List Char × List Char) :=
  let trimmed := trim path.reverse
  let name := (trimmed.takeWhile (· ≠ '/')).reverse
  if name = [] ∨ name = ['.'] ∨ name = ['.', '.'] then none
  else some ((trimmed.dropWhile (· ≠ '/')).reverse, name)
where
  /-- Drops the slashes, and the dots that stand for the directory itself, from a reversed path. -/
  trim : List Char → List Char
    | '/' :: cs => trim cs
    | '.' :: '/' :: cs => trim cs
    | cs => cs

/-- The name of a file before and after its last dot, if it has an extension. -/
def splitExtension? (name : List Char) : Option (List Char × List Char) :=
  let reversed := name.reverse
  let extension := (reversed.takeWhile (· ≠ '.')).reverse
  match reversed.dropWhile (· ≠ '.') with
  | '.' :: stem => if stem = [] then none else some (stem.reverse, extension)
  | _ => none

/-- The path with the extension of its file taken off, the dot excepted. -/
def dropExtension (path : List Char) : List Char :=
  match (splitName? path).bind fun (_, name) => splitExtension? name with
  | some (_, extension) => path.take (path.length - extension.length)
  | none => path

/-- Adds an extension to the name of the file, in place of the one that it has. -/
def setExtension (path extension : List Char) : List Char :=
  match splitName? path with
  | none => path
  | some (directory, name) =>
    let stem := ((splitExtension? name).map Prod.fst).getD name
    directory ++ stem ++ '.' :: extension

/-- The path of the file with another extension. -/
def withExtension (path extension : String) : String :=
  String.ofList (setExtension (dropExtension path.toList) extension.toList)

end MicroJava.CommandLine.Path
