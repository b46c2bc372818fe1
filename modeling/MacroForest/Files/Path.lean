/-
**Paths.**

A path is written with slashes between its parts.  Slashes in a row count as one.

Main definitions:

* `MacroForest.Path.parts` — the parts of a path;
* `MacroForest.Path.extension?` — what follows the last dot of the file name;
* `MacroForest.Path.join` — a path below another one;
* `MacroForest.Path.notAfter` — the order of paths.
-/

set_option relaxedAutoImplicit false
set_option autoImplicit false

namespace MacroForest.Path

/-- The parts between the slashes of some characters, empty ones included. -/
def split : List Char → List (List Char)
  | [] => [[]]
  | '/' :: cs => [] :: split cs
  | c :: cs =>
    match split cs with
    | part :: parts => (c :: part) :: parts
    | [] => [[c]]

/-- The parts of a path.  An empty part says that what stands before it is a directory. -/
def parts (path : String) : List String := (split path.toList).map String.ofList

/-- The file name of a path: its last part that is not empty and not the directory itself. -/
def fileName? (path : String) : Option String :=
  match (parts path).filter (fun part => part != "" && part != ".") with
  | [] => none
  | names => names.getLast?.filter (· != "..")

/-- What follows the last dot of the file name.  A dot at the start of the name does not count. -/
def extension? (path : String) : Option String := do
  let reversed := (← fileName? path).toList.reverse
  let behind := reversed.takeWhile (· != '.')
  if reversed.length ≤ behind.length + 1 then none
  return String.ofList behind.reverse

/-- The path of something below a directory. -/
def join (directory name : String) : String :=
  if directory.toList.getLast? == some '/' then directory ++ name else directory ++ "/" ++ name

/-- Whether the names that lead to one thing come before those that lead to another, or are the
same: they are compared part by part. -/
def notAfter : List String → List String → Bool
  | [], _ => true
  | _ :: _, [] => false
  | a :: as, b :: bs => if a = b then notAfter as bs else decide (a < b)

end MacroForest.Path
