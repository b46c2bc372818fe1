/-
**Files and directories.**

What the work needs of a file system is what it finds at a path: a file with its bytes, a directory
with all that is below it, or a reason why there is nothing.

Main definitions:

* `MacroForest.Entity` — a file, or a directory with its content;
* `MacroForest.FileFault` — why there is nothing;
* `MacroForest.Files` — what is found at each path;
* `MacroForest.Entity.find` — what is found below a directory.
-/

import MacroForest.Files.Path

set_option relaxedAutoImplicit false
set_option autoImplicit false

namespace MacroForest

/-- A file with its bytes, or a directory with its content. -/
inductive Entity where
  | file (content : ByteArray)
  | directory (children : List (String × Entity))

/-- The reason why a file cannot be had. -/
inductive FileFault where
  | notFound
  | notDirectory
  | isDirectory
  | notText
deriving DecidableEq

/-- The wording of a reason. -/
def FileFault.message : FileFault → String
  | .notFound => "No such file or directory (os error 2)"
  | .notDirectory => "Not a directory (os error 20)"
  | .isDirectory => "Is a directory (os error 21)"
  | .notText => "stream did not contain valid UTF-8"

/-- What is found at each path. -/
abbrev Files := String → Except FileFault Entity

namespace Entity

/-- A directory without content. -/
def empty : Entity := .directory []

/-- Puts something at a place given by names, with directories on the way to it. -/
def insert (item : Entity) : List String → Entity → Entity
  | [], _ => item
  | name :: names, .directory children =>
    let below := (children.lookup name).getD empty
    .directory ((name, insert item names below) :: children.filter (·.1 != name))
  | name :: names, .file _ => .directory [(name, insert item names empty)]

/-- Follows the parts of a path from a directory; `above` are the directories around it. -/
def follow : List String → List Entity → Entity → Except FileFault Entity
  | [], _, here => .ok here
  | _ :: _, _, .file _ => .error .notDirectory
  | part :: parts, above, .directory children =>
    if part == "" || part == "." then follow parts above (.directory children)
    else if part == ".." then
      match above with
      | outer :: above => follow parts above outer
      | [] => follow parts [] (.directory children)
    else
      match children.lookup part with
      | some child => follow parts (.directory children :: above) child
      | none => .error .notFound

/-- What is found at a path below a directory.  Nothing is found at the empty path, nor outside. -/
def find (here : Entity) (path : String) : Except FileFault Entity :=
  match path.toList with
  | [] => .error .notFound
  | '/' :: _ => .error .notFound
  | _ => follow (Path.parts path) [] here

mutual

/-- All files below something, with the names that lead to them. -/
def files : Entity → List (List String × ByteArray)
  | .file content => [([], content)]
  | .directory children => filesOf children

/-- All files below the children of a directory. -/
def filesOf : List (String × Entity) → List (List String × ByteArray)
  | [] => []
  | (name, child) :: children =>
    ((files child).map fun (names, content) => (name :: names, content)) ++ filesOf children

end

end Entity

/-- The text of what is found at a path. -/
def Entity.text : Entity → Except FileFault String
  | .directory _ => .error .isDirectory
  | .file content =>
    match String.fromUTF8? content with
    | some text => .ok text
    | none => .error .notText

end MacroForest
