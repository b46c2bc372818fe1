/-
**Finding and reading source files.**

A file that is named is taken, whatever its name.  A directory stands for the source files below it,
in the order of the names that lead to them.

Main definitions:

* `MacroForest.Files.discover` — **the source files of some paths**;
* `MacroForest.SourceFile.input` — a source file as an input of a batch;
* `MacroForest.Files.settings` — the settings of a file.
-/

import MacroForest.Batch.Input
import MacroForest.Files.Tree
import MacroForest.Settings.Yaml

set_option relaxedAutoImplicit false
set_option autoImplicit false

namespace MacroForest

/-- A source file. -/
structure SourceFile where
  /-- Its path. -/
  path : String
  /-- What is found there. -/
  content : ByteArray

namespace Files

/-- The extensions of source files. -/
def sourceExtensions : List String := ["lm", "lexmac"]

/-- Whether a path is that of a source file. -/
def isSource (path : String) : Bool := (Path.extension? path).any sourceExtensions.contains

/-- The source files below a path, given what is found there. -/
def below (root : String) (here : Entity) : List SourceFile :=
  let found := here.files.mergeSort fun a b => Path.notAfter a.1 b.1
  (found.map fun (names, content) => ⟨names.foldl Path.join root, content⟩).filter (isSource ·.path)

/-- The source files below a path. -/
def discoverBelow (files : Files) (root : String) : Except PipelineError (List SourceFile) :=
  match files root with
  | .ok here => .ok (below root here)
  | .error fault =>
    .error (.io root ("IO error for operation on " ++ root ++ ": " ++ fault.message))

/-- The source files of a path. -/
def discoverOne (files : Files) (path : String) : Except PipelineError (List SourceFile) :=
  match files path with
  | .ok (.file content) => .ok [⟨path, content⟩]
  | .ok here => .ok (below path here)
  | .error _ => .error (.io path "no such file or directory")

/-- The source files of some paths, in the order of the paths. -/
def discover (files : Files) (paths : List String) : Except PipelineError (List SourceFile) :=
  (paths.mapM (discoverOne files)).map List.flatten

end Files

namespace SourceFile

/-- The text of a source file. -/
def text (f : SourceFile) : Except PipelineError String :=
  match (Entity.file f.content).text with
  | .ok text => .ok text
  | .error fault => .error (.io f.path fault.message)

/-- A source file as an input of a batch, tagged with its path. -/
def input (f : SourceFile) : Except PipelineError Input :=
  f.text.map fun text => { fileName := f.path, source := .text text, tag := some f.path }

end SourceFile

/-! ### Settings -/

/-- The settings of a JSON text. -/
def Settings.ofJsonText (text : String) : Except PipelineError Settings :=
  match Settings.ofJson text with
  | .ok settings => .ok settings
  | .error fault => .error (.config fault.message)

/-- The settings of a YAML text. -/
def Settings.ofYamlText (text : String) : Except PipelineError Settings :=
  match Settings.ofYaml? text with
  | some settings => .ok settings
  | none => .error (.config "invalid YAML")

/-- The reason to refuse a file of settings for its name. -/
def Files.unsupported (path : String) : String :=
  "unsupported config format for '" ++ path ++ "' (expected .json, .yaml or .yml)"

/-- The settings of a file, in the format that its extension tells. -/
def Files.settings (files : Files) (path : String) : Except PipelineError Settings :=
  match files path >>= Entity.text with
  | .error fault => .error (.io path fault.message)
  | .ok text =>
    match Path.extension? path with
    | some "json" => Settings.ofJsonText text
    | some "yaml" => Settings.ofYamlText text
    | some "yml" => Settings.ofYamlText text
    | _ => .error (.config (unsupported path))

end MacroForest
