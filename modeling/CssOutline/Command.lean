import CssOutline.Command.SystemText
import CssOutline.Decode
import CssOutline.Json.Reader
import CssOutline.Outline.Layout

/-!
The command line. `decode` turns style sheets into JSON, one outline for a single input and an
object keyed by the paths as they are displayed for several; `encode` turns JSON back into a style
sheet. All inputs are read before any is decoded, and the first problem in input order is reported.
-/

namespace CssOutline

inductive Command where
  | decode (inputs : List SystemText) (spacing : Json.Spacing)
  | encode (input : SystemText) (indent : String)
deriving DecidableEq, Repr

inductive InputFault where
  | notFound
  | isDirectory
  | notDirectory
  | notText
  | other (message : String)
deriving DecidableEq, Repr

inductive Failure where
  | input (path : SystemText) (fault : InputFault)
  | parse (error : ParseError)
  | json (error : Json.ReadError)
  | layout (error : LayoutError)
deriving DecidableEq, Repr

def InputFault.message : InputFault → String
  | notFound => "No such file or directory (os error 2)"
  | isDirectory => "Is a directory (os error 21)"
  | notDirectory => "Not a directory (os error 20)"
  | notText => "stream did not contain valid UTF-8"
  | other message => message

/-- The remark is that of the JSON reader, if there is one. -/
def Failure.message (f : Failure) (remark : Option Json.Remark := none) : String :=
  match f with
  | input path fault => "Failed to read '" ++ path.display ++ "': " ++ fault.message
  | parse error => error.text
  | json error => error.message remark
  | layout error => error.message

namespace Command

structure Arguments where
  inputs : List SystemText
  compact : Nat
  indents : List String

def longOption? (arg : SystemText) : Option (SystemText × Option SystemText) :=
  match arg.bytes with
  | 0x2d :: 0x2d :: bs =>
    let name : SystemText := ⟨bs.takeWhile (· != 0x3d)⟩
    match bs.dropWhile (· != 0x3d) with
    | [] => some (name, none)
    | _ :: value => some (name, some ⟨value⟩)
  | _ => none

def isOption (arg : SystemText) : Bool :=
  match arg.bytes with
  | 0x2d :: _ :: _ => true
  | _ => false

/-- Sorts arguments. `decode` takes the option `--compact` and `encode` the option `--indent`,
whose value is text and stands after an equals sign or next; two hyphens end the options. -/
def sort? (encoding : Bool) : List SystemText → Option Arguments
  | [] => some ⟨[], 0, []⟩
  | arg :: rest =>
    if arg = "--" then some ⟨rest, 0, []⟩
    else if !isOption arg then
      (sort? encoding rest).map fun a => ⟨arg :: a.inputs, a.compact, a.indents⟩
    else
      match longOption? arg with
      | none => none
      | some (name, value) =>
        if name = "compact" ∧ value = none ∧ !encoding then
          (sort? encoding rest).map fun a => ⟨a.inputs, a.compact + 1, a.indents⟩
        else if name = "indent" ∧ encoding then
          match value, rest with
          | some value, rest => do
            let indent ← value.text?
            let a ← sort? encoding rest
            some ⟨a.inputs, a.compact, indent :: a.indents⟩
          | none, [] => none
          | none, value :: rest =>
            if isOption value then none
            else do
              let indent ← value.text?
              let a ← sort? encoding rest
              some ⟨a.inputs, a.compact, indent :: a.indents⟩
        else none

def parse? : List SystemText → Option Command
  | [] => none
  | name :: rest =>
    if name = "decode" then do
      let a ← sort? false rest
      if a.inputs = [] ∨ ↑"" ∈ a.inputs ∨ 1 < a.compact then none
      else some (.decode a.inputs (if a.compact = 1 then .compact else .pretty))
    else if name = "encode" then do
      let a ← sort? true rest
      match a.inputs, a.indents with
      | [input], [] => if input = "" then none else some (.encode input Outline.defaultIndent)
      | [input], [indent] => if input = "" then none else some (.encode input indent)
      | _, _ => none
    else none

def inputs : Command → List SystemText
  | decode paths _ => paths
  | encode path _ => [path]

/-- The components of a path, between slashes (`0x2f`): neither empty nor a dot (`0x2e`) after the
first. Spellings with the same components are one path. -/
def components (path : SystemText) : List (List UInt8) :=
  match segments (· == 0x2f) path.bytes with
  | [] => []
  | first :: rest => first :: rest.filter fun c => c != [] && c != [0x2e]

def isStandardInput (path : SystemText) : Bool :=
  components path == [[0x2d]]

@[simp] def gatherFrom (read : SystemText → Except InputFault String)
    (standardInput : Except InputFault String) : List SystemText → Except Failure (List String)
  | [] => .ok []
  | path :: paths =>
    if isStandardInput path then
      match standardInput with
      | .error fault => .error (.input path fault)
      | .ok text => (gatherFrom read (.ok "") paths).map (text :: ·)
    else
      match read path with
      | .error fault => .error (.input path fault)
      | .ok text => (gatherFrom read standardInput paths).map (text :: ·)

def gather (read : SystemText → Except InputFault String) (standardInput : String) :
    List SystemText → Except Failure (List String) :=
  gatherFrom read (.ok standardInput)

def decodeAll : List String → Except Failure (List Outline)
  | [] => .ok []
  | text :: texts =>
    match CssOutline.decode text with
    | .error e => .error (.parse e)
    | .ok d => (decodeAll texts).map (d :: ·)

def collected (paths : List SystemText) : List Outline → Outline
  | [d] => d
  | ds => Outline.ofEntries ((paths.map SystemText.display).zip (ds.map .block))

def output : Command → List String → Except Failure String
  | decode paths spacing, texts =>
    (decodeAll texts).map fun ds => Json.write spacing (collected paths ds) ++ "\n"
  | encode _ indent, texts =>
    match Json.read ("".intercalate texts) with
    | .error e => .error (.json e)
    | .ok d =>
      match d.encode indent with
      | .error e => .error (.layout e)
      | .ok css => .ok css

/-- Runs the command on a view of the files and of the standard input. -/
def runFrom (read : SystemText → Except InputFault String)
    (standardInput : Except InputFault String) (c : Command) : Except Failure String :=
  match gatherFrom read standardInput c.inputs with
  | .error e => .error e
  | .ok texts => c.output texts

def run (read : SystemText → Except InputFault String) (standardInput : String) (c : Command) :
    Except Failure String :=
  c.runFrom read (.ok standardInput)

def errorLine (f : Failure) (remark : Option Json.Remark := none) : String :=
  "Error: " ++ f.message remark ++ "\n"

/-- What a run leaves behind: its exit code, and what it prints on the standard output and, apart
from log records, on the standard error stream. -/
structure Report where
  code : UInt32
  output : String
  errors : String
deriving DecidableEq, Repr

/-- A result is printed, or else the failure is. -/
def report (result : Except Failure String) (remark : Option Json.Remark := none) : Report :=
  match result with
  | .ok text => ⟨0, text, ""⟩
  | .error f => ⟨1, "", errorLine f remark⟩

end Command

end CssOutline
