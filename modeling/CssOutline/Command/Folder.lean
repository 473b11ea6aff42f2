import CssOutline.Command

/-!
A folder of named texts, as a command sees it from inside: paths are relative to it, and a name
with something after it must be a folder.
-/

namespace CssOutline

structure Folder where
  files : List (String × String)

namespace Folder

/-- The text at a path. -/
def read (folder : Folder) (path : SystemText) : Except InputFault String :=
  let parts := segments (· == 0x2f) path.bytes
  match parts.filter (fun c => c != [] && c != [0x2e]) with
  | [] => .error .isDirectory
  | name :: inner =>
    if parts.head? = some [] ∨ name = [0x2e, 0x2e] then
      if inner = [] ∧ name = [0x2e, 0x2e] then .error .isDirectory else .error .notFound
    else
      match (SystemText.text? ⟨name⟩).bind fun name => folder.files.lookup name with
      | none => .error .notFound
      | some text =>
        if parts.getLast? = some name then .ok text else .error .notDirectory

end Folder

end CssOutline
