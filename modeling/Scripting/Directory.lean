import Scripting.CommandLine

/-!
A directory with files and nothing else in it, and what a path names from inside it.
-/

set_option autoImplicit false

namespace Scripting

structure Directory where
  files : List (String × String)

namespace Directory

def maxName : Nat := 255

def maxPath : Nat := 4095

def components (path : String) : List String :=
  (path.splitOn "/").filter fun name => name ≠ "" && name ≠ "."

/-- The slashes that a path begins with: of more than two only one counts. -/
def leading (path : String) : String :=
  match path.toList.takeWhile (· = '/') with
  | [] => ""
  | ['/', '/'] => "//"
  | _ => "/"

inductive Spot where
  | inside
  /-- A directory around it, of which nothing is known. -/
  | outside

/-- Follows names one after the other. Nothing stands below a file, and no name is known outside. -/
def follow (d : Directory) : Spot → List String → CommandLine.Lookup
  | _, [] => .directory
  | spot, name :: below =>
    if name = ".." then d.follow .outside below
    else if maxName < name.utf8ByteSize then .nameTooLong
    else
      match spot, below with
      | .inside, [] =>
        match d.files.lookup name with
        | some text => .file text
        | none => .missing
      | _, _ => .missing

def lookup (d : Directory) (path : String) : CommandLine.Lookup :=
  let names := components path
  let root := leading path
  if path.toList.contains '\x00' then .missing
  else if maxPath < (root ++ "/".intercalate names).utf8ByteSize then .nameTooLong
  else d.follow (if root = "" then .inside else .outside) names

end Directory

end Scripting
