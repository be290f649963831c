/-!
# Folders

Files by name, and the ways in which reading one can fail. A path is followed part
by part: a dot stays, two dots go up, a name has to be there, and only a folder
has anything below it.
-/

namespace LineCalc.Command

/-- Why a file cannot be read. -/
inductive ReadFault where
  | missing
  | notAFolder
  | isAFolder
  | notText
  deriving DecidableEq, Repr

/-- The cause as it is shown to the user. -/
def ReadFault.cause : ReadFault → String
  | missing => "No such file or directory (os error 2)"
  | notAFolder => "Not a directory (os error 20)"
  | isAFolder => "Is a directory (os error 21)"
  | notText => "stream did not contain valid UTF-8"

/-- The files of a folder and of the folders in it, by the names on their way. -/
structure Folder where
  files : List (List String × List UInt8)

namespace Folder

/-- Divide at every slash. A slash at the end leaves an empty part. -/
def splitSlashes : List Char → List (List Char)
  | [] => [[]]
  | c :: rest =>
    match splitSlashes rest with
    | [] => [[c]]
    | part :: others => if c = '/' then [] :: part :: others else (c :: part) :: others

/-- The parts of a path, which slashes divide. -/
def parts (path : String) : List String := (splitSlashes path.toList).map String.ofList

/-- The folder with files at the given paths. -/
def ofFiles (files : List (String × List UInt8)) : Folder :=
  ⟨files.map fun file => ((parts file.1).filter fun part => part != "" && part != ".", file.2)⟩

/-- The content of the file with this way, if there is one. -/
def file? (folder : Folder) (way : List String) : Option (List UInt8) := folder.files.lookup way

/-- Whether there is a folder with this way. -/
def hasFolder (folder : Folder) (way : List String) : Bool :=
  folder.files.any fun file => way.isPrefixOf file.1

/-- Follow the parts of a path from the place reached so far, which is `none`
outside of the folder. -/
def follow (folder : Folder) : Option (List String) → List String → Except ReadFault (List UInt8)
  | _, [] => .error .isAFolder
  | place, part :: rest =>
    if part = "" || part = "." then folder.follow place rest
    else if part = ".." then
      match place with
      | none | some [] => folder.follow none rest
      | some way => folder.follow (some way.dropLast) rest
    else
      match place with
      | none => .error .missing
      | some way =>
        let way := way ++ [part]
        match folder.file? way with
        | some content => if rest.isEmpty then .ok content else .error .notAFolder
        | none => if folder.hasFolder way then folder.follow (some way) rest else .error .missing

/-- The content of the file at a path, seen from the folder. -/
def read (folder : Folder) (path : String) : Except ReadFault (List UInt8) :=
  folder.follow (if path.toList.head? = some '/' then none else some []) (parts path)

end Folder

end LineCalc.Command
