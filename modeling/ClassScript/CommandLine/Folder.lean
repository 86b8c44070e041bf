/-!
# Folders

A folder with files and folders in it, and what is found there under a path.  Of the folders around it
nothing is known but that they are there: a path that leads out of the folder never leads in again.
-/

namespace ClassScript.CommandLine

/-- Why a file cannot be read. -/
inductive ReadFault where
  | missing | denied | notFolder | isFolder | longName
  deriving DecidableEq, Repr

/-- What the system says about a file that cannot be read. -/
def ReadFault.text : ReadFault → String
  | missing => "No such file or directory (os error 2)"
  | denied => "Permission denied (os error 13)"
  | notFolder => "Not a directory (os error 20)"
  | isFolder => "Is a directory (os error 21)"
  | longName => "File name too long (os error 36)"

/-- Files by path, and folders by paths that end in a slash. -/
structure Folder where
  entries : List (String × ByteArray) := []

/-- Where a path has led so far. -/
inductive Place where
  /-- Behind these names in the folder. -/
  | inside (names : List String)
  /-- In one of the folders around it. -/
  | outside
  deriving DecidableEq, Repr

namespace Folder

/-- The steps of a path. Empty steps and single dots stay where they are. -/
def steps (path : String) : List String := path.splitOn "/"

/-- Whether a step of a path stays where it is. -/
def isIdle (step : String) : Bool := step = "" || step = "."

/-- The names that an entry of a folder stands behind. -/
def names (entry : String) : List String := (steps entry).filter fun x => !isIdle x

/-- Whether there is a folder behind these names. -/
def isFolder (f : Folder) (place : List String) : Bool :=
  place.isEmpty || f.entries.any fun e =>
    let there := names e.1
    place.isPrefixOf there && (place.length < there.length || e.1.endsWith "/")

/-- The file behind these names. -/
def file? (f : Folder) (place : List String) : Option ByteArray :=
  (f.entries.find? fun e => names e.1 = place && !e.1.endsWith "/").map Prod.snd

/-- The contents of the file that the steps of a path lead to from a place, or why there are none. -/
def walk (f : Folder) : Place → List String → Except ReadFault ByteArray
  | _, [] => .error .isFolder
  | p, x :: rest =>
    if isIdle x then walk f p rest
    else if x = ".." then
      match p with
      | .inside (n :: ns) => walk f (.inside (n :: ns).dropLast) rest
      | .inside [] | .outside => walk f .outside rest
    else if 255 < x.utf8ByteSize then .error .longName
    else match p with
      | .outside => .error .missing
      | .inside place =>
        let there := place ++ [x]
        if f.isFolder there then walk f (.inside there) rest
        else match f.file? there with
          | some bytes => if rest.isEmpty then .ok bytes else .error .notFolder
          | none => .error .missing

/-- The contents of a file, or why there are none. A path that begins with a slash begins outside. -/
def read (f : Folder) (path : String) : Except ReadFault ByteArray :=
  if path = "" then .error .missing
  else if 4096 ≤ path.utf8ByteSize then .error .longName
  else f.walk (if path.startsWith "/" then .outside else .inside []) (steps path)

end Folder

end ClassScript.CommandLine
