import DurableFlow.Failure

/-! Paths of database files. The directories on the way to a file are made before it is opened, so
whether it can be opened is read off its path: a path that ends where a directory lies names no
file. -/
namespace DurableFlow.Store.Path

def names (path : String) : List String := (path.splitOn "/").filter fun s => s ≠ "" && s ≠ "."

def isAbsolute (path : String) : Bool := path.toList.head? = some '/'

/-- The place one name further, the last name first. Two dots leave a directory; above the root
lies the root, and above the start of a relative path they stay. -/
def step (absolute : Bool) (place : List String) (name : String) : List String :=
  if name = ".." then
    match place with
    | [] => if absolute then [] else [".."]
    | last :: rest => if last = ".." then ".." :: place else rest
  else name :: place

def placeOf (absolute : Bool) (names : List String) : List String :=
  names.foldl (step absolute) []

/-- The places of the directories on the way to the last of some names. -/
def directories (absolute : Bool) (names : List String) : List (List String) :=
  (List.range (names.dropLast.length + 1)).map fun k => placeOf absolute (names.take k)

def endsInDirectory (path : String) : Bool :=
  let place := placeOf (isAbsolute path) (names path)
  place ∈ directories (isAbsolute path) (names path) || place.head? = some ".."

def longestName : Nat := 255

def longestDirectory : Nat := 4095

/-- The bytes that a database adds to the name of its file for the names of its other files. -/
def suffixSize : Nat := 8

def longestFile : Nat := 504

/-- The bytes of a place in full. A relative one lies below a directory with a path of the usual
size for a temporary one. -/
def fullSize (absolute : Bool) (place : List String) : Nat :=
  place.foldl (fun size s => size + s.utf8ByteSize + 1) (if absolute then 0 else 16)

def holdsNull (s : String) : Bool := s.toList.any fun c => c.toNat = 0

def checkDirectories (path : String) : Except Failure Unit := do
  let parents := (names path).dropLast
  if parents.any holdsNull then throw .nullCharacter
  if parents.any (longestName < ·.utf8ByteSize) then throw .nameTooLong
  if longestDirectory < ("/".intercalate parents).utf8ByteSize then throw .nameTooLong

def check (path : String) : Except Failure Unit := do
  checkDirectories path
  if holdsNull path then throw .nullCharacter
  if endsInDirectory path then throw .notAFile
  let place := placeOf (isAbsolute path) (names path)
  if (place.take 1).any (longestName < ·.utf8ByteSize + suffixSize) then throw .notAFile
  if longestFile < fullSize (isAbsolute path) place then throw .notAFile

end DurableFlow.Store.Path
