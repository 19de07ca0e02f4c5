/-!
# Paths

A path as it names a file from some directory: absolute, and without steps that lead nowhere
or back.
-/

namespace Fixity.Path

/-- Takes one step from a place, whose last part comes first. -/
def step (place : List String) (part : String) : List String :=
  if part = "" ∨ part = "." then place
  else if part = ".." then place.tail
  else part :: place

/-- The parts between slashes. -/
def parts (path : String) : List String :=
  (path.toList.splitOnP (· = '/')).map String.ofList

/-- The file that a path names from a directory, itself named from the root. Steps back from
    the root stay there. -/
def resolve (directory path : String) : String :=
  let origin := if path.startsWith "/" then [] else (parts directory).foldl step []
  "/" ++ "/".intercalate ((parts path).foldl step origin).reverse

end Fixity.Path
