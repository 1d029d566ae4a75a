/-! Paths as texts with slashes. Paths are relative to a working directory, whose own place in
the file system is `here`; everything is computed on the text alone. -/

namespace ScopeLint.Path

/-- The components between the slashes, empty ones included. -/
def split (path : String) : List String := path.splitOn "/"

def isAbsolute (path : String) : Bool := path.startsWith "/"

/-- A path below a directory. An absolute path replaces what stands before it, and a directory
that ends in a slash takes no further one. -/
def join (directory name : String) : String :=
  if isAbsolute name then name
  else if directory.isEmpty ∨ directory.endsWith "/" then directory ++ name
  else directory ++ "/" ++ name

/-- What stands before the last slash, without the slashes at its end unless it has nothing
else. -/
def dirname (path : String) : String :=
  let cs := path.toList
  let head := (cs.reverse.dropWhile (· != '/')).reverse
  if head.all (· == '/') then String.ofList head
  else String.ofList (head.reverse.dropWhile (· == '/')).reverse

/-- One component more in a path that is kept in reverse: points stay where they are, and two
points take a component back, if there is one to take back or a root to stop at. -/
def push (rooted : Bool) (done : List String) (component : String) : List String :=
  if component = "" ∨ component = "." then done
  else if component = ".." then
    match done with
    | [] => if rooted then [] else [".."]
    | last :: before => if last = ".." then ".." :: done else before
  else component :: done

/-- The components of a path without points, empty components and steps back. -/
def components (rooted : Bool) (path : String) : List String :=
  ((split path).foldl (push rooted) []).reverse

/-- The shortest spelling of a path. Exactly two slashes at the front stay. -/
def normalize (path : String) : String :=
  let rooted := isAbsolute path
  let front :=
    if path.startsWith "//" ∧ ¬ path.startsWith "///" then "//" else if rooted then "/" else ""
  let text := front ++ "/".intercalate (components rooted path)
  if text.isEmpty then "." else text

/-- The components from the root of the file system, for a working directory `here`. -/
def absolute (here : List String) (path : String) : List String :=
  if isAbsolute path then components true path
  else components true ("/".intercalate (here ++ [path]))

/-- What is left of two lists after their common beginning. -/
def afterCommon : List String → List String → List String × List String
  | a :: as, b :: bs => if a = b then afterCommon as bs else (a :: as, b :: bs)
  | as, bs => (as, bs)

/-- The way from the directory `base` to `path`. -/
def relative (here : List String) (path base : String) : String :=
  let (up, down) := afterCommon (absolute here base) (absolute here path)
  let way := up.map (fun _ => "..") ++ down
  if way.isEmpty then "." else "/".intercalate way

end ScopeLint.Path
