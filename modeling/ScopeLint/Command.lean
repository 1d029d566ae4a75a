import ScopeLint.Scope.Report
import ScopeLint.Tree.Outline
import ScopeLint.Usage.Global
import ScopeLint.Usage.Local
import ScopeLint.Usage.WebApp

/-! The commands of the program. The first argument is the command; of the rest, what starts with
two dashes is an option, and all else is a root of the project. -/

namespace ScopeLint.Command

/-! ### Options -/

/-- An option: its name, and its value if it has one. -/
abbrev CommandOption := String × Option String

def isOption (arg : String) : Bool := arg.startsWith "--"

/-- Reads an option. The name is made of word characters and dashes; after an equals sign the value
goes to the end of the line, if it is not empty. -/
def option? (arg : String) : Option CommandOption :=
  let isNameChar (c : Char) : Bool := Text.isWord c || c == '-'
  let rest := arg.toList.drop 2
  let name := rest.takeWhile isNameChar
  if name.isEmpty then none
  else
    let value := match rest.dropWhile isNameChar with
      | '=' :: value => value.takeWhile (· != '\n')
      | _ => []
    some (String.ofList name, if value.isEmpty then none else some (String.ofList value))

/-- Reads all options; the fault tells the index of the first that is none. -/
def readOptions : Nat → List String → Except Fault (List CommandOption)
  | _, [] => .ok []
  | i, arg :: args =>
    match option? arg with
    | none => .error (.badOption i)
    | some o => do return o :: (← readOptions (i + 1) args)

/-- The value of an option. The last one of a name counts. -/
def value? (options : List CommandOption) (name : String) : Option String :=
  (options.reverse.lookup name).join

/-! ### Commands -/

/-- How a command ended: what it printed, the fault that stopped it, and the names that a search for
unused names has found used. -/
structure Outcome where
  lines : List String
  fault : Option Fault
  used : Option Used

namespace Outcome

def ofFault (fault : Fault) : Outcome := ⟨[], some fault, none⟩

/-- The outcome of a run, and the state it leaves. -/
def ofRun (result : Except Fault Unit × Session) (used : Option Used) : Outcome :=
  match result with
  | (.ok (), s) => ⟨s.lines, none, used⟩
  | (.error fault, s) => ⟨s.lines, some fault, used⟩

end Outcome

/-- Marks what is used in a project: by its files, and by a web framework if there is one. -/
def markUsed (fs : FileSet) (framework : Option WebApp.Options) : Run Unit := do
  Usage.markAll fs
  framework.forM (WebApp.markAll fs)

/-- Reports what is unused in a whole project. -/
def globalUsage (fs : FileSet) (framework : Option WebApp.Options) : Outcome :=
  match (markUsed fs framework).run Session.start with
  | (.error fault, s) => ⟨s.lines, some fault, none⟩
  | (.ok (), s) => Outcome.ofRun ((Usage.reportUnused fs).run s) (some s.used)

/-- Prints the scopes of the only file. -/
def showScopes (fs : FileSet) : Run Unit := do
  match fs.files with
  | [(_, file)] =>
    let forest ← Run.lift file.scopes
    Run.print (← Run.lift (forest.report 0 ""))
  | _ => throw .violated

/-- Runs a command on the files of some roots. -/
def execute (disk : Disk) (command : String) (options : List CommandOption) (roots : List String) :
    Except Fault Outcome := do
  if (options.lookup "ipdb").isSome then throw (.missingModule "ipdb")
  let fs ← FileSet.collect disk
    ⟨value? options "base", value? options "ignore", value? options "entry-points"⟩ roots
  let plain (r : Run Unit) : Outcome := Outcome.ofRun (r.run Session.start) none
  return match command with
    | "global" => globalUsage fs (some ⟨value? options "settings", value? options "urlconf"⟩)
    | "local" => plain (Usage.checkLocal fs)
    | "scope" => plain (showScopes fs)
    | other => plain (Run.print ("Unknown command " ++ other))

/-- Runs the program with its arguments. -/
def run (disk : Disk) (args : List String) : Outcome :=
  match args with
  | [] => .ofFault .noElement
  | command :: rest =>
    let outcome := do
      let options ← readOptions 0 (rest.filter isOption)
      execute disk command options (rest.filter fun a => !isOption a)
    match outcome with
    | .ok o => o
    | .error fault => .ofFault fault

/-! ### Outlines of files -/

def rule : String := String.ofList (List.replicate 50 '=')

/-- Prints the outline of a file under a heading. -/
def showOutline (disk : Disk) (filename : String) : Run Unit := do
  Run.print rule
  Run.print ("AST tree for " ++ filename)
  Run.print rule
  let tree ← Run.lift (disk.read filename)
  Run.print (← Run.lift (tree.outline ⟨true, true, "  "⟩))
  Run.print ""

/-- Prints the outlines of some files. -/
def outlines (disk : Disk) (filenames : List String) : Outcome :=
  Outcome.ofRun ((filenames.forM (showOutline disk)).run Session.start) none

end ScopeLint.Command
