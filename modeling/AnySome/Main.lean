import AnySome.CommandLine.Usage
import AnySome.Program

/-!
# The command line program

The outer layer: it reads the files that the library asks for, hands them
over, writes new texts back and prints the report. It decides nothing.
-/

namespace AnySome.Main

/-! ## Reading -/

/-- Why the file system refuses a request. -/
def refusal : IO.Error → AccessError
  | .noFileOrDirectory _ _ _ => .notFound
  | e => .refused (toString e)

/-- The contents of the file at `path`. -/
def load (path : String) : IO Contents := do
  try
    return Contents.ofBytes (← IO.FS.readBinFile path).toList
  catch e => return .sealed (refusal e)

/-- What stands at a path, links followed: a file without its contents, a
folder without its entries, or nothing. -/
def peek (path : String) : IO (Option FileTree) := do
  let here ← IO.currentDir
  try
    match (← (here / path).metadata).type with
    | .dir => return some FileTree.empty
    | .file => return some (.file (.text ""))
    | _ => return none
  catch _ => return none

/-- The folder at `path` with everything below it that discovery may look at.
Links are not followed. -/
partial def loadFolder (excluded : List String) (path : String) : IO FileTree := do
  let here ← IO.currentDir
  let mut tree := FileTree.empty
  for entry in ← (here / path).readDir do
    let name := entry.fileName
    let below := Path.join path name
    match (← (here / below).symlinkMetadata).type with
    | .dir =>
      if !Discovery.isPruned excluded name FileTree.empty then
        tree := FileTree.put (← loadFolder excluded below) [name] tree
    | .file =>
      if Path.isSourceName name then
        tree := FileTree.put (.file (← load below)) [name] tree
    | _ => pure ()
  return tree

/-- The project at the root that the options name. -/
def loadProject (options : Options) : IO (Option FileTree) := do
  match ← peek options.root with
  | some (.folder _) => return some (← loadFolder options.excludedFolders options.root)
  | other => return other

/-- The text of the file at `path`. -/
def loadText (path : String) : IO (Except AccessError String) := do
  match ← peek path with
  | none => return .error .notFound
  | some (.folder _) => return .error .isFolder
  | some (.file _) => return (← load path).asText

/-! ## Writing -/

/-- Replaces the text of a file at once: a reader sees the old text or the
new one. -/
def replace (path text : String) : IO Unit := do
  let beside := path ++ ".tmp"
  IO.FS.writeFile beside text
  IO.FS.rename beside path

/-- Writes the new texts of a run, and notes what could not be written. -/
def writeBack (run : Pipeline.Run) : IO Pipeline.Run := do
  let mut after := run
  for (path, text) in run.writes do
    try replace path text
    catch e => after := after.refuse path (refusal e).message
  return after

/-! ## The program -/

/-- The options that the arguments and the configuration file make. -/
def configure (args : Arguments) : IO (Except Program.Failure Options) := do
  let candidate := Path.join args.projectPath Config.fileName
  let isFile := match ← peek candidate with
    | some (.file _) => true
    | _ => false
  match Program.configPath args (fun _ => isFile) with
  | none => return Program.configure args none
  | some path => return Program.configure args (some (path, ← loadText path))

/-- Runs over the project and gives the report. -/
def migrate (options : Options) : IO (Except Program.Failure Report) := do
  let started ← IO.monoNanosNow
  match Program.runProject options none (← loadProject options) with
  | .error e => return .error (.discovery e)
  | .ok run =>
    let run ← writeBack run
    return .ok (Program.timed run.report ((← IO.monoNanosNow) - started))

/-- Says why there is no report. -/
def fail (failure : Program.Failure) : IO UInt32 := do
  IO.eprintln failure.line
  return Program.failureCode.toUInt32

/-- Does what the arguments ask for. -/
def run (args : Arguments) : IO UInt32 := do
  match ← configure args with
  | .error e => fail e
  | .ok options =>
    match ← migrate options with
    | .error e => fail e
    | .ok report =>
      IO.println (report.render (← (← IO.getStdout).isTty))
      return 0

end AnySome.Main

/-- The command line program. -/
def main (words : List String) : IO UInt32 := do
  match AnySome.Arguments.parse words with
  | .ok args => AnySome.Main.run args
  | .error e =>
    let code := AnySome.Program.usageCode e
    if code = 0 then IO.println (AnySome.Usage.complaint e)
    else IO.eprintln ("error: " ++ AnySome.Usage.complaint e)
    return code.toUInt32
