import ModelScript.CommandLine.Run

/-!
# Command line

Runs the request of a command line on the files of the machine.  What the request looks at is read
into a file tree first, and the files that the run leaves behind are written last.
-/

namespace ModelScript.CommandLine

/-- What a command line can ask for. -/
def usage : String :=
  "usage: zolang [-h] [--verbose] build [-h] [-c CONFIG]\n"
    ++ "       zolang [-h] [--verbose] parse [-h] [-s] [--indent INDENT] source\n"

/-- The place of some names on the machine. -/
def machineEntry (names : List String) : IO.FS.DirEntry := ⟨"/", "/".intercalate names⟩

/-- Reads the entry under some names. -/
def loadEntry (files : FileTree) (names : List String) : IO FileTree := do
  let place := (machineEntry names).path
  if ← place.isDir then return files.insertDirectory names
  try
    return files.insert names (.file (← IO.FS.readBinFile place).data.toList)
  catch _ => return files

/-- Reads the entry under some names and all that is below it. -/
partial def loadBelow (files : FileTree) (names : List String) : IO FileTree := do
  let files ← loadEntry files names
  let place := (machineEntry names).path
  if ← place.isDir then
    try
      (← place.readDir).toList.foldlM (fun files entry =>
        loadBelow files (names ++ [entry.fileName])) files
    catch _ => return files
  else return files

/-- Reads what a path leads to and the directories that it passes through. -/
def loadPath (files : FileTree) (p : Path) : IO FileTree := do
  let steps := (List.range p.parts.length).map fun n => { p with parts := p.parts.take n }
  let files ← steps.foldlM (fun files step =>
    match files.locate step with
    | .ok names => loadEntry files names
    | .error _ => return files) files
  match files.locate p with
  | .ok names => loadBelow files names
  | .error _ => return files

/-- Reads what a request looks at: first its configuration, then what that leads to. -/
def loadFiles (r : Request) : IO FileTree := do
  let here := (← IO.currentDir).components.filter (· ≠ "")
  let files ← (r.paths (.bare here)).foldlM loadPath (.bare here)
  (r.paths files).foldlM loadPath files

/-- Writes the files that a run has changed. -/
def writeFiles (before after : FileTree) : IO Unit :=
  (before.changed after).forM fun (names, bytes) => do
    IO.FS.createDirAll (machineEntry names.dropLast).path
    IO.FS.writeBinFile (machineEntry names).path ⟨bytes.toArray⟩

/-- Runs a request on the machine and gives its exit status. -/
def perform (r : Request) : IO UInt32 := do
  let files ← loadFiles r
  let outcome := r.run files
  IO.eprint (outcome.told r.verbose)
  writeFiles files outcome.files
  IO.print outcome.printed
  match outcome.ending with
  | .ok status => return status.toUInt32
  | .error abort =>
    IO.eprintln abort.message
    return 1

end ModelScript.CommandLine

open ModelScript.CommandLine in
def main (words : List String) : IO UInt32 := do
  match Request.ofWords words with
  | .ok request => perform request
  | .error .help =>
    IO.print usage
    return 0
  | .error .misuse =>
    IO.eprint usage
    return 2
