import QuerySuite.Command.Run

/-!
# The program

Reads the files that a request is about, and the modules that they import, and prints what the run
gives.
-/

namespace QuerySuite

/-- What stands behind an error of the file system. -/
def ReadFault.ofError : IO.Error → ReadFault
  | .noFileOrDirectory _ _ _ => .notFound
  | .noSuchThing _ _ _ => .notFound
  | .invalidArgument _ code description => ofCode code description
  | .inappropriateType _ code description => ofCode code description
  | .permissionDenied _ code description => ofCode code description
  | .resourceExhausted _ code description => ofCode code description
  | .otherError code description => ofCode code description
  | e => .other (toString e) 5
where
  /-- The fault with a number, which some layers give with a minus. -/
  ofCode (code : UInt32) (description : String) : ReadFault :=
    let number := min code.toNat (0 - code).toNat
    if number = 20 then .notDirectory
    else if number = 21 then .isDirectory
    else if number = 36 then .nameTooLong
    else .other description number

/-- Reads a file as text. -/
def readText (path : String) : IO (Except ReadFault String) := do
  if let some fault := ReadFault.ofPath? path then return .error fault
  try
    match String.fromUTF8? (← IO.FS.readBinFile path) with
    | some text => return .ok text
    | none => return .error .notText
  catch e => return .error (.ofError e)

/-- The files read so far, as a reader. -/
def readerOf (files : List (String × Except ReadFault String)) : Reader := fun path =>
  (files.lookup path).getD (.error .notFound)

/-- Reads the files at some paths. -/
def readAll (verbose : Bool) (paths : List String) :
    IO (List (String × Except ReadFault String)) :=
  paths.mapM fun path => do
    if verbose then IO.eprintln s!"reading {path}"
    return (path, ← readText path)

/-- All that a request has to read: its files, and the modules they import. -/
def gather : Request → IO (List (String × Except ReadFault String))
  | .help _ => return []
  | .run command recovery verbose => do
    let files ← readAll verbose command.files
    let imported := files.flatMap fun (path, found) =>
      match found with
      | .ok source => modulePaths (Request.config recovery) path source
      | .error _ => []
    let modules ← readAll verbose imported.eraseDups
    return files ++ modules

end QuerySuite

open QuerySuite in
/-- Runs the program. -/
def main (args : List String) : IO UInt32 := do
  let files ←
    match Request.ofArguments args with
    | .ok request => gather request
    | .error _ => pure []
  let result := runProgram (readerOf files) args
  IO.print result.output
  for note in result.notes do
    IO.eprintln note.text
  return result.exitCode.toUInt32
