import TreeListing.CommandLine
import TreeListing.Comparison.Report
import TreeListing.Comparison.Source
import TreeListing.OutputFile

/-!
Carrying out a command on a volume.
-/
namespace TreeListing

inductive RunError where
  | config (cause : ConfigError)
  | list (cause : ListError)
  | compare (cause : CompareError)
  | output (path : Path) (cause : SystemError)
deriving DecidableEq

def RunError.message (d : Disk) : RunError → String
  | config _ => "Critical failure encountered while loading the options"
  | list _ => "Critical failure encountered while listing"
  | compare _ => "Critical failure encountered while comparing"
  | output path _ => "Failed to open the output file " ++ d.display path

structure Run where
  volume : Volume
  printed : Array UInt8 := #[]
  warnings : List Warning := []
  failure? : Option RunError := none

namespace Run

def listToStdout (v : Volume) (l : Lister) (folders : List Path) : Run :=
  match Listing.write Medium.memory l folders { source := v.disk } with
  | (.ok _, s) => { volume := v, printed := s.written }
  | (.error e, s) => { volume := v, printed := s.written, failure? := some (.list e) }

/-- Lists folders into a file. The file is only opened when everything else is ready. -/
def listToFile (v : Volume) (l : Lister) (folders : List Path) (requested? : Option Path) : Run :=
  match OutputFile.resolve v.disk l.options requested? (folders.headD ⟨"."⟩) with
  | .error e => { volume := v, failure? := some (.output (requested?.getD .empty) e) }
  | .ok path =>
    match v.openOutput path l.options.append with
    | .error e => { volume := v, failure? := some (.output path e) }
    | .ok (place, v) =>
      match OutputFile.write v l place folders with
      | (.ok _, v) => { volume := v }
      | (.error e, v) => { volume := v, failure? := some (.list e) }

def list (v : Volume) (o : Options) (folders : List Path) (output : OutputTarget) : Run :=
  match Lister.compile o .core with
  | .error e => { volume := v, failure? := some (.list e) }
  | .ok l =>
    match output with
    | .stdout => listToStdout v l folders
    | .file requested? => listToFile v l folders requested?

def printLine (r : Run) (line : String) : Run :=
  { r with printed := r.printed ++ Text.encode (line ++ "\n") }

def report (hideMatches color : Bool) (r : Run) : List Comparison.Turn → Run
  | [] => r
  | turn :: rest =>
    let r := { r with warnings := r.warnings ++ turn.warnings }
    match turn.result? with
    | none => report hideMatches color r rest
    | some (.error e) => { r with failure? := some (.compare (.side e)) }
    | some (.ok entry) =>
      if entry.diff = .kept ∧ hideMatches then report hideMatches color r rest
      else
        let line := Comparison.line color entry.diff entry.kind entry.path
        report hideMatches color (r.printLine line) rest

/-- Compares two places; `color` tells that the output is colored when it is asked for. -/
def compare (v : Volume) (o : Options) (old new : Path)
    (skipChildren namesOnly hideMatches color : Bool) : Run :=
  match Lister.compile o .core with
  | .error e => { volume := v, failure? := some (.list e) }
  | .ok l =>
    match Comparison.compare l v.disk old new skipChildren namesOnly with
    | .error e => { volume := v, failure? := some (.compare e) }
    | .ok turns => report hideMatches color { volume := v } turns

/-- Carries out a command line; `colors` tells whether the standard output can show colors. -/
def ofInvocation (v : Volume) (colors : Bool) (i : Invocation) : Run :=
  match i.options v.disk with
  | .error e => { volume := v, failure? := some (.config e) }
  | .ok o =>
    match i.action with
    | .list folders output => list v o folders output
    | .compare old new skipChildren namesOnly hideMatches color =>
      compare v o old new skipChildren namesOnly hideMatches (color && colors)
    | .properties => Registry.core.names.foldl printLine { volume := v }

end Run

end TreeListing
