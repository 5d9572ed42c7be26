import Std.Data.HashSet
import TreeListing.Run

/-!
The program on a real disk. All that a run may look at is copied into a volume, the run is carried
out on the volume, and the file that it wrote is written to the disk.
-/
namespace TreeListing.Main

def textOf (place : List String) : String := (Volume.pathOf place).text

/-- Reads what is at a place that no link leads through; the content of a file only if it is
wanted. -/
def readEntry (wanted : Bool) (place : List String) : IO Volume.Entry := do
  let real ← IO.FS.realPath (textOf place)
  let found ← real.metadata
  let modified : Instant := ⟨found.modified.sec, found.modified.nsec.toNat⟩
  match found.type with
  | .dir => return .folder (some modified)
  | .file =>
    let content ← if wanted then IO.FS.readBinFile real else pure .empty
    return .file content.toList (some modified)
  | _ => return .file [] (some modified)

/-- Copies the entry at a place and the folders above it. -/
partial def copyPlace (wanted : Bool) (v : Volume) (place : List String) : IO Volume := do
  if (v.entry? place).isSome then return v
  let v ← copyPlace false v place.dropLast
  return v.put place (← readEntry wanted place)

/-- Copies what lies on the way of `todo` from the folder `here`, links included; the place that the
way leads to, if there is one. -/
partial def copyWay (wanted : Bool) (v : Volume) (here : List String) :
    List String → IO (Volume × Option (List String))
  | [] => return (v, some here)
  | "." :: rest => copyWay wanted v here rest
  | ".." :: rest => copyWay wanted v here.dropLast rest
  | name :: rest => do
    let place := here ++ [name]
    match ← (IO.FS.realPath (textOf place)).toBaseIO with
    | .ok real =>
      let target := Volume.segments ⟨real.toString⟩
      let v ← copyPlace wanted v target
      let v := if target = place then v else v.put place (.link (Volume.pathOf target))
      copyWay wanted v target rest
    | .error _ =>
      let entry : IO.FS.DirEntry := ⟨textOf here, name⟩
      match ← entry.path.symlinkMetadata.toBaseIO with
      | .ok _ => return (v.put place (.link .empty), none)
      | .error _ => return (v, none)

/-- Copies what the paths lead to, with the content of files, and gives the places. -/
def copyPaths (v : Volume) (paths : List Path) : IO (Volume × List (List String)) :=
  paths.foldlM (fun (v, places) p => do
    let start := if p.isAbsolute then [] else v.cwd
    let (v, place?) ← copyWay true v start (Volume.segments p)
    return (v, places ++ place?.toList)) (v, [])

def copyEntries (wanted : Bool) (v : Volume) (folder : List String) :
    IO (Volume × List (List String)) := do
  match ← ((IO.FS.realPath (textOf folder)) >>= (·.readDir)).toBaseIO with
  | .error _ => return (v, [])
  | .ok entries => entries.toList.foldlM (fun (v, places) entry => do
      let (v, place?) ← copyWay wanted v folder [entry.fileName]
      return (v, places ++ place?.toList)) (v, [])

/-- Copies the trees in a queue of places with their depths, as far as the options let a listing go.
A folder that several ways lead to is met first at its smallest depth. -/
partial def copyTrees (wanted : Bool) (o : Options) (seen : Std.HashSet (List String)) (v : Volume) :
    List (List String × Nat) → IO Volume
  | [] => return v
  | (place, depth) :: rest => do
    match v.entry? place with
    | some (.folder _) =>
      if seen.contains place || o.limits depth then copyTrees wanted o seen v rest
      else
        let (v, places) ← copyEntries wanted v place
        copyTrees wanted o (seen.insert place) v (rest ++ places.map (·, depth + 1))
    | _ => copyTrees wanted o seen v rest

def readsContent (l : Lister) : Bool :=
  Kind.all.any fun kind => (l.template? kind).any fun t => t.properties.any fun (_, property) =>
    property = .size || property = .hash

def outputPath? (d : Disk) (o : Options) : Action → Option Path
  | .list folders (.file requested?) =>
    (OutputFile.resolve d o requested? (folders.headD ⟨"."⟩)).toOption
  | _ => none

def sources : Action → List Path
  | .list folders _ => folders
  | .compare old new _ _ _ _ => [old, new]
  | .properties => []

/-- Copies what a run with these options may look at. -/
def copyAll (v : Volume) (o : Options) (action : Action) : IO Volume := do
  let (v, places) ← copyPaths v (sources action)
  let (v, _) ← copyPaths v (outputPath? v.disk o action).toList
  let (v, _) ← copyPaths v (outputPath? v.disk o action).toList
  match Lister.compile o .core with
  | .error _ => return v
  | .ok l => copyTrees (readsContent l) o {} v (places.map (·, 0))

def writeBack (before after : Volume) (path : Path) : IO Unit := do
  match after.find path with
  | .ok (place, .file content modified?) =>
    if before.entry? place ≠ some (.file content modified?) then
      IO.FS.writeBinFile (textOf place) ⟨content.toArray⟩
  | _ => return

/-- Why a run failed, the nearest reason first. -/
def reasons (d : Disk) : RunError → List String
  | .config e => [e.message d]
  | .list e => e.message d :: listReasons e
  | .compare (.side e) => (CompareError.side e).message d :: e.message d :: listReasons e
  | .compare e => [e.message d]
  | .output _ _ => []
where
  listReasons : ListError → List String
    | .property e => [e.message d]
    | .template _ e => [e.message]
    | _ => []

def showFailure (d : Disk) (e : RunError) : IO Unit := do
  IO.eprintln ("Error: " ++ e.message d)
  for reason in reasons d e do
    IO.eprintln ("  caused by: " ++ reason)

/-- Carries out a command line on the disk. The system does not tell when an entry was changed, so
the beginning of time stands for that moment: it is never later than the time of the
modification. -/
def perform (i : Invocation) : IO UInt32 := do
  let cwd := Volume.segments ⟨(← IO.currentDir).toString⟩
  let v : Volume := { cwd, entries := [], now := ⟨0, 0⟩ }
  let v ← copyPlace false v v.cwd
  let (v, _) ← copyPaths v i.config?.toList
  let options? := (i.options v.disk).toOption
  let v ← match options? with
    | some o => copyAll v o i.action
    | none => pure v
  let stdout ← IO.getStdout
  let r := Run.ofInvocation v (← stdout.isTty) i
  if i.logLevel ≠ .error ∧ i.logLevel ≠ .silent then
    for w in r.warnings do
      IO.eprintln (" WARN " ++ w.message)
  stdout.write ⟨r.printed⟩
  stdout.flush
  let path? := options?.bind fun o => outputPath? v.disk o i.action
  let failure? ← match path? with
    | none => pure r.failure?
    | some path =>
      match ← (writeBack v r.volume path).toBaseIO with
      | .ok () => pure r.failure?
      | .error _ => pure (some (.output path .other))
  match failure? with
  | none => return 0
  | some e =>
    showFailure r.volume.disk e
    return 1

def help : String :=
  "\n".intercalate (Invocation.program.commands.filterMap fun name =>
    (Invocation.command? name).map fun command =>
      " ".intercalate (name :: command.positions.map (·.name)
        ++ command.flags.flatMap (·.long.map ("--" ++ ·))))

def showUsage : UsageError → IO UInt32
  | .displayHelp => do
    IO.println help
    return 0
  | .displayVersion => do
    IO.println "0.1.0"
    return 0
  | _ => do
    IO.eprintln ("Error: the command line is not understood\n" ++ help)
    return 2

end TreeListing.Main

def main (words : List String) : IO UInt32 :=
  match TreeListing.Invocation.ofWords words with
  | .ok i => TreeListing.Main.perform i
  | .error e => TreeListing.Main.showUsage e
