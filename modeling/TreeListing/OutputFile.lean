import TreeListing.Listing

/-!
The file that a listing is written to: where it is, and what is in it afterwards.
-/
namespace TreeListing.OutputFile

def usualName (o : Options) : Path := ⟨"filelist" ++ o.extension⟩

/-- An absolute path stays as it is; a relative one starts from the first folder listed or from the
working folder. In a folder the file has its usual name. -/
def resolve (d : Disk) (o : Options) (requested? : Option Path) (firstFolder : Path) :
    Except SystemError Path := do
  let requested := requested?.getD (usualName o)
  let path ←
    if requested.isAbsolute then pure requested
    else match (if o.relToCwd then requested else firstFolder.join requested).absolute? d.cwd with
      | some path => pure path
      | none => throw .invalidInput
  return if d.isFolder path then path.join (usualName o) else path

/-- Writes listings into the file that a path leads to. After a failure the bytes that still wait are
written once more, and it is not asked what becomes of them. -/
def write (v : Volume) (l : Lister) (place : List String) (folders : List Path) :
    Except ListError Nat × Volume :=
  let (result, s) := Listing.write Medium.output l folders { volume := v, place }
  (result, s.settle.2.volume)

end TreeListing.OutputFile
