import TreeListing.Disk
import TreeListing.Text.Utf8
import TreeListing.Volume

/-!
Where a listing is written to. While it is written, the folders are read from the disk as it is at
that moment, so a medium also tells what the disk has become.
-/
namespace TreeListing

structure Medium (σ : Type) where
  disk : σ → Disk
  write : List UInt8 → σ → Except SystemError Unit × σ
  flush : σ → Except SystemError Unit × σ

namespace Medium

/-- Bytes that are kept apart from the disk, which stays as it is. -/
structure Memory where
  source : Disk
  written : Array UInt8 := #[]

def memory : Medium Memory where
  disk s := s.source
  write bytes s := (.ok (), { s with written := s.written ++ bytes })
  flush s := (.ok (), s)

/-- A memory that takes only so many bytes; of a text that is too long it takes what it can. -/
structure Bounded where
  source : Disk
  room : Nat
  written : Array UInt8 := #[]

def bounded : Medium Bounded where
  disk s := s.source
  write bytes s :=
    let taken := bytes.take s.room
    let s := { s with room := s.room - taken.length, written := s.written ++ taken }
    (if taken.length < bytes.length then .error .storageFull else .ok (), s)
  flush s := (.ok (), s)

/-- A file of a volume, with the bytes that still wait to be written to it. -/
structure Output where
  volume : Volume
  place : List String
  waiting : List UInt8 := []

def bufferSize : Nat := 8192

/-- Writes the bytes that wait. Those that are not taken go on waiting. -/
def Output.settle (s : Output) : Except SystemError Unit × Output :=
  let (result, waiting, volume) := s.volume.writeAt s.place s.waiting
  (result, { s with volume, waiting })

/-- A file is written in large pieces: bytes wait until they would be too many together. -/
def output : Medium Output where
  disk s := s.volume.disk
  write bytes s :=
    if s.waiting.length + bytes.length < bufferSize then
      (.ok (), { s with waiting := s.waiting ++ bytes })
    else
      match if s.waiting.length + bytes.length ≤ bufferSize then (.ok (), s) else s.settle with
      | (.error e, s) => (.error e, s)
      | (.ok (), s) =>
        if bufferSize ≤ bytes.length then
          let (result, _, volume) := s.volume.writeAt s.place bytes
          (result, { s with volume })
        else (.ok (), { s with waiting := s.waiting ++ bytes })
  flush s := s.settle

end Medium

end TreeListing
