/-!
The 128 bit digest MetroHash with seed zero. Bytes go in one by one; every thirty-two of them are
mixed into four words, and what is left over is mixed in at the end.
-/
namespace TreeListing.MetroHash

def k0 : UInt64 := 0xC83A91E1
def k1 : UInt64 := 0x8648DBDB
def k2 : UInt64 := 0x7BDEC03B
def k3 : UInt64 := 0x2F5870A5

def turn (x n : UInt64) : UInt64 := (x >>> n) ||| (x <<< (64 - n))

structure Mix where
  v0 : UInt64 := (0 - k0) * k3
  v1 : UInt64 := (0 + k1) * k2
  v2 : UInt64 := (0 + k0) * k2
  v3 : UInt64 := (0 - k1) * k3
deriving DecidableEq

/-- The number that bytes stand for, the lowest byte first. -/
def littleEndian (bytes : List UInt8) : UInt64 :=
  bytes.foldr (fun b n => n * 256 + b.toUInt64) 0

def wordAt (bytes : List UInt8) (i : Nat) : UInt64 := littleEndian ((bytes.drop i).take 8)

def Mix.block (m : Mix) (bytes : List UInt8) : Mix :=
  let v0 := turn (m.v0 + wordAt bytes 0 * k0) 29 + m.v2
  let v1 := turn (m.v1 + wordAt bytes 8 * k1) 29 + m.v3
  let v2 := turn (m.v2 + wordAt bytes 16 * k2) 29 + v0
  let v3 := turn (m.v3 + wordAt bytes 24 * k3) 29 + v1
  { v0, v1, v2, v3 }

/-- Ends a digest of one block or more. -/
def Mix.fold (m : Mix) : Mix :=
  let v2 := m.v2 ^^^ turn ((m.v0 + m.v3) * k0 + m.v1) 21 * k1
  let v3 := m.v3 ^^^ turn ((m.v1 + v2) * k1 + m.v0) 21 * k0
  let v0 := m.v0 ^^^ turn ((m.v0 + v2) * k0 + v3) 21 * k1
  let v1 := m.v1 ^^^ turn ((m.v1 + v3) * k1 + v2) 21 * k0
  { v0, v1, v2, v3 }

/-- What has gone in: the mixed blocks, their number, and the bytes after them, the latest first. -/
structure Digest where
  mix : Mix := {}
  blocks : Nat := 0
  tail : List UInt8 := []
deriving DecidableEq

def Digest.push (d : Digest) (b : UInt8) : Digest :=
  let tail := b :: d.tail
  if tail.length = 32 then { mix := d.mix.block tail.reverse, blocks := d.blocks + 1, tail := [] }
  else { d with tail }

/-- Mixes in fewer than thirty-two bytes, in shares of sixteen, eight, four, two and one. -/
def mixTail (m : Mix) (bytes : List UInt8) : UInt64 × UInt64 :=
  let count := bytes.length
  let (v0, v1, bytes) :=
    if 16 ≤ count then
      let v0 := turn (m.v0 + wordAt bytes 0 * k2) 33 * k3
      let v1 := turn (m.v1 + wordAt bytes 8 * k2) 33 * k3
      let v0 := v0 ^^^ turn (v0 * k2 + v1) 45 * k1
      let v1 := v1 ^^^ turn (v1 * k3 + v0) 45 * k0
      (v0, v1, bytes.drop 16)
    else (m.v0, m.v1, bytes)
  let (v0, v1, bytes) :=
    if 8 ≤ count % 16 then
      let v0 := turn (v0 + littleEndian (bytes.take 8) * k2) 33 * k3
      (v0 ^^^ turn (v0 * k2 + v1) 27 * k1, v1, bytes.drop 8)
    else (v0, v1, bytes)
  let (v0, v1, bytes) :=
    if 4 ≤ count % 8 then
      let v1 := turn (v1 + littleEndian (bytes.take 4) * k2) 33 * k3
      (v0, v1 ^^^ turn (v1 * k3 + v0) 46 * k0, bytes.drop 4)
    else (v0, v1, bytes)
  let (v0, v1, bytes) :=
    if 2 ≤ count % 4 then
      let v0 := turn (v0 + littleEndian (bytes.take 2) * k2) 33 * k3
      (v0 ^^^ turn (v0 * k2 + v1) 22 * k1, v1, bytes.drop 2)
    else (v0, v1, bytes)
  if count % 2 = 1 then
    let v1 := turn (v1 + littleEndian bytes * k2) 33 * k3
    (v0, v1 ^^^ turn (v1 * k3 + v0) 58 * k0)
  else (v0, v1)

def Digest.finish (d : Digest) : UInt64 × UInt64 :=
  let (v0, v1) := mixTail (if d.blocks = 0 then d.mix else d.mix.fold) d.tail.reverse
  let v0 := v0 + turn (v0 * k0 + v1) 13
  let v1 := v1 + turn (v1 * k1 + v0) 37
  let v0 := v0 + turn (v0 * k2 + v1) 13
  let v1 := v1 + turn (v1 * k3 + v0) 37
  (v0, v1)

def hexWord (w : UInt64) : List Char :=
  let digits := Nat.toDigits 16 w.toNat
  List.replicate (16 - digits.length) '0' ++ digits

def hexDigest (bytes : List UInt8) : String :=
  let (v0, v1) := (bytes.foldl Digest.push {}).finish
  String.ofList (hexWord v0 ++ hexWord v1)

end TreeListing.MetroHash
