/-!
Text as bytes and back. Reading is strict, or puts the replacement character for every longest run
of bytes that begins no character.
-/
namespace TreeListing.Text

def encode (s : String) : List UInt8 := s.toUTF8.toList

/-- The bytes that may follow a first byte directly, and how many tail bytes the character has. -/
def leadOf (b : UInt8) : Option (Nat × UInt8 × UInt8) :=
  if b < 0x80 then some (0, 0, 0)
  else if 0xC2 ≤ b && b ≤ 0xDF then some (1, 0x80, 0xBF)
  else if b = 0xE0 then some (2, 0xA0, 0xBF)
  else if b = 0xED then some (2, 0x80, 0x9F)
  else if 0xE1 ≤ b && b ≤ 0xEF then some (2, 0x80, 0xBF)
  else if b = 0xF0 then some (3, 0x90, 0xBF)
  else if b = 0xF4 then some (3, 0x80, 0x8F)
  else if 0xF1 ≤ b && b ≤ 0xF3 then some (3, 0x80, 0xBF)
  else none

/-- The valid tail bytes at the front of `rest`, at most `count`. -/
def tailOf : (count : Nat) → (first last : UInt8) → List UInt8 → List UInt8
  | count + 1, first, last, b :: rest =>
    if first ≤ b && b ≤ last then b :: tailOf count 0x80 0xBF rest else []
  | _, _, _, _ => []

/-- The first character and the number of its bytes; `none` in place of a character where the bytes
begin none. -/
def decodeFirst (b : UInt8) (rest : List UInt8) : Option Char × Nat :=
  match leadOf b with
  | none => (none, 1)
  | some (0, _) => (some (Char.ofNat b.toNat), 1)
  | some (count, first, last) =>
    let tail := tailOf count first last rest
    if tail.length < count then (none, 1 + tail.length)
    else
      let lead := b.toNat % Nat.pow 2 (6 - count)
      (some (Char.ofNat (tail.foldl (fun n t => n * 64 + t.toNat % 64) lead)), 1 + count)

/-- The characters of the bytes, `none` for every run that begins no character; `skip` bytes belong
to the character before. -/
def decodeFrom (skip : Nat) : List UInt8 → List (Option Char)
  | [] => []
  | b :: rest =>
    match skip with
    | skip + 1 => decodeFrom skip rest
    | 0 =>
      let (c, used) := decodeFirst b rest
      c :: decodeFrom (used - 1) rest

def decode? (bytes : List UInt8) : Option String :=
  ((decodeFrom 0 bytes).mapM id).map String.ofList

def decodeLossy (bytes : List UInt8) : String :=
  String.ofList ((decodeFrom 0 bytes).map (·.getD '\uFFFD'))

end TreeListing.Text
