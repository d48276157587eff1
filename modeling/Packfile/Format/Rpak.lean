import Packfile.Format
import Packfile.Walk.Offsets
import Packfile.Walk.Records

/-!
# RPAK archives

An enciphered directory in front of the data.

| Offset | Field                                         |
|--------|-----------------------------------------------|
| 0      | magic `RPAK`                                  |
| 4      | version, 4 bytes, always 1                    |
| 8      | number of slots, 4 bytes                      |
| 12     | size of the directory, 4 bytes, 64 per slot   |
| 16     | directory, enciphered with RC4                |

A slot is a name in 48 bytes and four integers: where the data start, their stored size, the size
of the content, and flags. Flag 1 stands for zlib, and flag 2 for an exclusive or that was done
after the compression. A slot without a name is not in use.

## Main definitions

* `Rpak.codecOf` — the codec that flags stand for
* `Rpak.Slot`, `Rpak.decode`, `Rpak.format`
-/

namespace Packfile.Rpak

/-- The bytes at the start of an archive. -/
def magic : Bytes := [0x52, 0x50, 0x41, 0x4B]

/-- The only version. -/
def version : Nat := 1

/-- The size of everything in front of the directory. -/
def headerSize : Nat := 16

/-- The size of a slot. -/
def slotSize : Nat := 64

/-- The size of a slot's name. -/
def nameSize : Nat := 48

/-- The key of the directory. -/
def directoryKey : Bytes :=
  [0x67, 0x61, 0x6D, 0x65, 0x61, 0x72, 0x63, 0x2D, 0x72, 0x70, 0x61, 0x6B]

/-- The key of entries under an exclusive or. -/
def entryKey : Bytes := [0x5A, 0xC3, 0x3C, 0xA5]

/-- The usual extensions. -/
def extensions : List String := ["rpak", "rpk"]

/-- Whether flags stand for compression. -/
def hasZlib (flags : Nat) : Bool := flags.testBit 0

/-- Whether flags stand for an exclusive or. -/
def hasXor (flags : Nat) : Bool := flags.testBit 1

/-- Whether flags have a meaning. -/
def isKnown (flags : Nat) : Bool := flags < 4

/-- The codec that flags stand for. -/
def codecOf (flags : Nat) : Codec :=
  (if hasXor flags then [.xor entryKey] else []) ++ (if hasZlib flags then [.zlib] else [])

/-- Rates a stream: magic, extension, version, and sizes that fit together and into the stream. -/
def rate (source : Location) : Reader ScoreCard := do
  let card := (ScoreCard.blank.magic (← Reader.leadingBytes 4) magic).extension source extensions
  let card := card.sensible ((← Reader.u32) == version)
  let count ← Reader.u32
  let directory ← Reader.u32
  let card := card.sensible (directory == (← Checked.product count slotSize))
  return card.sensible ((← Checked.sum headerSize directory) ≤ (← Reader.length))

/-- A slot of the directory. -/
structure Slot where
  name : String
  offset : Nat
  stored : Nat
  decoded : Nat
  flags : Nat
  deriving DecidableEq, Repr

/-- Reads a slot. -/
def readSlot : Reader Slot := do
  let name ← Reader.fixedString nameSize
  let offset ← Reader.u32
  let stored ← Reader.u32
  let decoded ← Reader.u32
  let flags ← Reader.u32
  return { name, offset, stored, decoded, flags }

/-- The entry of a slot in use. -/
def Slot.toEntry (slot : Slot) (source : Location) : Entry :=
  { source, name := some slot.name, offset := slot.offset, stored := slot.stored,
    decoded := slot.decoded, codec := codecOf slot.flags,
    properties := [("flags", .int slot.flags)] }

/-- What a slot of a stream of `length` bytes means. -/
def Slot.action (slot : Slot) (source : Location) (length : Nat) :
    Except Error (RecordAction Entry) :=
  if slot.name.isEmpty then .ok .skip
  else if !isKnown slot.flags then .error (.odd (.entryFlags slot.flags))
  else if !hasZlib slot.flags && slot.decoded != slot.stored then
    .error (.exceeds "decoded length" slot.decoded slot.stored)
  else if !Reader.inRange length slot.offset slot.stored then
    .error (Reader.rangeError "entry" length slot.offset slot.stored)
  else .ok (.entry (slot.toEntry source))

/-- Reads a directory. -/
def decode (source : Location) : Decode (List Entry) := do
  Reader.skip magic.length
  let found ← Reader.u32
  if found != version then throw (.odd (.rpakVersion found))
  let declared ← Reader.u32
  let size ← Reader.u32
  let count ← Decode.checkCount declared slotSize (← Reader.remaining)
  let expected ← Checked.product count.value slotSize
  if size != expected then throw (.exceeds "directory size" size expected)
  let directory ← Reader.openDirectory headerSize size size [.rc4 directoryKey]
  let length ← Reader.length
  let (entries, _) ← Decode.onStream directory <|
    Decode.readTable count fun _ => do
      let slot ← Decode.ofReader readSlot
      Decode.ofReader (Reader.ofExcept (slot.action source length))
  return entries

/-- RPAK archives. -/
def format : Format where
  id := "rpak"
  description := "RPAK encrypted archive"
  extensions := extensions
  rate := rate
  decode := decode

end Packfile.Rpak
