import Packfile.Codec.Content
import Packfile.Digest.Crc32
import Packfile.Stream

/-!
# The parts of a TRE archive

Header and records of TRE archives, as they are stored. All integers are little-endian, whatever
the byte order of the stream that they are read from.

| Offset | Header field                               |
|--------|--------------------------------------------|
| 0      | magic `EERT5000`                           |
| 8      | number of records                          |
| 12     | where the block of records starts          |
| 16     | how the block of records is compressed     |
| 20     | its stored size                            |
| 24     | how the block of names is compressed       |
| 28     | its stored size                            |
| 32     | its size                                   |

The block of names follows the block of records, and a block of MD5 digests follows the names.

| Offset | Record field                               |
|--------|--------------------------------------------|
| 0      | CRC-32/BZIP2 of the name                   |
| 4      | size of the content                        |
| 8      | where the stored data start                |
| 12     | how the data are compressed                |
| 16     | size of the stored data                    |
| 20     | where the name starts in the names         |

## Main definitions

* `Tre.Compression`, `Tre.Header`, `Tre.Record`
* `Reader.treHeader`, `Reader.treRecord` and `Header.bytes`, `Record.bytes`
-/

namespace Packfile

namespace Tre

/-- The bytes at the start of an archive. -/
def magic : Bytes := [0x45, 0x45, 0x52, 0x54, 0x35, 0x30, 0x30, 0x30]

/-- The size of the header. -/
def headerSize : Nat := 36

/-- The size of a record. -/
def recordSize : Nat := 24

/-- The size of a digest. -/
def hashSize : Nat := 16

/-- How a block or an entry is compressed. -/
inductive Compression where
  /-- Not at all. -/
  | none
  /-- As a zlib stream. -/
  | zlib
  deriving DecidableEq, Repr, Inhabited

namespace Compression

/-- The number that stands for a compression. -/
def code : Compression → Nat
  | none => 0
  | zlib => 2

/-- The compression that a number stands for. -/
def ofCode? (n : Nat) : Option Compression :=
  if n = 0 then some .none else if n = 2 then some .zlib else Option.none

/-- What undoes a compression. -/
def codec : Compression → Codec
  | none => []
  | zlib => [.zlib]

/-- The compression that suits entries of a codec. -/
def ofCodec (codec : Codec) : Compression := if codec.isCompressed then zlib else none

/-- Whether there is any compression. -/
def isCompressed : Compression → Bool
  | none => false
  | zlib => true

theorem ofCode?_code (c : Compression) : ofCode? c.code = some c := by
  cases c <;> rfl

end Compression

/-- The header of an archive. -/
structure Header where
  records : Nat := 0
  recordStart : Nat := headerSize
  recordCompression : Compression := .zlib
  recordCompressed : Nat := 0
  nameCompression : Compression := .zlib
  nameCompressed : Nat := 0
  nameUncompressed : Nat := 0
  deriving DecidableEq, Repr, Inhabited

namespace Header

/-- Where the block of names starts. -/
def nameStart (h : Header) : Nat := h.recordStart + h.recordCompressed

/-- Where the block of digests starts. -/
def hashStart (h : Header) : Nat := h.nameStart + h.nameCompressed

/-- Where the block of names starts, as a 64-bit number. -/
def nameOffset (h : Header) : Except Error Nat := Checked.sum h.recordStart h.recordCompressed

/-- Where the block of digests starts, as a 64-bit number. -/
def hashOffset (h : Header) : Except Error Nat := do
  Checked.sum (← h.nameOffset) h.nameCompressed

/-- The stored form of a header. -/
def bytes (h : Header) : Bytes :=
  magic ++ [h.records, h.recordStart, h.recordCompression.code, h.recordCompressed,
    h.nameCompression.code, h.nameCompressed, h.nameUncompressed].flatMap
      (ByteOrder.little.encode 4)

end Header

/-- The record of an entry. -/
structure Record where
  checksum : Nat := 0
  uncompressed : Nat := 0
  offset : Nat := 0
  compression : Compression := .zlib
  compressed : Nat := 0
  nameOffset : Nat := 0
  deriving DecidableEq, Repr, Inhabited

/-- The stored form of a record. -/
def Record.bytes (r : Record) : Bytes :=
  [r.checksum, r.uncompressed, r.offset, r.compression.code, r.compressed, r.nameOffset].flatMap
    (ByteOrder.little.encode 4)

/-- The checksum of a name. -/
def nameChecksum (name : String) : Nat := (Crc32.checksum (Utf8.encode name)).toNat

end Tre

namespace Reader

/-- A little-endian integer of 4 bytes. -/
def little32 : Reader Nat := wordIn .little 4

/-- A compression by its number. -/
def treCompression : Reader Tre.Compression := do
  let start ← offset
  match Tre.Compression.ofCode? (← little32) with
  | some compression => return compression
  | none => throw (.noVariant start)

/-- The header of a TRE archive. -/
def treHeader : Reader Tre.Header := asRecord do
  let start ← offset
  let found ← exactly Tre.magic.length
  if found != Tre.magic then throw (.badMagic start)
  let records ← little32
  let recordStart ← little32
  let recordCompression ← treCompression
  let recordCompressed ← little32
  let nameCompression ← treCompression
  let nameCompressed ← little32
  let nameUncompressed ← little32
  return { records, recordStart, recordCompression, recordCompressed, nameCompression,
           nameCompressed, nameUncompressed }

/-- A record of a TRE archive. -/
def treRecord : Reader Tre.Record := asRecord do
  let checksum ← little32
  let uncompressed ← little32
  let start ← little32
  let compression ← treCompression
  let compressed ← little32
  let nameOffset ← little32
  return { checksum, uncompressed, offset := start, compression, compressed, nameOffset }

end Reader

end Packfile
