import Packfile.Format
import Packfile.Walk.Records
import Packfile.Walk.Tree

/-!
# SPK archives

Archives of several files: `name.spk` is the directory, and the data are in `name.000`, `name.001`
and so on.

| Offset | Field                         |
|--------|-------------------------------|
| 0      | magic `SPK1`                  |
| 4      | number of parts, 2 bytes      |
| 6      | number of folders, 2 bytes    |
| 8      | number of files, 4 bytes      |
| 12     | folders of 44 bytes           |
| behind | files of 20 bytes             |

A folder is a name in 32 bytes, the index of the folder that it lies in, -1 at the top, the index
of its first file and the number of its files. A folder comes behind the one that it lies in.

A file is the hash of its name, the number of its part and flags, 2 bytes each, and then where its
data start, their stored size and the size of the content. Flag 1 stands for zlib. Names come from
the name table of the session; a file without one is called by its hash.

## Main definitions

* `Spk.partPath` — the file of a part
* `Spk.decode`, `Spk.format`
-/

namespace Packfile.Spk

/-- The bytes at the start of an archive. -/
def magic : Bytes := [0x53, 0x50, 0x4B, 0x31]

/-- The size of everything in front of the folders. -/
def headerSize : Nat := 12

/-- The size of a folder. -/
def folderSize : Nat := 44

/-- The size of a file record. -/
def fileSize : Nat := 20

/-- The size of a folder's name. -/
def nameSize : Nat := 32

/-- The usual extension. -/
def extensions : List String := ["spk"]

/-- Whether flags stand for compression. -/
def hasZlib (flags : Nat) : Bool := flags.testBit 0

/-- Whether flags have a meaning. -/
def isKnown (flags : Nat) : Bool := flags < 2

/-- Rates a stream: magic, extension, at least one part, and a size that its tables explain. -/
def rate (source : Location) : Reader ScoreCard := do
  let card := (ScoreCard.blank.magic (← Reader.leadingBytes 4) magic).extension source extensions
  let parts ← Reader.u16
  let folders ← Reader.u16
  let files ← Reader.u32
  let card := card.sensible (0 < parts)
  let folderBytes ← Checked.product folders folderSize
  let fileBytes ← Checked.product files fileSize
  let total ← Checked.sum (← Checked.sum headerSize folderBytes) fileBytes
  return card.sensible (total == (← Reader.length))

/-- A number in at least three decimal digits. -/
def threeDigits (n : Nat) : String :=
  let digits := toString n
  String.ofList (List.replicate (3 - digits.length) '0') ++ digits

/-- The file of the part with a number, next to the directory. -/
def partPath (index : Nat) (directory : String) : String :=
  Path.withExtension directory (threeDigits index)

/-- The parts from a number on, as they are found among the files. The number of a part is kept in 16
bits, in which 0 stands for the directory. -/
def openParts (files : FileTree) (directory : String) :
    (count index : Nat) → Except Error (List Location)
  | 0, _ => .ok []
  | count + 1, index =>
    let path := partPath index directory
    match files.length path with
    | .error problem => .error (.resource path problem)
    | .ok length => do
      let part ← Checked.within Word.max16 (index + 1)
      let rest ← openParts files directory count (index + 1)
      return { part, path := some path, length } :: rest

/-- The signed number that a 32-bit word stands for. -/
def signed32 (n : Nat) : Int := if n < 2147483648 then n else (n : Int) - 4294967296

/-- Reads the folder at an index. -/
def readFolder (index : Nat) : Reader FolderRange := do
  let name ← Reader.fixedString nameSize
  let parent := signed32 (← Reader.u32)
  if parent < -1 then throw (.odd (.folderParent index parent))
  let first ← Reader.u32
  let count ← Reader.u32
  return { name, parent := if parent = -1 then none else some parent.toNat, first, count }

/-- A file record. -/
structure FileRecord where
  hash : Nat
  part : Nat
  flags : Nat
  offset : Nat
  stored : Nat
  decoded : Nat
  deriving DecidableEq, Repr

/-- Reads a file record of an archive with a number of parts. -/
def readFile (parts : Nat) : Reader FileRecord := do
  let hash ← Reader.u32
  let part ← Reader.u16
  let flags ← Reader.u16
  let offset ← Reader.u32
  let stored ← Reader.u32
  let decoded ← Reader.u32
  if parts ≤ part then throw (.exceeds "part number" part parts)
  if !isKnown flags then throw (.odd (.fileFlags flags))
  return { hash, part, flags, offset, stored, decoded }

/-- The name of a file without its folders. -/
def fileName (names : NameTable) (hash : Nat) : String :=
  (names.lookup32? hash).getD (Hex.padded 8 hash ++ ".dat")

/-- The entry of a file under its whole name. -/
def toEntry (parts : List Location) (file : FileRecord) (name : String) : Except Error Entry :=
  match parts[file.part]? with
  | none => .error .overflow
  | some part =>
    if part.length < Word.satAdd file.offset file.stored then do
      throw (.exceeds "entry end" (← Checked.sum file.offset file.stored) part.length)
    else
      let entry : Entry :=
        { source := part, name := some name, offset := file.offset, stored := file.stored,
          properties := [("hash", .int file.hash)] }
      if hasZlib file.flags then .ok (entry.withCodec [.zlib] file.decoded)
      else if file.decoded != file.stored then
        .error (.exceeds "decoded length" file.decoded file.stored)
      else .ok entry

/-- The entries of files under their whole names. -/
def listEntries (parts : List Location) : List (FileRecord × String) → Except Error (List Entry)
  | [] => .ok []
  | (file, name) :: rest => do
    let entry ← toEntry parts file name
    return entry :: (← listEntries parts rest)

/-- The name table, which is asked for only if there is a file to be named. -/
def namesFor (files : List FileRecord) : Decode NameTable :=
  if files.isEmpty then return .empty else Decode.names

/-- Reads a directory. -/
def decode (source : Location) : Decode (List Entry) := do
  let some directory := source.path | throw .notFromFile
  Reader.skip magic.length
  let partCount ← Reader.u16
  let folderCount ← Reader.u16
  let fileCount ← Reader.u32
  let folderCount ← Decode.checkCount folderCount folderSize (← Reader.remaining)
  let folders ← Decode.readTable folderCount fun index =>
    return .entry (← Decode.ofReader (readFolder index))
  let fileCount ← Decode.checkCount fileCount fileSize (← Reader.remaining)
  let files ← Decode.readTable fileCount fun _ =>
    return .entry (← Decode.ofReader (readFile partCount))
  let reachable ← Decode.files
  let parts ← Decode.ofReader (Reader.ofExcept (openParts reachable directory partCount 0))
  let table ← namesFor files
  match FolderRange.applyAll folders (files.map fun file => fileName table file.hash) with
  | (_, some e) => throw e
  | (names, none) => Decode.ofReader (Reader.ofExcept (listEntries parts (files.zip names)))

/-- SPK archives. -/
def format : Format where
  id := "spk"
  description := "SPK spanned archive"
  extensions := extensions
  rate := rate
  decode := decode

end Packfile.Spk
