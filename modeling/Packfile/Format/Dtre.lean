import Packfile.Format
import Packfile.Walk.Tree

/-!
# DTRE archives

A tree of folders. Behind the magic `DTRE` comes the offset of the root node, 4 bytes. A node is

| Field     | Size         |                                        |
|-----------|--------------|----------------------------------------|
| kind      | 1            | 0 for a file, 1 for a folder           |
| name size | 1            |                                        |
| name      | name size    | without a zero at the end              |
| of a file | 4 and 4      | where its data start, how long they are|
| of a folder | 4          | where its table of nodes is            |

and a table of nodes is their number, 4 bytes, with the nodes behind it. The root node is a folder,
and its name is the first part of every name.

## Main definitions

* `Dtre.readNode`, `Dtre.readFolder`, `Dtre.decode`
* `Dtre.format`
-/

namespace Packfile.Dtre

/-- The bytes at the start of an archive. -/
def magic : Bytes := [0x44, 0x54, 0x52, 0x45]

/-- The kind of a file node. -/
def fileKind : Nat := 0

/-- The kind of a folder node. -/
def folderKind : Nat := 1

/-- The size of the smallest node, a folder without a name. -/
def minNodeSize : Nat := 6

/-- How many levels of folders there may be below the root. -/
def maxDepth : Nat := 64

/-- The usual extensions. -/
def extensions : List String := ["dtre", "dtr"]

/-- Rates a stream: magic, extension, and a root that is there and is a folder. -/
def rate (source : Location) : Reader ScoreCard := do
  let card := (ScoreCard.blank.magic (← Reader.leadingBytes 4) magic).extension source extensions
  let root ← Reader.u32
  let fits := (← Checked.sum root minNodeSize) ≤ (← Reader.length)
  let card := card.sensible fits
  if !fits then return card
  Reader.seek root
  return card.sensible ((← Reader.u8) == folderKind)

/-- Reads a node. The data of a file have to lie in the stream. -/
def readNode (source : Location) : Reader TreeNode := do
  let kind ← Reader.u8
  let nameSize ← Reader.u8
  let name ← Reader.fixedString nameSize
  if kind = fileKind then
    let offset ← Reader.u32
    let length ← Reader.u32
    Reader.checkRange "entry" offset length
    return .file name { source, offset, stored := length }
  else if kind = folderKind then
    return .folder name (← Reader.u32)
  else throw (.odd (.nodeKind kind))

/-- Reads `count` nodes. -/
def readNodes (source : Location) : Nat → Array TreeNode → Reader (Array TreeNode)
  | 0, found => return found
  | count + 1, found => do
    let node ← readNode source
    readNodes source count (found.push node)

/-- Reads the nodes of the folder whose table is at an offset. -/
def readFolder (source : Location) (offset : Nat) : Decode (List TreeNode) := do
  Reader.seek offset
  let declared ← Reader.u32
  let count ← Decode.checkCount declared minNodeSize (← Reader.remaining)
  let nodes ← readNodes source count.value #[]
  return nodes.toList

/-- Reads a directory. -/
def decode (source : Location) : Decode (List Entry) := do
  Reader.skip magic.length
  let root ← Reader.u32
  Reader.checkRange "root node" root minNodeSize
  Reader.seek root
  match ← readNode source with
  | .file _ _ => throw (.odd .rootNotFolder)
  | .folder name offset => Decode.walkTree name offset maxDepth (readFolder source)

/-- DTRE archives. -/
def format : Format where
  id := "dtre"
  description := "DTRE folder tree"
  extensions := extensions
  rate := rate
  decode := decode

end Packfile.Dtre
