import Packfile.Codec.Content
import Packfile.Entry
import Packfile.FileTree

/-!
# Archives

An `Archive` is a decoded directory with the stream it came from. Contents are read on demand, from
that stream or from the part files that entries refer to. Reading moves the stream and nothing
else, and every reading starts by going to its own place, so the order of readings is of no
consequence.

## Main definitions

* `Archive`, `Archive.indexOf?`
* `Archive.openEntry`, `readEntry`, `openNamed`
-/

namespace Packfile

/-- A decoded directory and its stream. -/
structure Archive where
  /-- The identifier of the format. -/
  format : String
  /-- The stream of the archive that was opened. -/
  stream : Stream
  /-- The entries, in the order of the listing. -/
  entries : List Entry
  deriving Repr

namespace Stream

/-- A stream over a file. -/
def ofFile (files : FileTree) (path : String) : Except Error Stream :=
  match files.read path with
  | .error problem => .error (.resource path problem)
  | .ok bytes => .ok (ofBytes bytes)

end Stream

namespace ContentReader

/-- Reads of the given sizes, up to the first that fails. -/
def readSizes (r : ContentReader) : List Nat → List (Except Error Bytes) × ContentReader
  | [] => ([], r)
  | size :: sizes =>
    match r.read size with
    | (.error e, r) => ([.error e], r)
    | (.ok found, r) =>
      let (results, r) := r.readSizes sizes
      (.ok found :: results, r)

end ContentReader

namespace Reader

/-- The content of an entry whose bytes are in the stream. -/
def openHere (e : Entry) : Reader ContentReader := do
  checkRange "entry" e.offset e.stored
  seek e.offset
  fun s =>
    match ContentReader.make (Feed.ofStream s e.stored) e.decoded e.codec with
    | .error e => .error e s
    | .ok r => .ok r s

end Reader

namespace Archive

/-- The number of entries. -/
def size (a : Archive) : Nat := a.entries.length

/-- The names of the entries that have one. -/
def names (a : Archive) : List String := a.entries.filterMap Entry.name

/-- The index of the first entry of a name. -/
def indexOf? (a : Archive) (name : String) : Option Nat :=
  a.entries.findIdx? fun e => e.name == some name

/-- The size of all contents together. -/
def contentSize (a : Archive) : Nat := a.entries.foldl (fun size e => size + e.decoded) 0

/-- Runs a reader over the stream of an archive. -/
def run (a : Archive) (body : Reader α) : Except Error α × Archive :=
  let (result, stream) := body.outcome a.stream
  (result, { a with stream })

/-- The content of an entry of another part. -/
def openPart (files : FileTree) (e : Entry) : Except Error ContentReader :=
  match e.source.path with
  | none => .error (.odd (.partWithoutPath e.source.part))
  | some path =>
    match Stream.ofFile files path with
    | .error e => .error e
    | .ok part =>
      match Reader.openHere e part with
      | .ok r _ => .ok r
      | .error e _ => .error e

/-- Opens the content of an entry. -/
def openContent (a : Archive) (files : FileTree) (e : Entry) :
    Except Error ContentReader × Archive :=
  if e.source.isPrimary then a.run (Reader.openHere e) else (openPart files e, a)

/-- Opens the entry at an index. -/
def openEntry (a : Archive) (files : FileTree) (index : Nat) :
    Except Error (Entry × ContentReader) × Archive :=
  match a.entries[index]? with
  | none => (.error (.noEntryAt index), a)
  | some e =>
    match a.openContent files e with
    | (.error error, a) => (.error error, a)
    | (.ok r, a) => (.ok (e, r), a)

/-- Opens the first entry of a name. -/
def openNamed (a : Archive) (files : FileTree) (name : String) :
    Except Error (Entry × ContentReader) × Archive :=
  match a.indexOf? name with
  | none => (.error (.noEntryNamed name), a)
  | some index => a.openEntry files index

/-- The archive after `taken` bytes of an entry's content have been read. -/
def afterReading (a : Archive) (e : Entry) (taken : Nat) : Archive :=
  if e.source.isPrimary then
    let drawn := Reader.drawn e.codec taken (Feed.ofStream a.stream e.stored)
    { a with stream := a.stream.advance drawn }
  else a

/-- The content of the entry at an index. -/
def readEntry (a : Archive) (files : FileTree) (index : Nat) : Except Error Bytes × Archive :=
  match a.openEntry files index with
  | (.error error, a) => (.error error, a)
  | (.ok (e, r), a) => (r.readAll, a.afterReading e e.decoded)

/-- The contents of entries in turn. -/
def readEach (a : Archive) (files : FileTree) :
    (indices : List Nat) → List (Except Error Bytes) × Archive
  | [] => ([], a)
  | index :: rest =>
    let (content, a) := a.readEntry files index
    let (contents, a) := a.readEach files rest
    (content :: contents, a)

/-- The contents of all entries. -/
def readAll (a : Archive) (files : FileTree) : List (Except Error Bytes) × Archive :=
  a.readEach files (List.range a.size)

end Archive

end Packfile
