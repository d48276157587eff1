import Packfile.Checked
import Packfile.Codec.Content
import Packfile.Entry

/-!
# Edited entries

An archive is written from a list of edited entries: entries of the archive that is open, under
their own or other names, and new ones. Each says where its content comes from.

## Main definitions

* `EditedEntry`
* `EditedEntry.contentBytes` — the content, read from the open archive if need be
-/

namespace Packfile

/-- Where the content of an edited entry comes from. -/
inductive EntryContent where
  /-- From the open archive, where the entry says. -/
  | kept
  /-- From these bytes. -/
  | replaced (bytes : Bytes)
  deriving DecidableEq, Repr

/-- An entry of an archive to be written. -/
structure EditedEntry where
  /-- What the entry is called, and what is known of it. -/
  entry : Entry
  /-- Where its content comes from. -/
  content : EntryContent
  deriving DecidableEq, Repr

namespace EditedEntry

/-- An entry that keeps its content. -/
def keep (entry : Entry) : EditedEntry := ⟨entry, .kept⟩

/-- An entry with new content. -/
def replace (entry : Entry) (bytes : Bytes) : EditedEntry := ⟨entry, .replaced bytes⟩

/-- The name that the entry is written under. -/
def name (e : EditedEntry) : Except Error String := e.entry.writtenName

/-- The content. Only content in the archive that is read can be taken from it. -/
def contentBytes (e : EditedEntry) : Reader Bytes :=
  match e.content with
  | .replaced bytes => return bytes
  | .kept => do
    if !e.entry.source.isPrimary then throw (.odd .entryInOtherPart)
    Reader.checkRange "entry" e.entry.offset e.entry.stored
    Reader.seek e.entry.offset
    Reader.content e.entry.stored e.entry.decoded e.entry.codec

end EditedEntry

end Packfile
