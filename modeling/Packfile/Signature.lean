import Packfile.Bytes

/-!
# Content signatures

Kinds of content that show themselves in their first bytes. An entry whose archive stores neither a
name nor an extension gets one from here.
-/

namespace Packfile

/-- Bytes at a fixed place, and the extension that they suggest. -/
structure Signature where
  /-- The bytes to be found. -/
  magic : Bytes
  /-- Where they are to be found. -/
  offset : Nat := 0
  /-- The extension that they suggest. -/
  extension : String

namespace Signature

/-- The signatures that are looked for, in this order. -/
def all : List Signature := [
  { magic := [0x89, 0x50, 0x4E, 0x47, 0x0D, 0x0A, 0x1A, 0x0A], extension := "png" },
  { magic := [0x44, 0x44, 0x53, 0x20], extension := "dds" },
  { magic := [0x4F, 0x67, 0x67, 0x53], extension := "ogg" },
  { magic := [0x57, 0x41, 0x56, 0x45], offset := 8, extension := "wav" },
  { magic := [0x41, 0x56, 0x49, 0x20], offset := 8, extension := "avi" },
  { magic := [0x42, 0x4D], extension := "bmp" },
  { magic := [0xFF, 0xD8, 0xFF], extension := "jpg" },
  { magic := [0x47, 0x49, 0x46, 0x38], extension := "gif" },
  { magic := [0x50, 0x4B, 0x03, 0x04], extension := "zip" },
  { magic := [0x3C, 0x3F, 0x78, 0x6D, 0x6C], extension := "xml" }]

/-- How many bytes are needed to look for every signature. -/
def reach : Nat := 12

/-- Whether a header shows a signature. -/
def shows (s : Signature) (header : Bytes) : Bool :=
  (header.drop s.offset).take s.magic.length == s.magic

/-- The extension that a header suggests. -/
def extensionOf? (header : Bytes) : Option String :=
  (all.find? fun s => s.shows header).map Signature.extension

end Signature

end Packfile
