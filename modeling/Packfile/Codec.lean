import Packfile.Codec.Feed

/-!
# Codecs

A codec lists the transforms that turn the stored bytes of an entry into its content, in the order
in which they are undone: deciphering first, decompression after. Nothing is decoded while a
directory is parsed.

## Main definitions

* `Transform`, `Codec`
* `Compressors` — what does the compressing
* `Codec.undo` — the feed of the content, from the feed of the stored bytes
* `Codec.encode` — the stored bytes, from the content
-/

namespace Packfile

/-- One step between stored bytes and content. -/
inductive Transform where
  /-- Exclusive or with a repeated key. -/
  | xor (key : Bytes)
  /-- RC4. -/
  | rc4 (key : Bytes)
  /-- Compression with zlib framing. -/
  | zlib
  /-- Compression without framing. -/
  | deflate
  deriving DecidableEq, Repr

/-- The transforms between stored bytes and content, in the order of decoding. -/
abbrev Codec := List Transform

/-- The compressors that encoding uses. Decoding does not depend on them. -/
structure Compressors where
  /-- Compresses with zlib framing. -/
  zlib : Bytes → Bytes := Zlib.compress
  /-- Compresses without framing. -/
  deflate : Bytes → Bytes := Deflate.store

namespace Transform

/-- Whether the transform changes lengths. -/
def isCompression : Transform → Bool
  | zlib | deflate => true
  | xor _ | rc4 _ => false

/-- What is wrong with the key of a transform, if anything is. -/
def keyError? : Transform → Option Error
  | xor key => if key.isEmpty then some (.odd .emptyXorKey) else none
  | rc4 key => if Rc4.isKeyLength key.length then none else some (.odd (.rc4KeyLength key.length))
  | zlib | deflate => none

/-- Undoes the transform. -/
def undo : Transform → Feed → Feed
  | xor key, feed => feed.xor key
  | rc4 key, feed => feed.rc4 key
  | zlib, feed => feed.inflate Zlib.decompress
  | deflate, feed => feed.inflate Deflate.inflate

/-- Does the transform. -/
def apply (transform : Transform) (bytes : Bytes) (compressors : Compressors := {}) : Bytes :=
  match transform with
  | xor key => (Xor.mk key 0).apply bytes
  | rc4 key => ((Rc4.ofKey key).apply bytes).1
  | zlib => compressors.zlib bytes
  | deflate => compressors.deflate bytes

end Transform

namespace Codec

/-- Whether stored bytes and content are the same. -/
def isIdentity (codec : Codec) : Bool := codec.isEmpty

/-- Whether some step is a compression. -/
def isCompressed (codec : Codec) : Bool := codec.any Transform.isCompression

/-- The feed of the content. The first key that cannot be used is the error. -/
def undo : Codec → Feed → Except Error Feed
  | [], feed => .ok feed
  | transform :: codec, feed =>
    match transform.keyError? with
    | some e => .error e
    | none => Codec.undo codec (transform.undo feed)

/-- The stored bytes of a content: the transforms are done from the last to the first. -/
def encode (codec : Codec) (content : Bytes) (compressors : Compressors := {}) :
    Except Error Bytes :=
  match codec with
  | [] => .ok content
  | transform :: codec =>
    match Codec.encode codec content compressors with
    | .error e => .error e
    | .ok block =>
      match transform.keyError? with
      | some e => .error e
      | none => .ok (transform.apply block compressors)

end Codec

end Packfile
