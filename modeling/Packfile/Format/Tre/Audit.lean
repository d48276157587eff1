import Packfile.Archive
import Packfile.Digest.Md5
import Packfile.Format.Tre.Layout

/-!
# Auditing TRE archives

What can be said of a TRE archive once its directory is read: whether its parts follow each other
without gaps, and whether its data have the digests that it states.
-/

namespace Packfile.Tre

/-- Where entries end that follow each other without gaps from a position on. -/
def stop? : (start : Nat) → List Entry → Option Nat
  | start, [] => some start
  | start, e :: rest => if e.offset = start then stop? e.stop rest else none

/-- Whether data, records, names and digests follow each other and fill an archive of `length`
bytes. -/
def isGapless (header : Header) (entries : List Entry) (length : Nat) : Bool :=
  stop? headerSize entries == some header.recordStart &&
    header.hashStart + hashSize * entries.length == length

/-- Whether the data of an entry have the digest that its directory states. -/
def hasDigest (bytes : Bytes) (e : Entry) : Bool :=
  e.properties.get? "md5" == some (.bytes (Md5.digest ((bytes.drop e.offset).take e.stored)))

/-- Whether any part of an archive is compressed. -/
def isCompressed (header : Header) (entries : List Entry) : Bool :=
  header.recordCompression.isCompressed || header.nameCompression.isCompressed ||
    entries.any fun e => e.codec.isCompressed

end Packfile.Tre
