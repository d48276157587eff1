import Packfile.Deflate.Stored
import Packfile.Digest.Adler32

/-!
# zlib streams

A zlib stream is a deflate stream between a header of two bytes and the Adler-32 checksum of the
content. The checksum counts only when it is there in full.

## Main definitions

* `Zlib.looksLike` — whether bytes can be the start of a zlib stream
* `Zlib.decompress`, `Zlib.compress`
-/

namespace Packfile.Zlib

/-- Whether two bytes are a zlib header: deflate, a window of at most 32 KiB, and a valid check. -/
def isHeader (cmf flg : UInt8) : Bool :=
  cmf.toNat % 16 == 8 && cmf.toNat / 16 ≤ 7 && (256 * cmf.toNat + flg.toNat) % 31 == 0

/-- Whether a byte string starts with a zlib header. -/
def looksLike : Bytes → Bool
  | cmf :: flg :: _ => isHeader cmf flg
  | _ => false

/-- Whether the header asks for a preset dictionary. -/
def wantsDictionary (flg : UInt8) : Bool := flg.toNat / 32 % 2 == 1

/-- Compares the checksum behind the content with the content. -/
def trailer (content rest : Bytes) : Deflate.Ending :=
  match rest with
  | a :: b :: c :: d :: rest =>
    if ByteOrder.big.decode [a, b, c, d] = Adler32.checksum content then .complete rest
    else .stopped .corrupt
  | _ => .stopped .incomplete

/-- The content of a zlib stream, and how decoding it ended. No dictionary is ever at hand, so a
stream that asks for one is corrupt as soon as it has named it. -/
def decompress : Bytes → Bytes × Deflate.Ending
  | cmf :: flg :: body =>
    if !isHeader cmf flg then ([], .stopped .corrupt)
    else if wantsDictionary flg then
      ([], .stopped (if body.length < 4 then .incomplete else .corrupt))
    else
      match Deflate.inflate body with
      | (content, .complete rest) => (content, trailer content rest)
      | (content, ending) => (content, ending)
  | _ => ([], .stopped .incomplete)

/-- A zlib stream of the given data. -/
def compress (data : Bytes) : Bytes :=
  [0x78, 0x9C] ++ Deflate.store data ++ ByteOrder.big.encode 4 (Adler32.checksum data)

end Packfile.Zlib
