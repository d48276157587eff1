import Packfile.Json
import Packfile.Outline
import Packfile.Registry

/-!
# Showing entries, archives and registries

The JSON form of entries, for other programs, and outlines of the main types, for people.
-/

namespace Packfile

namespace Transform

/-- A transform without its key. -/
def toJson : Transform → Json
  | xor _ => .object [("Xor", .object [])]
  | rc4 _ => .object [("Rc4", .object [])]
  | zlib => .text "Zlib"
  | deflate => .text "Deflate"

/-- The outline of a transform. -/
def outline : Transform → Outline
  | xor key => .record "Xor" [("key", .ofBytes key)]
  | rc4 key => .record "Rc4" [("key", .ofBytes key)]
  | zlib => .atom "Zlib"
  | deflate => .atom "Deflate"

end Transform

namespace Codec

/-- A codec without its keys. -/
def toJson (codec : Codec) : Json := .array (codec.map Transform.toJson)

/-- The outline of the transforms of a codec. -/
def outline (codec : Codec) : Outline := .list (codec.map Transform.outline)

end Codec

namespace Location

/-- The JSON form of a location. -/
def toJson (l : Location) : Json :=
  .object [("part", .int l.part), ("path", .ofText? l.path), ("length", .int l.length)]

/-- The outline of a location. -/
def outline (l : Location) : Outline :=
  .record "SourceLocation"
    [("part", .ofNat l.part), ("path", .ofOption (l.path.map .ofText)),
      ("length", .ofNat l.length)]

end Location

namespace PropertyValue

/-- The JSON form of a value. Byte strings are arrays of numbers. -/
def toJson : PropertyValue → Json
  | int value => .int value
  | text value => .text value
  | bytes value => .ofBytes value

/-- The outline of a value. -/
def outline : PropertyValue → Outline
  | int value => .tuple "Int" [.atom (toString value)]
  | text value => .tuple "Text" [.ofText value]
  | bytes value => .tuple "Bytes" [.ofBytes value]

end PropertyValue

namespace Entry

/-- The JSON form of an entry. -/
def toJson (e : Entry) : Json :=
  .object [
    ("source", e.source.toJson),
    ("name", .ofText? e.name),
    ("data_offset", .int e.offset),
    ("stored_length", .int e.stored),
    ("decoded_length", .int e.decoded),
    ("codec", Codec.toJson e.codec),
    ("type_hint", .ofText? e.hint),
    ("properties", .object (e.properties.map fun p => (p.1, p.2.toJson)))]

/-- The outline of an entry. -/
def outline (e : Entry) : Outline :=
  .record "EntryDescriptor" [
    ("source", e.source.outline),
    ("name", .ofOption (e.name.map .ofText)),
    ("data_offset", .ofNat e.offset),
    ("stored_length", .ofNat e.stored),
    ("decoded_length", .ofNat e.decoded),
    ("codec", .tuple "CodecPipeline" [Codec.outline e.codec]),
    ("type_hint", .ofOption (e.hint.map .ofText)),
    ("properties", .table (e.properties.map fun p => (Quoted.quote p.1, p.2.outline)))]

/-- What an open entry is shown as. -/
def openText (e : Entry) : String := "EntryReader(" ++ e.outline.block ++ ")"

end Entry

/-- The JSON form of a compression. -/
def Tre.Compression.toJson : Tre.Compression → Json
  | .none => .text "none"
  | .zlib => .text "zlib"

/-- The JSON form of the header of a TRE archive, with the places that follow from it. -/
def Tre.Header.toJson (h : Tre.Header) : Json :=
  .object [
    ("records", .int h.records),
    ("record_start", .int h.recordStart),
    ("record_compression", h.recordCompression.toJson),
    ("record_compressed", .int h.recordCompressed),
    ("name_compression", h.nameCompression.toJson),
    ("name_compressed", .int h.nameCompressed),
    ("name_uncompressed", .int h.nameUncompressed),
    ("name_start", .int h.nameStart),
    ("hash_start", .int h.hashStart)]

/-- The JSON form of a record of a TRE archive. -/
def Tre.Record.toJson (r : Tre.Record) : Json :=
  .object [
    ("checksum", .int r.checksum),
    ("uncompressed", .int r.uncompressed),
    ("offset", .int r.offset),
    ("compression", r.compression.toJson),
    ("compressed", .int r.compressed),
    ("name_offset", .int r.nameOffset)]

/-- The outline of a stream, without its bytes. -/
def Stream.outline (s : Stream) : Outline :=
  let order := match s.order with
    | .little => "Little"
    | .big => "Big"
  .partial_ "ByteCursor" [("len", .ofNat s.length), ("endian", .atom order)]

/-- The outline of options. `watched` says whether progress is reported to anyone. -/
def Options.outline (o : Options) (watched : Bool) : Outline :=
  .record "DecodeOptions" [
    ("max_entries", .ofNat o.maxEntries),
    ("name_table", .ofOption (o.nameTable.map .ofText)),
    ("sort_by_offset", .ofBool o.sortByOffset),
    ("progress", .ofBool watched)]

/-- The outline of an archive, with the number of its entries. -/
def Archive.outline (a : Archive) : Outline :=
  .record "Archive" [("format", .ofText a.format), ("entries", .ofNat a.size)]

/-- The outline of a candidate. -/
def Candidate.outline (c : Candidate) : Outline :=
  .record "Candidate" [
    ("format", .ofText c.format.id),
    ("confidence", .tuple "Confidence" [.ofNat c.confidence.value])]

/-- The outline of a registry. -/
def Registry.outline (r : Registry) : Outline :=
  .record "FormatRegistry" [
    ("decoders", .list (r.formats.map fun format => .ofText format.id)),
    ("options", .record "RegistryOptions" [("threshold", .ofNat r.threshold)])]

end Packfile
