import Packfile.Archive
import Packfile.Format.Dtre
import Packfile.Format.Lump
import Packfile.Format.Ofs
import Packfile.Format.Rpak
import Packfile.Format.Spk
import Packfile.Format.Sprb
import Packfile.Format.Tre
import Packfile.Format.Xarc

/-!
# Registries

A registry is a list of formats and a threshold. A stream is rated by every format; those that
reach the threshold are tried from the most confident down, formats of equal confidence in the
order of the list, until one of them can read the directory.

## Main definitions

* `Registry.standard` — all formats of this library
* `Registry.identify` — the confidence of each format
* `Registry.openStream`, `openAs` — archives
* `Registry.encode` — writing
-/

namespace Packfile

/-- Formats and the confidence that is asked of them. -/
structure Registry where
  /-- The formats. Earlier ones are preferred. -/
  formats : List Format
  /-- The least confidence with which a format is tried. -/
  threshold : Nat := 50

/-- A format and the confidence that a stream is in it. -/
structure Candidate where
  /-- The format. -/
  format : Format
  /-- The confidence. -/
  confidence : Confidence

/-- What comes of opening a stream. -/
inductive Identification where
  /-- It is an archive. -/
  | recognized (archive : Archive)
  /-- No format is confident enough. -/
  | unrecognized
  /-- No format that is confident enough can read it. The most confident one found this. -/
  | corrupt (format : String) (error : Error)

namespace Registry

/-- All formats of this library. -/
def standard : Registry where
  formats := [Xarc.format, Ofs.format, Dtre.format, Tre.format, Rpak.format, Spk.format,
    Sprb.format, Lump.format]

/-- The format of an identifier, up to the case of letters. -/
def find? (registry : Registry) (id : String) : Option Format :=
  registry.formats.find? fun format => Text.sameIgnoringCase format.id id

/-- The confidence of each of the given formats. -/
def rateAll (source : Location) : List Format → Reader (List Candidate)
  | [] => return []
  | format :: rest => do
    let confidence ← format.score source
    return ⟨format, confidence⟩ :: (← rateAll source rest)

/-- The order of candidates: the more confident first. -/
def precedes (a b : Candidate) : Bool := b.confidence.value ≤ a.confidence.value

/-- The confidence of each format, best first. -/
def identify (registry : Registry) (source : Location) : Reader (List Candidate) :=
  return (← rateAll source registry.formats).mergeSort precedes

/-- What is reported when a format that is confident enough cannot read the directory. -/
def candidateFailed : String := "matched format failed to decode, trying next"

/-- Tries formats in turn. `first` is the first failure so far. -/
def tryAll (source : Location) : List Candidate → Option (String × Error) → Decode Identification
  | [], none => return .unrecognized
  | [], some (format, error) => return .corrupt format error
  | candidate :: rest, first => do
    match ← Decode.attempt (candidate.format.readDirectory source) with
    | .ok entries =>
      return .recognized { format := candidate.format.id, stream := (← get).stream, entries }
    | .error error =>
      Decode.warn candidateFailed
      tryAll source rest (first <|> some (candidate.format.id, error))

/-- Opens the stream of the session in the format that it is recognized to be in. -/
def openStream (registry : Registry) (source : Location) : Decode Identification := do
  let candidates ← registry.identify source
  tryAll source (candidates.filter fun c => c.confidence.reaches registry.threshold) none

/-- Opens the stream of the session in a given format. -/
def openAs (registry : Registry) (id : String) (source : Location) : Decode Archive := do
  let some format := registry.find? id | throw (.unknownFormat id)
  let entries ← format.readDirectory source
  return { format := format.id, stream := (← get).stream, entries }

/-- Writes an archive anew, from edited entries. -/
def encode (registry : Registry) (archive : Archive) (entries : List EditedEntry) :
    Except Error Bytes × Archive :=
  match (registry.find? archive.format).bind Format.encode with
  | none => (.error (.readOnly archive.format), archive)
  | some encode => archive.run (encode entries)

end Registry

end Packfile
