import Packfile.Entry

/-!
# Scores

A format rates a stream by ticking off checks on a score card: a magic that is there is worth most,
an extension that fits half of that, and every number that makes sense a little. The total, cut off
at a hundred, is the confidence that the stream is in the format. Rating never fails and never
moves the stream; a stream that cannot be read scores nothing.

## Main definitions

* `ScoreCard` and its checks
* `Confidence`
* `Reader.score` — the confidence of a rating
-/

namespace Packfile

/-- A degree of confidence, from 0 to 100. -/
structure Confidence where
  /-- The degree. -/
  value : Nat
  deriving DecidableEq, Repr, Inhabited

namespace Confidence

/-- A degree of confidence, cut off at a hundred. -/
def ofNat (n : Nat) : Confidence := ⟨min n 100⟩

/-- No confidence at all. -/
def zero : Confidence := ⟨0⟩

/-- Whether the degree is at least a threshold. -/
def reaches (c : Confidence) (threshold : Nat) : Bool := threshold ≤ c.value

/-- The degree as a percentage. -/
def render (c : Confidence) : String := toString c.value ++ "%"

end Confidence

/-- The checks that a stream has passed, by their total weight. -/
structure ScoreCard where
  /-- The total weight. -/
  total : Nat := 0
  deriving DecidableEq, Repr, Inhabited

namespace ScoreCard

/-- What a magic is worth. -/
def magicWeight : Nat := 50

/-- What a file extension is worth. -/
def extensionWeight : Nat := 25

/-- What a sensible number is worth. -/
def sensibleWeight : Nat := 5

/-- The total never grows beyond this. -/
def maxTotal : Nat := 65535

/-- A card without checks. -/
def blank : ScoreCard := {}

/-- Ticks off a check of the given weight. -/
def check (card : ScoreCard) (passed : Bool) (weight : Nat) : ScoreCard :=
  if passed then ⟨min (card.total + weight) maxTotal⟩ else card

/-- Ticks off a magic. -/
def magic (card : ScoreCard) (found expected : Bytes) : ScoreCard :=
  card.check (found == expected) magicWeight

/-- Whether the extension of a location is one of the given ones, up to the case of letters. -/
def hasExtension (source : Location) (extensions : List String) : Bool :=
  match source.extension? with
  | none => false
  | some extension => extensions.any fun e => Text.sameIgnoringCase e extension

/-- Ticks off an extension. -/
def extension (card : ScoreCard) (source : Location) (extensions : List String) : ScoreCard :=
  card.check (hasExtension source extensions) extensionWeight

/-- Ticks off a number that makes sense. -/
def sensible (card : ScoreCard) (passed : Bool) : ScoreCard := card.check passed sensibleWeight

/-- The confidence that the card shows. -/
def confidence (card : ScoreCard) : Confidence := .ofNat card.total

end ScoreCard

/-- The confidence of a rating. The stream stays where it was. -/
def Reader.score (rating : Reader ScoreCard) : Reader Confidence := fun s =>
  match Reader.restoring rating s with
  | .ok card s => .ok card.confidence s
  | .error _ s => .ok .zero s

end Packfile
