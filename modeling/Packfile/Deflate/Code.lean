import Packfile.Deflate.Bits

/-!
# Canonical prefix codes

A canonical code is fixed by the lengths of its words: shorter words come before longer ones, and
words of one length are numbered in the order of their symbols. `Code.ofLengths` sorts the symbols
that way, and `Code.read` walks through the lengths, one bit for each.

## Which sets of lengths are codes

A set of lengths is complete when no bit string is left over (`slack = 0`) and over-subscribed when
there are too few (`slack < 0`). Deflate admits one incomplete case, a single word of one bit, and
for distances also a code without any word, as long as nothing is read with it.
-/

namespace Packfile.Deflate

/-- Why decoding stopped before the end of the compressed data. -/
inductive Stop where
  /-- The data break a rule. -/
  | corrupt
  /-- The data end early. -/
  | incomplete
  deriving DecidableEq, Repr

/-- A canonical code. -/
structure Code where
  /-- How many words there are of each length, from one bit to fifteen. -/
  counts : List Nat
  /-- The symbols in the order of their words. -/
  symbols : Array Nat
  deriving DecidableEq, Repr

namespace Code

/-- The symbols whose word has a given length, in order. -/
def ofLength (lengths : List Nat) (length : Nat) : List Nat :=
  (lengths.zipIdx.filter fun word => word.1 == length).map Prod.snd

/-- The lengths a word may have. -/
def wordLengths : List Nat := List.range' 1 15

/-- The code whose words have the given lengths, symbol by symbol. Length zero means that a symbol
has no word. -/
def ofLengths (lengths : List Nat) : Code where
  counts := wordLengths.map fun length => lengths.count length
  symbols := (wordLengths.flatMap (ofLength lengths)).toArray

/-- How many words of the greatest length are left over. -/
def slack (code : Code) : Int :=
  code.counts.foldl (fun (left : Int) (count : Nat) => 2 * left - count) 1

/-- Whether there is no word. -/
def isEmpty (code : Code) : Bool := code.counts.all (· == 0)

/-- Whether the only word has one bit. -/
def isSingleBit (code : Code) : Bool :=
  code.counts.head? == some 1 && (code.counts.drop 1).all (· == 0)

/-- Whether literals and distances can be read with the code. -/
def isUsable (code : Code) : Bool := code.slack == 0 || code.isSingleBit || code.isEmpty

/-- Goes through the word lengths. `word` is the bits read so far as a number, `first` the first
word of the length at hand, and `index` the place of its symbol. -/
def walk (symbols : Array Nat) :
    List Nat → (word first index : Nat) → Bits → Except Stop (Nat × Bits)
  | [], _, _, _, _ => .error .corrupt
  | count :: counts, word, first, index, bits =>
    match bits.next with
    | none => .error .incomplete
    | some (bit, bits) =>
      let word := word + bit.toNat
      if word < first + count then
        match symbols[index + (word - first)]? with
        | some symbol => .ok (symbol, bits)
        | none => .error .corrupt
      else if counts.all (· == 0) then .error .corrupt
      else walk symbols counts (2 * word) (2 * (first + count)) (index + count) bits

/-- Reads one symbol. -/
def read (code : Code) (bits : Bits) : Except Stop (Nat × Bits) :=
  walk code.symbols code.counts 0 0 0 bits

end Code

end Packfile.Deflate
