import Packfile.Deflate.Code

/-!
# Decoding deflate data

A deflate stream is a sequence of blocks, the last of them marked. A block is stored as it is, or
consists of symbols: literal bytes, and copies of earlier output given by a length and a distance.
The two codes of a block are the fixed ones or are described at its start.

Decoding never loses what it has: `inflate` gives all output up to the point where the data end,
break a rule, or are complete, and says which of the three it was.

## Main definitions

* `Deflate.inflate` — output and ending of a byte string
* `Deflate.Ending` — how decoding ended
-/

namespace Packfile.Deflate

/-- How decoding ended. -/
inductive Ending where
  /-- The last block is complete; the bytes behind it are left. -/
  | complete (rest : Bytes)
  /-- Decoding stopped before. -/
  | stopped (reason : Stop)
  deriving DecidableEq, Repr

/-- `count` bits as a number, or the end of the data. -/
def bitField (count : Nat) (bits : Bits) : Except Stop (Nat × Bits) :=
  match bits.take count with
  | some found => .ok found
  | none => .error .incomplete

/-! ### The two alphabets -/

/-- Least length of a copy and number of extra bits, by length symbol. -/
def lengthTable : Array (Nat × Nat) := #[
  (3, 0), (4, 0), (5, 0), (6, 0), (7, 0), (8, 0), (9, 0), (10, 0), (11, 1), (13, 1), (15, 1),
  (17, 1), (19, 2), (23, 2), (27, 2), (31, 2), (35, 3), (43, 3), (51, 3), (59, 3), (67, 4),
  (83, 4), (99, 4), (115, 4), (131, 5), (163, 5), (195, 5), (227, 5), (258, 0)]

/-- Least distance of a copy and number of extra bits, by distance symbol. -/
def distanceTable : Array (Nat × Nat) := #[
  (1, 0), (2, 0), (3, 0), (4, 0), (5, 1), (7, 1), (9, 2), (13, 2), (17, 3), (25, 3), (33, 4),
  (49, 4), (65, 5), (97, 5), (129, 6), (193, 6), (257, 7), (385, 7), (513, 8), (769, 8),
  (1025, 9), (1537, 9), (2049, 10), (3073, 10), (4097, 11), (6145, 11), (8193, 12), (12289, 12),
  (16385, 13), (24577, 13)]

/-- A number given by a symbol and the extra bits behind it. -/
def extended (table : Array (Nat × Nat)) (symbol : Nat) (bits : Bits) :
    Except Stop (Nat × Bits) :=
  match table[symbol]? with
  | none => .error .corrupt
  | some (least, extra) => do
    let (more, bits) ← bitField extra bits
    return (least + more, bits)

/-- The length of a copy, from its literal or length symbol. -/
def copyLength (symbol : Nat) (bits : Bits) : Except Stop (Nat × Bits) :=
  extended lengthTable (symbol - 257) bits

/-- The distance of a copy. -/
def copyDistance (distances : Code) (bits : Bits) : Except Stop (Nat × Bits) := do
  let (symbol, bits) ← distances.read bits
  extended distanceTable symbol bits

/-! ### Output -/

/-- Appends `count` bytes, each one the byte that stands `distance` places back. -/
def copyBack (distance : Nat) : Nat → Array UInt8 → Array UInt8
  | 0, output => output
  | count + 1, output =>
    copyBack distance count (output.push (output.getD (output.size - distance) 0))

/-! ### Blocks -/

/-- What a symbol, or a whole block, leaves: the output, and where the data go on. -/
abbrev Progress := Array UInt8 × Except Stop Bits

/-- What one symbol of a block means. -/
inductive Item where
  /-- A byte of output. -/
  | literal (byte : UInt8)
  /-- A copy of earlier output. -/
  | copy (length distance : Nat)
  /-- The end of the block. -/
  | finish
  deriving DecidableEq, Repr

/-- Reads one symbol of a block with all that belongs to it. -/
def item (literals distances : Code) (bits : Bits) : Except Stop (Item × Bits) := do
  let (symbol, bits) ← literals.read bits
  if symbol < 256 then return (.literal (UInt8.ofNat symbol), bits)
  else if symbol = 256 then return (.finish, bits)
  else
    let (length, bits) ← copyLength symbol bits
    let (distance, bits) ← copyDistance distances bits
    return (.copy length distance, bits)

/-- The symbols of a block. Each takes at least one bit, so as many rounds as there are bits are
enough. -/
def symbols (literals distances : Code) : Nat → Array UInt8 → Bits → Progress
  | 0, output, _ => (output, .error .incomplete)
  | rounds + 1, output, bits =>
    match item literals distances bits with
    | .error stop => (output, .error stop)
    | .ok (.finish, bits) => (output, .ok bits)
    | .ok (.literal byte, bits) => symbols literals distances rounds (output.push byte) bits
    | .ok (.copy length distance, bits) =>
      if output.size < distance then (output, .error .corrupt)
      else symbols literals distances rounds (copyBack distance length output) bits

/-- A block that holds its bytes as they are. What there is of an unfinished one is output. -/
def storedBlock (output : Array UInt8) (bits : Bits) : Progress :=
  match bits.align with
  | a :: b :: c :: d :: rest =>
    let length := ByteOrder.little.decode [a, b]
    if length + ByteOrder.little.decode [c, d] = 0xFFFF then
      let content := rest.take length
      if content.length = length then (output ++ content, .ok ⟨[], rest.drop length⟩)
      else (output ++ content, .error .incomplete)
    else (output, .error .corrupt)
  | _ => (output, .error .incomplete)

/-- The fixed code for literals and lengths. -/
def fixedLiterals : Code :=
  Code.ofLengths (List.replicate 144 8 ++ List.replicate 112 9 ++ List.replicate 24 7 ++
    List.replicate 8 8)

/-- The fixed code for distances. -/
def fixedDistances : Code := Code.ofLengths (List.replicate 32 5)

/-- The order in which a block lists the word lengths of the code for word lengths. -/
def lengthOrder : List Nat := [16, 17, 18, 0, 8, 7, 9, 6, 10, 5, 11, 4, 12, 3, 13, 2, 14, 1, 15]

/-- `count` numbers of three bits. -/
def triples : Nat → Bits → Except Stop (List Nat × Bits)
  | 0, bits => .ok ([], bits)
  | count + 1, bits => do
    let (value, bits) ← bitField 3 bits
    let (values, bits) ← triples count bits
    return (value :: values, bits)

/-- The code for word lengths, when it can be used. Without any word, every bit stands for length
zero. -/
def lengthCode? (listed : List Nat) : Option Code :=
  let lengths := (List.range 19).map fun symbol =>
    ((lengthOrder.zip listed).lookup symbol).getD 0
  let code := Code.ofLengths lengths
  if code.isEmpty then some { counts := [2], symbols := #[0, 0] }
  else if code.slack = 0 then some code
  else none

/-- The word lengths of both codes, `wanted` of them. Symbols below 16 are lengths, the others
repeat the last length or zero. -/
def wordLengths (code : Code) (wanted : Nat) :
    Nat → List Nat → Bits → Except Stop (List Nat × Bits)
  | 0, _, _ => .error .incomplete
  | rounds + 1, found, bits =>
    if found.length = wanted then .ok (found, bits)
    else do
      let (symbol, bits) ← code.read bits
      if symbol < 16 then wordLengths code wanted rounds (found ++ [symbol]) bits
      else
        let (least, width) := if symbol = 16 then (3, 2) else if symbol = 17 then (3, 3) else (11, 7)
        let (more, bits) ← bitField width bits
        let repeated ← match symbol, found.getLast? with
          | 16, none => .error .corrupt
          | 16, some last => .ok last
          | _, _ => .ok 0
        let times := least + more
        if wanted < found.length + times then .error .corrupt
        else wordLengths code wanted rounds (found ++ List.replicate times repeated) bits

/-- The two codes described at the start of a block. -/
def describedCodes (bits : Bits) : Except Stop ((Code × Code) × Bits) := do
  let (header, bits) ← bitField 14 bits
  let literalCount := 257 + header % 32
  let distanceCount := 1 + header / 32 % 32
  let lengthCount := 4 + header / 1024
  if 286 < literalCount || 30 < distanceCount then .error .corrupt
  let (listed, bits) ← triples lengthCount bits
  let some code := lengthCode? listed | .error .corrupt
  let wanted := literalCount + distanceCount
  let (found, bits) ← wordLengths code wanted (wanted + 1) [] bits
  let literals := Code.ofLengths (found.take literalCount)
  let distances := Code.ofLengths (found.drop literalCount)
  if found.getD 256 0 = 0 || !literals.isUsable || !distances.isUsable then .error .corrupt
  return ((literals, distances), bits)

/-- One block after its three header bits. -/
def block (kind : Nat) (output : Array UInt8) (bits : Bits) : Progress :=
  match kind with
  | 0 => storedBlock output bits
  | 1 => symbols fixedLiterals fixedDistances (bits.length + 1) output bits
  | 2 =>
    match describedCodes bits with
    | .error stop => (output, .error stop)
    | .ok ((literals, distances), bits) =>
      symbols literals distances (bits.length + 1) output bits
  | _ => (output, .error .corrupt)

/-- The blocks up to the last one. Each takes at least three bits, so as many rounds as there are
bits are enough. -/
def blocks : Nat → Array UInt8 → Bits → Array UInt8 × Ending
  | 0, output, _ => (output, .stopped .incomplete)
  | rounds + 1, output, bits =>
    match bitField 3 bits with
    | .error stop => (output, .stopped stop)
    | .ok (header, bits) =>
      match block (header / 2) output bits with
      | (output, .error stop) => (output, .stopped stop)
      | (output, .ok bits) =>
        if header % 2 = 1 then (output, .complete bits.align) else blocks rounds output bits

/-- The output of a deflate stream, and how decoding it ended. -/
def inflate (input : Bytes) : Bytes × Ending :=
  let bits := Bits.ofBytes input
  let (output, ending) := blocks (bits.length + 1) #[] bits
  (output.toList, ending)

end Packfile.Deflate
