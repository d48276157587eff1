import Packfile.Bytes

/-!
# MD5

The 128-bit digest of a byte string: the string is padded to whole blocks of 64 bytes, and each
block is mixed into four 32-bit words in 64 rounds.
-/

namespace Packfile.Md5

/-- The four words that a digest consists of. -/
structure State where
  a : UInt32
  b : UInt32
  c : UInt32
  d : UInt32

/-- The words before the first block. -/
def start : State := ⟨0x67452301, 0xefcdab89, 0x98badcfe, 0x10325476⟩

/-- The additive constant of each round. -/
def constants : Vector UInt32 64 := #v[
  0xd76aa478, 0xe8c7b756, 0x242070db, 0xc1bdceee, 0xf57c0faf, 0x4787c62a, 0xa8304613, 0xfd469501,
  0x698098d8, 0x8b44f7af, 0xffff5bb1, 0x895cd7be, 0x6b901122, 0xfd987193, 0xa679438e, 0x49b40821,
  0xf61e2562, 0xc040b340, 0x265e5a51, 0xe9b6c7aa, 0xd62f105d, 0x02441453, 0xd8a1e681, 0xe7d3fbc8,
  0x21e1cde6, 0xc33707d6, 0xf4d50d87, 0x455a14ed, 0xa9e3e905, 0xfcefa3f8, 0x676f02d9, 0x8d2a4c8a,
  0xfffa3942, 0x8771f681, 0x6d9d6122, 0xfde5380c, 0xa4beea44, 0x4bdecfa9, 0xf6bb4b60, 0xbebfbc70,
  0x289b7ec6, 0xeaa127fa, 0xd4ef3085, 0x04881d05, 0xd9d4d039, 0xe6db99e5, 0x1fa27cf8, 0xc4ac5665,
  0xf4292244, 0x432aff97, 0xab9423a7, 0xfc93a039, 0x655b59c3, 0x8f0ccc92, 0xffeff47d, 0x85845dd1,
  0x6fa87e4f, 0xfe2ce6e0, 0xa3014314, 0x4e0811a1, 0xf7537e82, 0xbd3af235, 0x2ad7d2bb, 0xeb86d391]

/-- How far a round rotates: four amounts for each quarter of the rounds. -/
def rotations : Vector UInt32 16 := #v[7, 12, 17, 22, 5, 9, 14, 20, 4, 11, 16, 23, 6, 10, 15, 21]

/-- Rotation to the left by less than 32 places. -/
def rotate (x n : UInt32) : UInt32 := (x <<< n) ||| (x >>> (32 - n))

/-- The mixing function of a round, and the index of the message word that it takes. -/
def mixing (s : State) (round : Nat) : UInt32 × Nat :=
  if round < 16 then ((s.b &&& s.c) ||| (~~~ s.b &&& s.d), round)
  else if round < 32 then ((s.d &&& s.b) ||| (~~~ s.d &&& s.c), (5 * round + 1) % 16)
  else if round < 48 then (s.b ^^^ s.c ^^^ s.d, (3 * round + 5) % 16)
  else (s.c ^^^ (s.b ||| ~~~ s.d), (7 * round) % 16)

/-- One round over the sixteen words of a block. -/
def step (words : Array UInt32) (s : State) (round : Fin 64) : State :=
  let (mixed, index) := mixing s round.val
  let sum := mixed + s.a + constants[round] + words.getD index 0
  let amount := rotations.get ⟨4 * (round.val / 16) + round.val % 4, by omega⟩
  ⟨s.d, s.b + rotate sum amount, s.b, s.c⟩

/-- The words of a block of 64 bytes. -/
def words : Nat → Bytes → List UInt32
  | 0, _ => []
  | count + 1, bytes =>
    UInt32.ofNat (ByteOrder.little.decode (bytes.take 4)) :: words count (bytes.drop 4)

/-- The state after one more block. -/
def absorb (s : State) (block : Bytes) : State :=
  let message := (words 16 block).toArray
  let mixed := (List.finRange 64).foldl (step message) s
  ⟨s.a + mixed.a, s.b + mixed.b, s.c + mixed.c, s.d + mixed.d⟩

/-- The state after `count` blocks. -/
def absorbAll : Nat → State → Bytes → State
  | 0, s, _ => s
  | count + 1, s, bytes => absorbAll count (absorb s (bytes.take 64)) (bytes.drop 64)

/-- A byte string, a one bit, zeros up to eight bytes before the end of a block, and the length in
bits. -/
def padded (bytes : Bytes) : Bytes :=
  bytes ++ [0x80] ++ List.replicate ((119 - bytes.length % 64) % 64) 0 ++
    ByteOrder.little.encode 8 (8 * bytes.length)

/-- The digest of a byte string, sixteen bytes. -/
def digest (bytes : Bytes) : Bytes :=
  let message := padded bytes
  let s := absorbAll (message.length / 64) start message
  [s.a, s.b, s.c, s.d].flatMap fun word => ByteOrder.little.encode 4 word.toNat

theorem length_digest (bytes : Bytes) : (digest bytes).length = 16 := by
  simp [digest]

theorem length_padded (bytes : Bytes) : (padded bytes).length % 64 = 0 := by
  simp only [padded, List.length_append, List.length_cons, List.length_nil,
    List.length_replicate, ByteOrder.length_encode]
  omega

end Packfile.Md5
