import Packfile.Proofs.Integers
import Packfile.Zlib

/-!
# What was stored is inflated

The compressor of the library stores every byte as it is. Inflating what it wrote gives the data
back, with the bytes behind them left over.

A stored block starts at a byte boundary, so after its three header bits the decoder drops the rest
of that byte, and from there on everything is whole bytes. The one stream that is not made of stored
blocks is that of no data, a single end-of-block symbol of the fixed code, and that symbol is read
by evaluation.

## Main definitions

* `Zlib.Inverts` — compressors whose output inflates to the input

## Main results

* `Deflate.inflate_store`, `Zlib.decompress_compress`, `Zlib.inverts_compress`
-/

namespace Packfile

namespace Deflate

variable {output : Array UInt8} {data content rest : Bytes} {count : ℕ}

/-! ### Stored blocks -/

/-- The decoder reads the length of a stored block twice, and then its content. -/
theorem storedBlock_eq (pending : List Bool) (h : content.length ≤ storedLimit) :
    storedBlock output ⟨pending, ByteOrder.little.encode 2 content.length ++
      (ByteOrder.little.encode 2 (storedLimit - content.length) ++ (content ++ rest))⟩
        = (output ++ content, .ok ⟨[], rest⟩) := by
  have hlimit : storedLimit = 65535 := rfl
  have hlength : ByteOrder.little.decode (ByteOrder.little.encode 2 content.length)
      = content.length := ByteOrder.decode_encode _ (by omega)
  have hcomplement : ByteOrder.little.decode
      (ByteOrder.little.encode 2 (storedLimit - content.length)) = storedLimit - content.length :=
    ByteOrder.decode_encode _ (by omega)
  simp only [ByteOrder.encode, ByteOrder.digits] at hlength hcomplement ⊢
  simp only [storedBlock, Bits.align, List.cons_append, List.nil_append, hlength, hcomplement,
    List.take_left, List.drop_left, if_true]
  rw [if_pos (by omega)]

/-- The header of a stored block, and what is read behind it. -/
theorem bitField_stored (last : Bool) (rest : Bytes) :
    bitField 3 ⟨[], (if last then 1 else 0) :: rest⟩
      = .ok (if last then 1 else 0, ⟨[false, false, false, false, false], rest⟩) := by
  cases last <;> rfl

/-- A stored block is decoded, and its mark says whether others follow. -/
theorem blocks_storedBytes (last : Bool) (rounds : ℕ) (h : content.length ≤ storedLimit) :
    blocks (rounds + 1) output ⟨[], storedBytes last content ++ rest⟩
      = if last then (output ++ content, .complete rest)
        else blocks rounds (output ++ content) ⟨[], rest⟩ := by
  have hblock : ∀ kind, kind = 0 → block kind output ⟨[false, false, false, false, false],
      ByteOrder.little.encode 2 content.length ++
        (ByteOrder.little.encode 2 (storedLimit - content.length) ++ (content ++ rest))⟩
        = (output ++ content, .ok ⟨[], rest⟩) := by
    rintro _ rfl
    exact storedBlock_eq [false, false, false, false, false] h
  rw [storedBytes, List.cons_append, blocks, bitField_stored, List.append_assoc, List.append_assoc]
  cases last with
  | true =>
    dsimp only
    rw [if_pos rfl, hblock _ rfl]
    rfl
  | false =>
    dsimp only
    rw [if_neg Bool.false_ne_true, hblock _ rfl]
    rfl

/-- Stored blocks are decoded one after the other, up to the one that is marked. -/
theorem blocks_storedBlocks {rounds : ℕ} (hrounds : count < rounds)
    (hdata : data.length ≤ (count + 1) * storedLimit) :
    blocks rounds output ⟨[], storedBlocks (count + 1) data ++ rest⟩
      = (output ++ data, .complete rest) := by
  induction count generalizing rounds output data with
  | zero =>
    obtain ⟨rounds, rfl⟩ : ∃ k, rounds = k + 1 := ⟨rounds - 1, by omega⟩
    rw [storedBlocks, storedBlocks, List.append_nil, List.take_of_length_le (by omega),
      blocks_storedBytes _ _ (by omega)]
    rfl
  | succ count ih =>
    obtain ⟨rounds, rfl⟩ : ∃ k, rounds = k + 1 := ⟨rounds - 1, by omega⟩
    rw [Nat.add_mul] at hdata
    rw [storedBlocks, List.append_assoc, blocks_storedBytes _ _ (List.length_take_le _ _)]
    have hrest : blocks rounds (output ++ data.take storedLimit)
        ⟨[], storedBlocks (count + 1) (data.drop storedLimit) ++ rest⟩
          = (output ++ data.take storedLimit ++ data.drop storedLimit, .complete rest) :=
      ih (by omega) (by rw [List.length_drop]; omega)
    have houtput : output ++ data.take storedLimit ++ data.drop storedLimit = output ++ data :=
      Array.ext' (by simp)
    rw [houtput] at hrest
    exact hrest

/-! ### The fixed code -/

/-- Seven zero bits are the end of a block. -/
theorem read_fixedLiterals (rest : Bytes) :
    fixedLiterals.read ⟨[false, false, false, false, false], 0 :: rest⟩
      = .ok (256, ⟨[false, false, false, false, false, false], rest⟩) := by
  have hcounts : fixedLiterals.counts = [0, 0, 0, 0, 0, 0, 24, 152, 112, 0, 0, 0, 0, 0, 0] := by
    decide +kernel
  have hsymbol : fixedLiterals.symbols[0]? = some 256 := by
    decide +kernel
  simp [Code.read, hcounts, Code.walk, Bits.next, Bits.ofByte, hsymbol]

/-- No data are a single end of a block. -/
theorem inflate_store_nil (rest : Bytes) : inflate (store [] ++ rest) = ([], .complete rest) := by
  have hheader : bitField 3 ⟨[], 3 :: 0 :: rest⟩
      = .ok (3, ⟨[false, false, false, false, false], 0 :: rest⟩) := rfl
  have hitem : item fixedLiterals fixedDistances ⟨[false, false, false, false, false], 0 :: rest⟩
      = .ok (.finish, ⟨[false, false, false, false, false, false], rest⟩) := by
    rw [item, read_fixedLiterals]
    rfl
  have hblock : ∀ kind, kind = 1 →
      block kind #[] ⟨[false, false, false, false, false], 0 :: rest⟩
        = (#[], .ok ⟨[false, false, false, false, false, false], rest⟩) := by
    rintro _ rfl
    rw [block, symbols, hitem]
  show inflate (3 :: 0 :: rest) = _
  rw [inflate, Bits.ofBytes, blocks, hheader]
  dsimp only
  rw [hblock _ rfl]
  rfl

theorem length_storedBlocks_le (count : ℕ) (data : Bytes) :
    count ≤ (storedBlocks count data).length := by
  induction count generalizing data with
  | zero => exact Nat.zero_le _
  | succ count ih =>
    have := ih (data.drop storedLimit)
    rw [storedBlocks, List.length_append, storedBytes, List.length_cons]
    omega

/-- **What was stored is inflated**, and the bytes behind it are left. -/
theorem inflate_store (data rest : Bytes) :
    inflate (store data ++ rest) = (data, .complete rest) := by
  cases hdata : data with
  | nil => exact inflate_store_nil rest
  | cons b bytes =>
    rw [← hdata]
    have hpos : 0 < data.length := by rw [hdata]; exact Nat.succ_pos _
    obtain ⟨count, hcount⟩ : ∃ count, (data.length + storedLimit - 1) / storedLimit = count + 1 :=
      ⟨(data.length + storedLimit - 1) / storedLimit - 1, by rw [storedLimit]; omega⟩
    have hdataLength : data.length ≤ (count + 1) * storedLimit := by
      rw [← hcount, storedLimit]
      omega
    have hstore : store data = storedBlocks (count + 1) data := by
      rw [store, if_neg (by simp [hdata]), hcount]
    have hlength := length_storedBlocks_le (count + 1) data
    have hrounds : count < (Bits.ofBytes (storedBlocks (count + 1) data ++ rest)).length + 1 := by
      simp only [Bits.length, Bits.ofBytes, List.length_append]
      omega
    rw [Bits.ofBytes] at hrounds
    have hblocks : blocks _ #[] ⟨[], storedBlocks (count + 1) data ++ rest⟩
      = (#[] ++ data, .complete rest) := blocks_storedBlocks hrounds hdataLength
    rw [hstore, inflate, Bits.ofBytes, hblocks]
    simp

end Deflate

namespace Zlib

/-- What the compressor produces inflates to what it was given. -/
def Inverts (compress : Bytes → Bytes) : Prop :=
  ∀ data, ∃ rest, decompress (compress data) = (data, .complete rest)

theorem checksum_lt (data : Bytes) : Adler32.checksum data < 256 ^ 4 := by
  have hsums : ∀ sums : ℕ × ℕ, sums.1 < Adler32.modulus ∧ sums.2 < Adler32.modulus →
      (data.foldl Adler32.step sums).1 < Adler32.modulus
        ∧ (data.foldl Adler32.step sums).2 < Adler32.modulus := by
    induction data with
    | nil => exact fun sums h => h
    | cons b data ih =>
      intro sums _
      exact ih _ ⟨Nat.mod_lt _ (by decide), Nat.mod_lt _ (by decide)⟩
  have h := hsums (1, 0) (by decide)
  rw [Adler32.modulus] at h
  show 65536 * (data.foldl Adler32.step (1, 0)).2 + (data.foldl Adler32.step (1, 0)).1 < 256 ^ 4
  omega

/-- The checksum behind the content of a stream is found to be right. -/
theorem trailer_checksum (data rest : Bytes) :
    trailer data (ByteOrder.big.encode 4 (Adler32.checksum data) ++ rest) = .complete rest := by
  have hsum := ByteOrder.decode_encode .big (checksum_lt data)
  simp only [ByteOrder.encode, ByteOrder.digits, List.reverse_cons, List.reverse_nil,
    List.nil_append, List.cons_append] at hsum ⊢
  rw [trailer, if_pos hsum]

/-- **What was compressed is decompressed.** -/
theorem decompress_compress (data : Bytes) : decompress (compress data) = (data, .complete []) := by
  have hheader : isHeader 0x78 0x9C = true := by decide
  have hdictionary : wantsDictionary 0x9C = false := by decide
  have htrailer := trailer_checksum data []
  rw [List.append_nil] at htrailer
  rw [compress, List.append_assoc]
  show decompress (0x78 :: 0x9C :: (Deflate.store data
    ++ ByteOrder.big.encode 4 (Adler32.checksum data))) = _
  rw [decompress, hheader, hdictionary, Deflate.inflate_store, ← htrailer]
  rfl

theorem inverts_compress : Inverts compress := fun data => ⟨[], decompress_compress data⟩

end Zlib

end Packfile
