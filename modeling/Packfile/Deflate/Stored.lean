import Packfile.Deflate.Inflate

/-!
# Writing deflate data

The encoder of this library keeps every byte as it is: the data go into stored blocks of at most
65535 bytes. No data at all become one fixed block that ends at once, which is the shortest stream
there is.
-/

namespace Packfile.Deflate

/-- The most bytes that a stored block holds. -/
def storedLimit : Nat := 65535

/-- One stored block at a byte boundary. -/
def storedBytes (last : Bool) (content : Bytes) : Bytes :=
  (if last then 1 else 0) :: (ByteOrder.little.encode 2 content.length ++
    ByteOrder.little.encode 2 (storedLimit - content.length) ++ content)

/-- `count` stored blocks, the last one marked. -/
def storedBlocks : Nat → Bytes → Bytes
  | 0, _ => []
  | count + 1, data =>
    storedBytes (count == 0) (data.take storedLimit) ++
      storedBlocks count (data.drop storedLimit)

/-- A deflate stream of the given data. -/
def store (data : Bytes) : Bytes :=
  if data.isEmpty then [0x03, 0x00]
  else storedBlocks ((data.length + storedLimit - 1) / storedLimit) data

end Packfile.Deflate
