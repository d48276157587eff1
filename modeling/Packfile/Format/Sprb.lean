import Packfile.Format
import Packfile.Listing.Hints
import Packfile.Listing.Lengths
import Packfile.Listing.Naming
import Packfile.Text.Hex
import Packfile.Walk.Offsets

/-!
# SPRB archives

Banks of sprites that share palettes.

| Offset | Field                                            |
|--------|--------------------------------------------------|
| 0      | magic `SPRB`                                     |
| 4      | number of slots, 2 bytes                         |
| 6      | number of palettes, 2 bytes                      |
| 8      | palettes, 256 colours of 3 bytes each            |
| behind | the offset of each slot's sprite, 4 bytes, or 0  |

A sprite starts with 9 bytes: the number of its pixel bytes in 4, its width and its height in 2
each, and the number of its palette. The entry is this header with the pixels behind it. There are
no names; entries are called by their index.

## Main definitions

* `Sprb.decode`, `Sprb.format`
-/

namespace Packfile.Sprb

/-- The bytes at the start of an archive. -/
def magic : Bytes := [0x53, 0x50, 0x52, 0x42]

/-- The size of everything in front of the palettes. -/
def headerSize : Nat := 8

/-- The size of a palette. -/
def paletteSize : Nat := 768

/-- The size of a sprite's header. -/
def spriteHeaderSize : Nat := 9

/-- The usual extensions. -/
def extensions : List String := ["sprb", "spr"]

/-- The extension of entries that suggest none. -/
def defaultExtension : String := "spr"

/-- Where a sprite states its length: the pixel bytes, without the header. -/
def spriteLength : Listing.LengthField :=
  { position := 0, width := 4, order := .little, excluded := spriteHeaderSize }

/-- Rates a stream: magic, extension, and room for palettes and slots. -/
def rate (source : Location) : Reader ScoreCard := do
  let card := (ScoreCard.blank.magic (← Reader.leadingBytes 4) magic).extension source extensions
  let slots ← Reader.u16
  let palettes ← Reader.u16
  let paletteBytes ← Checked.product palettes paletteSize
  let slotBytes ← Checked.product slots 4
  let total ← Checked.sum (← Checked.sum headerSize paletteBytes) slotBytes
  return card.sensible (total ≤ (← Reader.length))

/-- Bytes as colours, three to each. -/
def colours : Bytes → Palette
  | red :: green :: blue :: rest => { red, green, blue } :: colours rest
  | _ => []

/-- Reads `count` palettes and keeps them. Their numbers, from `number` on, have 32 bits. -/
def readPalettes : (count number : Nat) → Decode Unit
  | 0, _ => return
  | count + 1, number => do
    let raw ← Reader.bytes paletteSize
    let _ ← Checked.within Word.max32 number
    Decode.addPalette (colours raw)
    readPalettes count (number + 1)

/-- The sprites of the slots from a number on, which is kept in 32 bits. `index` is the number of
sprites before them. -/
def listSprites (source : Location) : (slot index : Nat) → List Nat → Decode (List Entry)
  | _, _, [] => return []
  | slot, index, offset :: rest =>
    if offset = 0 then listSprites source (slot + 1) index rest
    else do
      Reader.checkRange "sprite header" offset spriteHeaderSize
      Decode.progress index offset
      let number ← Checked.within Word.max32 slot
      let entries ← listSprites source (slot + 1) (index + 1) rest
      return { source, offset, properties := [("slot", .int number)] } :: entries

/-- A colour as `#rrggbb`. -/
def colourText (c : Colour) : String :=
  "#" ++ Hex.padded 2 c.red.toNat ++ Hex.padded 2 c.green.toNat ++ Hex.padded 2 c.blue.toNat

/-- Adds what the header of a sprite says, and the first colour of its palette. -/
def describe (palettes : List Palette) (paletteCount : Nat) (entry : Entry) : Reader Entry := do
  Reader.seek (← Checked.sum entry.offset 4)
  let width ← Reader.u16
  let height ← Reader.u16
  let number ← Reader.u8
  match palettes[number]? with
  | none => throw (.exceeds "palette index" number paletteCount)
  | some palette =>
    return entry
      |>.withNumber "width" width
      |>.withNumber "height" height
      |>.withNumber "palette" number
      |>.withProperty "background" (.text (colourText (palette.headD default)))

/-- Reads a directory. -/
def decode (source : Location) : Decode (List Entry) := do
  Reader.skip magic.length
  let slots ← Reader.u16
  let palettes ← Reader.u16
  let paletteCount ← Decode.checkCount palettes paletteSize (← Reader.remaining)
  readPalettes paletteCount.value 0
  let slotCount ← Decode.checkCount slots 4 (← Reader.remaining)
  let offsets ← Reader.offsetTable slotCount 4 .little 1
  let entries ← listSprites source 0 0 offsets
  let scanned ← Listing.scanLengths spriteLength entries
  let entries ← Decode.ofReader (Reader.ofExcept (Listing.orFail scanned))
  let palettes := (← get).context.palettes
  let entries ← entries.mapM fun entry =>
    Decode.ofReader (describe palettes paletteCount.value entry)
  let hinted ← Listing.sniffHints entries
  let entries ← Decode.ofReader (Reader.ofExcept (Listing.orFail hinted))
  return Listing.generate defaultExtension entries

/-- SPRB archives. -/
def format : Format where
  id := "sprb"
  description := "SPRB sprite bank"
  extensions := extensions
  rate := rate
  decode := decode

end Packfile.Sprb
