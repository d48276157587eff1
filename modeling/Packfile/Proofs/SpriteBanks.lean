import Packfile.Format.Sprb
import Packfile.Proofs.GeneratedNames
import Packfile.Proofs.SettledRuns
import Packfile.Proofs.Tables

/-!
# Which streams are sprite banks

A bank is a table of offsets into the stream, and everything else about a sprite stands where its
offset leads. Sprites may overlap or be the same, so the offsets are under no condition together:
each of them on its own has to lead to a header that lies in the stream, with pixels behind it that
do, and with the number of a palette that there is. Here is the list of these conditions, and the
reading of a directory succeeds exactly when they hold.

## Four passes over the same sprites

A decoder goes through the sprites to list the slots in use, to read their lengths, to describe them
and to name them, and only after that it is checked that their data lie in the stream. Each pass is
settled on its own, as a map over the list of sprites, so the entries stay in line with their slots.

## Main definitions

* `Sprb.slotsStart`, `slotValue`, `usedSlots`, `pixelBytes`, `paletteOf` — the fields of a bank
* `Sprb.IsBank` — everything that a bank has to satisfy
* `Sprb.sprite` — the entry of a slot, up to its name

## Main results

* `Sprb.settles_readSprites` — the sprites that are found, and when they are
* `Sprb.readDirectory_isBank` — banks, and only banks, are read, as one entry for each slot in use
-/

namespace Packfile.Sprb

open Run Reading Packfile.Stream Session

variable {bytes : Bytes} {source : Location} {options : Options} {palettes : List Palette}

/-! ### The fields of a bank -/

/-- The number of slots. -/
def slotCount (bytes : Bytes) : ℕ := ByteOrder.little.field 2 bytes 4

/-- The number of palettes. -/
def paletteCount (bytes : Bytes) : ℕ := ByteOrder.little.field 2 bytes 6

/-- Where the palette with a number starts. -/
def paletteStart (number : ℕ) : ℕ := headerSize + paletteSize * number

/-- Where the table of slots starts. -/
def slotsStart (bytes : Bytes) : ℕ := paletteStart (paletteCount bytes)

/-- What is stored in a slot: the offset of its sprite, or 0. -/
def slotValue (bytes : Bytes) (slot : ℕ) : ℕ :=
  ByteOrder.little.field 4 bytes (slotsStart bytes + 4 * slot)

/-- The slots with a sprite. -/
def usedSlots (bytes : Bytes) : List ℕ :=
  (List.range (slotCount bytes)).filter fun slot => slotValue bytes slot ≠ 0

/-- How many pixel bytes the sprite at an offset declares. -/
def pixelBytes (bytes : Bytes) (offset : ℕ) : ℕ := ByteOrder.little.field 4 bytes offset

/-- The number of the palette of the sprite at an offset. -/
def paletteOf (bytes : Bytes) (offset : ℕ) : ℕ := ByteOrder.little.field 1 bytes (offset + 8)

/-- The first colour of the palette with a number. -/
def firstColour (bytes : Bytes) (number : ℕ) : Colour where
  red := bytes.getD (paletteStart number) 0
  green := bytes.getD (paletteStart number + 1) 0
  blue := bytes.getD (paletteStart number + 2) 0

/-- What the sprite at an offset has to satisfy. -/
structure IsSprite (bytes : Bytes) (offset : ℕ) : Prop where
  /-- The header lies in the stream. -/
  header_fits : offset + spriteHeaderSize ≤ bytes.length
  /-- The pixels behind it do. -/
  pixels_fit : offset + (spriteHeaderSize + pixelBytes bytes offset) ≤ bytes.length
  /-- There is the palette. -/
  palette_lt : paletteOf bytes offset < paletteCount bytes

/-- What a bank has to satisfy. -/
structure IsBank (bytes : Bytes) : Prop where
  /-- Header, palettes and slots lie in the stream. -/
  slots_fit : slotsStart bytes + 4 * slotCount bytes ≤ bytes.length
  /-- The slots that are used lead to sprites. -/
  sprites : ∀ slot ∈ usedSlots bytes, IsSprite bytes (slotValue bytes slot)

instance (offset : ℕ) : Decidable (IsSprite bytes offset) :=
  decidable_of_iff (offset + spriteHeaderSize ≤ bytes.length ∧
      offset + (spriteHeaderSize + pixelBytes bytes offset) ≤ bytes.length ∧
      paletteOf bytes offset < paletteCount bytes)
    ⟨fun ⟨hheader, hpixels, hpalette⟩ => ⟨hheader, hpixels, hpalette⟩,
      fun h => ⟨h.header_fits, h.pixels_fit, h.palette_lt⟩⟩

instance : Decidable (IsBank bytes) :=
  decidable_of_iff (slotsStart bytes + 4 * slotCount bytes ≤ bytes.length ∧
      ∀ slot ∈ usedSlots bytes, IsSprite bytes (slotValue bytes slot))
    ⟨fun ⟨hslots, hsprites⟩ => ⟨hslots, hsprites⟩, fun h => ⟨h.slots_fit, h.sprites⟩⟩

/-- The entry of a slot, without a name. -/
def sprite (source : Location) (bytes : Bytes) (slot : ℕ) : Entry where
  source
  offset := slotValue bytes slot
  stored := spriteHeaderSize + pixelBytes bytes (slotValue bytes slot)
  properties :=
    [("slot", .int slot),
      ("width", .int (ByteOrder.little.field 2 bytes (slotValue bytes slot + 4))),
      ("height", .int (ByteOrder.little.field 2 bytes (slotValue bytes slot + 6))),
      ("palette", .int (paletteOf bytes (slotValue bytes slot))),
      ("background",
        .text (colourText (firstColour bytes (paletteOf bytes (slotValue bytes slot)))))]

theorem slotCount_lt (bytes : Bytes) : slotCount bytes < 65536 :=
  ByteOrder.field_lt .little 2 bytes 4

theorem paletteCount_lt (bytes : Bytes) : paletteCount bytes < 65536 :=
  ByteOrder.field_lt .little 2 bytes 6

theorem slotValue_lt (bytes : Bytes) (slot : ℕ) : slotValue bytes slot < 2 ^ 32 :=
  ByteOrder.field_lt .little 4 bytes _

theorem pixelBytes_lt (bytes : Bytes) (offset : ℕ) : pixelBytes bytes offset < 2 ^ 32 :=
  ByteOrder.field_lt .little 4 bytes offset

/-! ### Palettes -/

/-- The palette with a number. -/
def paletteAt (bytes : Bytes) (number : ℕ) : Palette :=
  colours ((bytes.drop (paletteStart number)).take paletteSize)

/-- The palettes in front of the one with a number. -/
def palettesBefore (bytes : Bytes) (number : ℕ) : List Palette :=
  (List.range number).map (paletteAt bytes)

theorem palettesBefore_succ (bytes : Bytes) (number : ℕ) : palettesBefore bytes (number + 1)
    = palettesBefore bytes number ++ [paletteAt bytes number] := by
  rw [palettesBefore, List.range_succ, List.map_append]
  rfl

theorem getElem?_palettesBefore {count number : ℕ} (h : number < count) :
    (palettesBefore bytes count)[number]? = some (paletteAt bytes number) := by
  rw [palettesBefore, List.getElem?_map, List.getElem?_range h]
  rfl

theorem getElem?_palettesBefore_of_le {count number : ℕ} (h : count ≤ number) :
    (palettesBefore bytes count)[number]? = none := by
  rw [List.getElem?_eq_none_iff, palettesBefore, List.length_map, List.length_range]
  exact h

theorem paletteStart_succ (number : ℕ) :
    paletteStart (number + 1) = paletteStart number + paletteSize := by
  rw [paletteStart, paletteStart, Nat.mul_succ, Nat.add_assoc]

/-- A palette that lies in the stream starts with its first colour. -/
theorem headD_paletteAt {number : ℕ} (h : paletteStart (number + 1) ≤ bytes.length) :
    (paletteAt bytes number).headD default = firstColour bytes number := by
  rw [paletteStart_succ, paletteSize] at h
  have hred : paletteStart number < bytes.length := by omega
  have hgreen : paletteStart number + 1 < bytes.length := by omega
  have hblue : paletteStart number + 2 < bytes.length := by omega
  rw [paletteAt, paletteSize, List.drop_eq_getElem_cons hred, List.drop_eq_getElem_cons hgreen,
    List.drop_eq_getElem_cons hblue]
  simp only [firstColour, List.getD_eq_getElem?_getD, List.getElem?_eq_getElem hred,
    List.getElem?_eq_getElem hgreen, List.getElem?_eq_getElem hblue, Option.getD_some]
  rfl

/-- Palettes are read one behind the other. The induction is on those that are left. -/
theorem settles_readPalettes (count number : ℕ) (hstart : paletteStart number ≤ bytes.length)
    (hmax : number + count ≤ 65536) :
    Settles (Over (· = healthyAt bytes (paletteStart number)) options (palettesBefore bytes number))
      (paletteStart (number + count) ≤ bytes.length) ()
      (Over (· = healthyAt bytes (paletteStart (number + count))) options
        (palettesBefore bytes (number + count)))
      (readPalettes count number) := by
  induction count generalizing number with
  | zero => exact settles_pure () hstart
  | succ count ih =>
    have hwithin : Checked.within Word.max32 number = .ok number :=
      Checked.within_of_le (by rw [Word.max32]; omega)
    have hshift : number + (count + 1) = number + 1 + count := by omega
    have hmono : paletteStart (number + 1) ≤ paletteStart (number + 1 + count) := by
      rw [paletteStart, paletteStart, Nat.mul_add paletteSize (number + 1)]
      omega
    rw [readPalettes, hshift]
    refine (settles_ofReader (settles_bytes (by decide))).bind (fun hall => ?_) fun hfits => ?_
    · rw [← paletteStart_succ]
      exact Nat.le_trans hmono hall
    · refine (settles_ofReader (settles_ofExcept hwithin)).then ?_
      refine (settles_addPalette _).then ?_
      rw [← paletteStart_succ] at hfits ⊢
      have h := ih (number + 1) hfits (by omega)
      rw [palettesBefore_succ] at h
      exact h

/-! ### The slots in use -/

/-- The entry of a slot as it is listed first: where it is, and nothing else. -/
def listed (source : Location) (bytes : Bytes) (slot : ℕ) : Entry where
  source
  offset := slotValue bytes slot
  properties := [("slot", .int slot)]

/-- The words of the table are the values of the slots. -/
theorem words_eq (bytes : Bytes) (count place : ℕ) : Tables.words count (bytes.drop place)
    = (List.range count).map fun slot => ByteOrder.little.field 4 bytes (place + 4 * slot) := by
  induction count generalizing place with
  | zero => rfl
  | succ count ih =>
    rw [Tables.words, List.drop_drop, ih, List.range_succ_eq_map, List.map_cons, List.map_map]
    refine List.cons_eq_cons.mpr ⟨rfl, List.map_congr_left fun slot _ => ?_⟩
    rw [Function.comp_apply, Nat.mul_succ, Nat.add_assoc, Nat.add_comm 4]

/-- Slots that are in use are listed if their headers lie in the stream. The induction is on the
slots that are left. -/
theorem settles_listSprites (slot index count : ℕ) (hmax : slot + count ≤ 65536) :
    Settles (Over (IsOver · bytes) options palettes)
      (∀ k ∈ (List.range' slot count).filter fun k => slotValue bytes k ≠ 0,
        slotValue bytes k + spriteHeaderSize ≤ bytes.length)
      (((List.range' slot count).filter fun k => slotValue bytes k ≠ 0).map (listed source bytes))
      (Over (IsOver · bytes) options palettes)
      (listSprites source slot index ((List.range' slot count).map (slotValue bytes))) := by
  induction count generalizing slot index with
  | zero => exact settles_pure [] fun k hk => absurd hk List.not_mem_nil
  | succ count ih =>
    have hrest := fun index => ih (slot + 1) index (by omega)
    rw [List.range'_succ, List.map_cons, List.filter_cons, listSprites]
    by_cases hempty : slotValue bytes slot = 0
    · rw [if_pos hempty, if_neg (by simpa using hempty)]
      exact hrest index
    · rw [if_neg hempty, if_pos (by simpa using hempty)]
      have hrange : slotValue bytes slot + spriteHeaderSize ≤ Word.max := by
        have := slotValue_lt bytes slot
        rw [spriteHeaderSize, Word.max_eq]
        omega
      have hwithin : Checked.within Word.max32 slot = .ok slot :=
        Checked.within_of_le (by rw [Word.max32]; omega)
      refine (settles_ofReader (settles_checkRange _ hrange)).bind
        (fun hall => hall slot List.mem_cons_self) fun hheader => ?_
      refine (settles_report _).then ?_
      refine (settles_ofReader (settles_ofExcept hwithin)).then ?_
      refine (hrest (index + 1)).bind (fun hall k hk => hall k (List.mem_cons_of_mem _ hk))
        fun hheaders => ?_
      exact settles_pure _ (List.forall_mem_cons.mpr ⟨hheader, hheaders⟩)

/-! ### What a sprite says of itself -/

variable {e : Entry}

/-- The entry with the length that its sprite declares. -/
def measured (bytes : Bytes) (e : Entry) : Entry :=
  e.withStored (pixelBytes bytes e.offset + spriteHeaderSize)

/-- The entry with what the header of its sprite says, and the first colour of the palette. -/
def described (bytes : Bytes) (e : Entry) : Entry :=
  e |>.withNumber "width" (ByteOrder.little.field 2 bytes (e.offset + 4))
    |>.withNumber "height" (ByteOrder.little.field 2 bytes (e.offset + 6))
    |>.withNumber "palette" (paletteOf bytes e.offset)
    |>.withProperty "background"
      (.text (colourText ((paletteAt bytes (paletteOf bytes e.offset)).headD default)))

theorem settles_scanLength (hoffset : e.offset < 2 ^ 32) :
    Settles (IsOver · bytes) (e.offset + 4 ≤ bytes.length) (measured bytes e) (IsOver · bytes)
      (Listing.scanLength spriteLength e) := by
  have hmax := Word.max_eq
  have hstart : Word.satAdd e.offset spriteLength.position = e.offset :=
    Word.satAdd_of_le (show e.offset + 0 ≤ Word.max by omega)
  have hadd : Word.add? (pixelBytes bytes e.offset) spriteLength.excluded
      = some (pixelBytes bytes e.offset + spriteHeaderSize) := by
    have hlt := pixelBytes_lt bytes e.offset
    refine Word.add?_eq_some.mpr ⟨rfl, ?_⟩
    rw [spriteHeaderSize]
    omega
  rw [Listing.scanLength, hstart]
  refine (settles_checkRange _ (show e.offset + 4 ≤ Word.max by omega)).bind id fun hfits => ?_
  refine (settles_seek e.offset).bind (fun _ => by omega) fun _ => ?_
  refine settles_little32.bind id fun _ => ?_
  refine (settles_ofExcept (Checked.difference_of_le (by decide))).then ?_
  have hstated : Word.add? (ByteOrder.little.field 4 bytes e.offset) spriteLength.excluded
      = some (pixelBytes bytes e.offset + spriteHeaderSize) := hadd
  rw [hstated]
  refine (settles_pure _ hfits).mono (fun _ h => ?_) fun _ h => h
  rw [h]
  exact isOver_healthyAt _ _

theorem settles_describe (hoffset : e.offset < 2 ^ 32) :
    Settles (IsOver · bytes)
      (e.offset + spriteHeaderSize ≤ bytes.length ∧ paletteOf bytes e.offset < paletteCount bytes)
      (described bytes e) (IsOver · bytes)
      (describe (palettesBefore bytes (paletteCount bytes)) (paletteCount bytes) e) := by
  have hsum : Checked.sum e.offset 4 = .ok (e.offset + 4) :=
    Checked.sum_of_le (by rw [Word.max_eq]; omega)
  rw [describe, spriteHeaderSize]
  refine (settles_ofExcept hsum).then ?_
  refine (settles_seek _).bind (fun h => by omega) fun _ => ?_
  refine settles_u16.bind (fun h => by omega) fun _ => ?_
  refine settles_u16.bind (fun h => by omega) fun _ => ?_
  refine settles_u8.bind (fun h => by omega) fun hfits => ?_
  have hnumber : ByteOrder.little.field 1 bytes (e.offset + 4 + 2 + 2)
      = paletteOf bytes e.offset := rfl
  rw [hnumber]
  rcases Nat.lt_or_ge (paletteOf bytes e.offset) (paletteCount bytes) with hlt | hge
  · rw [getElem?_palettesBefore hlt]
    refine (settles_pure _ ⟨by omega, hlt⟩).mono (fun _ h => ?_) fun _ h => h
    rw [h]
    exact isOver_healthyAt _ _
  · rw [getElem?_palettesBefore_of_le hge]
    exact settles_throw _ _ fun h => Nat.not_lt.mpr hge h.2

/-! ### All sprites -/

/-- The first steps of a decode: the sprites, as far as they describe themselves. -/
def readSprites (source : Location) : Decode (List Entry) := do
  Reader.skip magic.length
  let slots ← Reader.u16
  let palettes ← Reader.u16
  let paletteCount ← Decode.checkCount palettes paletteSize (← Reader.remaining)
  readPalettes paletteCount.value 0
  let slotCount ← Decode.checkCount slots 4 (← Reader.remaining)
  let offsets ← Reader.offsetTable slotCount 4 .little 1
  let entries ← listSprites source 0 0 offsets
  let entries ← Decode.ofReader (entries.mapM (Listing.scanLength spriteLength))
  let palettes := (← get).context.palettes
  entries.mapM fun entry => Decode.ofReader (describe palettes paletteCount.value entry)

/-- The last steps: what the content suggests, and names. -/
def nameSprites (entries : List Entry) : Decode (List Entry) := do
  let hinted ← Listing.sniffHints entries
  let entries ← Decode.ofReader (Reader.ofExcept (Listing.orFail hinted))
  return Listing.generate defaultExtension entries

theorem decode_eq : decode source = readSprites source >>= nameSprites := by
  simp only [decode, readSprites, Listing.scanLengths, Listing.updateEach_bind, bind_assoc]
  rfl

theorem settles_offsetTable {count place : ℕ} :
    Settles (· = healthyAt bytes place) (4 * count ≤ bytes.length - place)
      ((List.range count).map fun slot => ByteOrder.little.field 4 bytes (place + 4 * slot))
      (IsOver · bytes) (Reader.offsetTable ⟨count⟩ 4 .little 1) where
  exists_ok s hs hle := by
    subst hs
    refine ⟨_, Tables.offsetTable_eq_ok.mpr ⟨?_, (words_eq bytes count place).symm, rfl⟩⟩
    rwa [ahead_healthyAt, List.length_drop]
  of_ok s hs offsets t ht := by
    subst hs
    obtain ⟨hle, rfl, rfl⟩ := Tables.offsetTable_eq_ok.mp ht
    rw [ahead_healthyAt, List.length_drop] at hle
    exact ⟨hle, words_eq bytes count place, isOver_advance (isOver_healthyAt _ _)⟩

/-- Sprites that were listed are measured and described when their headers lie in the stream and
there are the palettes. -/
theorem settles_describeSprites (source : Location) (slots : List ℕ) :
    Settles (Over (IsOver · bytes) options (palettesBefore bytes (paletteCount bytes)))
      (∀ slot ∈ slots, slotValue bytes slot + spriteHeaderSize ≤ bytes.length ∧
        paletteOf bytes (slotValue bytes slot) < paletteCount bytes)
      (((slots.map (listed source bytes)).map (measured bytes)).map (described bytes))
      (Over (IsOver · bytes) options (palettesBefore bytes (paletteCount bytes)))
      (do
        let entries ← Decode.ofReader
          ((slots.map (listed source bytes)).mapM (Listing.scanLength spriteLength))
        let palettes := (← get).context.palettes
        entries.mapM fun entry =>
          Decode.ofReader (describe palettes (paletteCount bytes) entry)) := by
  have hoffset : ∀ e ∈ slots.map (listed source bytes), e.offset < 2 ^ 32 ∧
      ∃ slot ∈ slots, e.offset = slotValue bytes slot := by
    intro e he
    obtain ⟨slot, hslot, rfl⟩ := List.mem_map.mp he
    exact ⟨slotValue_lt bytes slot, slot, hslot, rfl⟩
  refine (settles_ofReader (settles_mapM fun e he => settles_scanLength (hoffset e he).1)).bind
    (fun h e he => ?_) fun _ => ?_
  · obtain ⟨-, slot, hslot, heq⟩ := hoffset e he
    have hheader := (h slot hslot).1
    rw [spriteHeaderSize] at hheader
    omega
  refine settles_get (f := fun palettes => List.mapM (fun e => Decode.ofReader
    (describe palettes (paletteCount bytes) e)) _) ?_
  refine (settles_mapM fun e he => settles_ofReader (settles_describe ?_)).congr ?_
  · obtain ⟨e', he', rfl⟩ := List.mem_map.mp he
    exact (hoffset e' he').1
  · rw [List.forall_mem_map, List.forall_mem_map]
    rfl

/-- The sprites are read when they are there, with the palettes that they ask for. -/
theorem settles_readSprites (source : Location)
    (hcounts : headerSize ≤ bytes.length → slotCount bytes ≤ options.maxEntries ∧
      paletteCount bytes ≤ options.maxEntries) :
    Settles (Over (· = healthyAt bytes 0) options [])
      (slotsStart bytes + 4 * slotCount bytes ≤ bytes.length ∧
        ∀ slot ∈ usedSlots bytes, slotValue bytes slot + spriteHeaderSize ≤ bytes.length ∧
          paletteOf bytes (slotValue bytes slot) < paletteCount bytes)
      ((((usedSlots bytes).map (listed source bytes)).map (measured bytes)).map (described bytes))
      (Over (IsOver · bytes) options (palettesBefore bytes (paletteCount bytes)))
      (readSprites source) := by
  have hslots := slotCount_lt bytes
  have hpalettes := paletteCount_lt bytes
  have hmax := Word.max_eq
  have hstart : slotsStart bytes = 8 + 768 * paletteCount bytes := rfl
  have hbehind : paletteStart (paletteCount bytes) = slotsStart bytes := rfl
  rw [readSprites]
  refine (settles_ofReader (settles_skip_start (by decide))).bind
    (fun h => show 4 ≤ _ by omega) fun _ => ?_
  refine (settles_ofReader settles_u16).bind (fun h => show 4 + 2 ≤ _ by omega) fun _ => ?_
  refine (settles_ofReader settles_u16).bind (fun h => show 4 + 2 + 2 ≤ _ by omega)
    fun hheader => ?_
  obtain ⟨hslotsAllowed, hpalettesAllowed⟩ := hcounts hheader
  refine (settles_ofReader settles_remaining).then ?_
  refine (settles_checkCount hpalettesAllowed
    (show paletteCount bytes * 768 ≤ Word.max by omega)).bind
    (fun h => show paletteCount bytes * 768 ≤ _ - 8 by omega) fun _ => ?_
  refine (settles_readPalettes (paletteCount bytes) 0 hheader (by omega)).bind ?_
    fun hpalettes => ?_
  · rw [Nat.zero_add]
    exact fun h => by omega
  rw [Nat.zero_add] at hpalettes ⊢
  refine (settles_ofReader settles_remaining).then ?_
  refine (settles_checkCount hslotsAllowed
    (show slotCount bytes * 4 ≤ Word.max by omega)).bind (fun h => ?_) fun hfits => ?_
  · show slotCount bytes * 4 ≤ bytes.length - slotsStart bytes
    omega
  refine (settles_ofReader settles_offsetTable).bind (fun h => ?_) fun _ => ?_
  · show 4 * slotCount bytes ≤ bytes.length - slotsStart bytes
    omega
  have hused : usedSlots bytes
      = (List.range' 0 (slotCount bytes)).filter fun slot => slotValue bytes slot ≠ 0 := by
    rw [usedSlots, List.range_eq_range']
  have hlist : Settles
      (Over (IsOver · bytes) options (palettesBefore bytes (paletteCount bytes))) _ _ _
      (listSprites source 0 0 ((List.range' 0 (slotCount bytes)).map (slotValue bytes))) :=
    settles_listSprites 0 0 (slotCount bytes) (by omega)
  rw [← hused, ← List.range_eq_range'] at hlist
  refine hlist.bind (fun h slot hslot => (h.2 slot hslot).1) fun _ => ?_
  refine (settles_describeSprites source (usedSlots bytes)).congr ?_
  exact ⟨fun h => ⟨by omega, h⟩, fun h => h.2⟩

/-- A slot whose palette lies in the stream is described as it should be. -/
theorem described_listed {slot : ℕ} (hfits : slotsStart bytes ≤ bytes.length)
    (hpalette : paletteOf bytes (slotValue bytes slot) < paletteCount bytes) :
    described bytes (measured bytes (listed source bytes slot)) = sprite source bytes slot := by
  have hstart : paletteStart (paletteOf bytes (slotValue bytes slot) + 1) ≤ bytes.length := by
    refine Nat.le_trans (Nat.add_le_add_left (Nat.mul_le_mul_left paletteSize ?_) headerSize) hfits
    exact hpalette
  have hcolour := headD_paletteAt hstart
  rw [sprite, ← hcolour, Nat.add_comm]
  rfl

/-! ### Names and hints -/

/-- On storage that does not fail every entry gets a name. -/
theorem exists_nameSprites {x : Session} (hs : x.stream.IsOver bytes) (entries : List Entry) :
    ∃ found y, nameSprites entries x = .ok found y ∧
      List.Forall₂ (fun e e' => ∃ hint name, e' = { e with hint, name := some name })
        entries found ∧
      ((∀ e ∈ entries, e.name = none) → (found.map Entry.name).Nodup) ∧ y.context = x.context := by
  obtain ⟨hinted, t, ht, hhints, -⟩ := Listing.exists_sniffHints entries hs.healthy
  refine ⟨Listing.generate defaultExtension hinted, { x with stream := t }, ?_, ?_, ?_, rfl⟩
  · rw [nameSprites, bind_of_ok (liftReader_eq_ok.mpr ⟨t, ht, rfl⟩)]
    rfl
  · have hnames := Listing.forall₂_generate defaultExtension hinted
    refine forall₂_trans hhints hnames ?_
    rintro e _ _ ⟨hint, rfl⟩ ⟨name, rfl⟩
    exact ⟨hint, name, rfl⟩
  · intro hnone
    refine Listing.nodup_generate defaultExtension fun e he => ?_
    obtain ⟨e', he', hint, rfl⟩ := exists_of_forall₂ hhints he
    exact hnone e' he'

/-! ### Whole banks -/

/-- The decoder finds the sprites of a stream when they can be read, whether or not their pixels lie
in it. -/
theorem of_decode {x y : Session} {found : List Entry}
    (hx : Over (· = healthyAt bytes 0) options [] x)
    (hcounts : headerSize ≤ bytes.length → slotCount bytes ≤ options.maxEntries ∧
      paletteCount bytes ≤ options.maxEntries)
    (h : decode source x = .ok found y) :
    slotsStart bytes + 4 * slotCount bytes ≤ bytes.length ∧
      (∀ slot ∈ usedSlots bytes, slotValue bytes slot + spriteHeaderSize ≤ bytes.length ∧
        paletteOf bytes (slotValue bytes slot) < paletteCount bytes) ∧
      List.Forall₂ (fun slot e => ∃ hint name,
        e = { sprite source bytes slot with hint, name := some name }) (usedSlots bytes) found ∧
      (found.map Entry.name).Nodup ∧ y.context.options = options := by
  rw [decode_eq, bind_eq_ok] at h
  obtain ⟨entries, z, hread, hname⟩ := h
  obtain ⟨⟨hfits, hslots⟩, rfl, hz⟩ :=
    (settles_readSprites source hcounts).of_ok x hx entries z hread
  obtain ⟨found', y', hy', hforall, hnodup, hcontext⟩ := exists_nameSprites hz.stream_is
    ((((usedSlots bytes).map (listed source bytes)).map (measured bytes)).map (described bytes))
  rw [hname] at hy'
  cases hy'
  refine ⟨hfits, hslots, ?_, hnodup ?_, ?_⟩
  · rw [List.map_map, List.map_map, List.forall₂_map_left_iff] at hforall
    refine forall₂_imp_of_mem hforall fun slot hslot e _ he => ?_
    rwa [Function.comp_apply, Function.comp_apply,
      described_listed (by omega) (hslots slot hslot).2] at he
  · simp only [List.forall_mem_map]
    exact fun _ _ => rfl
  · rw [hcontext, hz.options_eq]

theorem exists_decode {x : Session} (source : Location)
    (hx : Over (· = healthyAt bytes 0) options [] x)
    (hcounts : headerSize ≤ bytes.length → slotCount bytes ≤ options.maxEntries ∧
      paletteCount bytes ≤ options.maxEntries)
    (h : IsBank bytes) : ∃ found y, decode source x = .ok found y := by
  have hsettles := settles_readSprites source hcounts
  have hslots : ∀ slot ∈ usedSlots bytes, slotValue bytes slot + spriteHeaderSize ≤ bytes.length ∧
      paletteOf bytes (slotValue bytes slot) < paletteCount bytes :=
    fun slot hslot => ⟨(h.sprites slot hslot).header_fits, (h.sprites slot hslot).palette_lt⟩
  obtain ⟨z, hread⟩ := hsettles.exists_ok x hx ⟨h.slots_fit, hslots⟩
  obtain ⟨-, -, hz⟩ := hsettles.of_ok x hx _ z hread
  obtain ⟨found, y, hname, -⟩ := exists_nameSprites hz.stream_is _
  exact ⟨found, y, by rw [decode_eq, bind_of_ok hread, hname]⟩

/-- Where the data of a sprite end. -/
theorem stop_sprite (source : Location) (slot : ℕ) : (sprite source bytes slot).stop
    = slotValue bytes slot + (spriteHeaderSize + pixelBytes bytes (slotValue bytes slot)) := by
  have hoffset := slotValue_lt bytes slot
  have hpixels := pixelBytes_lt bytes (slotValue bytes slot)
  refine Word.satAdd_of_le ?_
  show slotValue bytes slot + (9 + pixelBytes bytes (slotValue bytes slot)) ≤ Word.max
  rw [Word.max_eq]
  omega

/-- **Exactly the banks are read**, and each slot in use gives one entry, in the order of the slots:
where it leads, as long as the sprite says, and with what the sprite's header says of it and the
first colour of its palette. No two of the names are the same. -/
theorem readDirectory_isBank (source : Location) {x : Session} (hs : x.stream.IsOver bytes)
    (hsource : source.length = bytes.length) (hsort : x.context.options.sortByOffset = false)
    (hcounts : headerSize ≤ bytes.length → slotCount bytes ≤ x.context.options.maxEntries ∧
      paletteCount bytes ≤ x.context.options.maxEntries) :
    ((∃ found y, format.readDirectory source x = .ok found y) ↔ IsBank bytes) ∧
    ∀ found y, format.readDirectory source x = .ok found y →
      List.Forall₂ (fun slot e => ∃ hint name,
        e = { sprite source bytes slot with hint, name := some name }) (usedSlots bytes) found ∧
      (found.map Entry.name).Nodup := by
  have hx : Over (· = healthyAt bytes 0) x.context.options [] x.started :=
    ⟨(isOver_goto hs).eq_healthyAt, rfl, rfl⟩
  refine ⟨⟨?_, fun hbank => ?_⟩, ?_⟩
  · -- what has been read is a bank
    rintro ⟨found, y, h⟩
    obtain ⟨entries, hdecode, hfinish⟩ := Format.readDirectory_eq_ok.mp h
    obtain ⟨hfits, hslots, hforall, -, -⟩ := of_decode hx hcounts hdecode
    obtain ⟨-, hbounds⟩ := Listing.finish_eq_ok.mp hfinish
    refine ⟨hfits, fun slot hslot => ⟨(hslots slot hslot).1, ?_, (hslots slot hslot).2⟩⟩
    obtain ⟨e, he, hint, name, rfl⟩ := exists_of_forall₂ hforall.flip hslot
    rw [← stop_sprite source, ← hsource]
    exact (hbounds _ he).2
  · -- a bank is read
    obtain ⟨entries, y, hdecode⟩ := exists_decode source hx hcounts hbank
    obtain ⟨-, -, hforall, -, -⟩ := of_decode hx hcounts hdecode
    refine ⟨_, y, Format.readDirectory_eq_ok.mpr ⟨entries, hdecode,
      Listing.finish_eq_ok.mpr ⟨rfl, fun e he => ?_⟩⟩⟩
    obtain ⟨slot, hslot, hint, name, rfl⟩ := exists_of_forall₂ hforall he
    have hsprite := hbank.sprites slot hslot
    have hstop : (sprite source bytes slot).stop ≤ source.length := by
      rw [stop_sprite, hsource]
      exact hsprite.pixels_fit
    have hoffset : slotValue bytes slot ≤ source.length := by
      rw [hsource]
      exact Nat.le_trans (Nat.le_add_right _ _) hsprite.header_fits
    exact ⟨hoffset, hstop⟩
  · -- and its entries are the sprites
    intro found y h
    obtain ⟨entries, hdecode, hfinish⟩ := Format.readDirectory_eq_ok.mp h
    obtain ⟨-, -, hforall, hnodup, hoptions⟩ := of_decode hx hcounts hdecode
    obtain ⟨rfl, -⟩ := Listing.finish_eq_ok.mp hfinish
    rw [hoptions, hsort]
    exact ⟨hforall, hnodup⟩

/-- A bank of three slots. The first is not used, and the others lead to the same sprite. -/
def sharedSprite : Bytes :=
  magic ++ ByteOrder.little.encode 2 3 ++ ByteOrder.little.encode 2 1 ++
    List.replicate paletteSize 0x20 ++
    [0, 788, 788].flatMap (ByteOrder.little.encode 4) ++
    ByteOrder.little.encode 4 2 ++ ByteOrder.little.encode 2 1 ++ ByteOrder.little.encode 2 2 ++
    [0, 0x0A, 0x0B]

/-- It is read as two entries that differ in their slots and names. Without the last pixel it is not
read. -/
theorem readDirectory_isBank_shared :
    (∃ found y, format.readDirectory (.memory 799) { stream := .ofBytes sharedSprite }
        = .ok found y ∧
      found.map (fun e => e.properties.get? "slot") = [some (.int 1), some (.int 2)] ∧
      (found.map Entry.name).Nodup) ∧
    ¬ ∃ found y, format.readDirectory (.memory 798) { stream := .ofBytes sharedSprite.dropLast }
        = .ok found y := by
  have hwhole := readDirectory_isBank (.memory 799)
    (x := { stream := .ofBytes sharedSprite }) (isOver_ofBytes _) (by decide +kernel) rfl
    (by decide +kernel)
  have hshort := readDirectory_isBank (.memory 798)
    (x := { stream := .ofBytes sharedSprite.dropLast }) (isOver_ofBytes _) (by decide +kernel) rfl
    (by decide +kernel)
  constructor
  · obtain ⟨found, y, hread⟩ := hwhole.1.mpr (by decide +kernel)
    obtain ⟨hforall, hnodup⟩ := hwhole.2 found y hread
    have hslots : usedSlots sharedSprite = [1, 2] := by decide +kernel
    rw [hslots] at hforall
    refine ⟨found, y, hread, ?_, hnodup⟩
    cases hforall with
    | cons hfirst hrest =>
      cases hrest with
      | cons hsecond hrest =>
        cases hrest
        obtain ⟨_, _, rfl⟩ := hfirst
        obtain ⟨_, _, rfl⟩ := hsecond
        rfl
  · rw [hshort.1]
    decide +kernel

end Packfile.Sprb
