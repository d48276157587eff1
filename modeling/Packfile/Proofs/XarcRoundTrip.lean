import Packfile.Format.Xarc
import Packfile.Proofs.Listings
import Packfile.Proofs.Names
import Packfile.Proofs.Tables

/-!
# XARC archives, written and read

An archive is written in three passes: the names, the data with their padding, and then the records
that tell where both are. The reader goes the other way. It takes the records first, finds the block
of names behind them by their number alone, and never looks at the padding.

## Three lists in step

The passes run over one list of edits and agree on nothing but its order. `of_nameBlock`,
`of_dataBlock` and `of_tableBytes` say what each of them writes as a function of lists that are in
step with the edits: names, contents and records. Reading back is then one lemma for each list.

## Which edits

`IsEdit` admits what can be done to an archive that is open: an entry of its directory, under its
own or another plain name, with its own or other content, and entries that are new. Entries may be
left out, repeated and put in another order. A directory that was read holds nothing but plain names
and ranges of the stream (`of_readDirectory`), which is why its entries can be written again.

## Main definitions

* `Xarc.IsEdit`, `Xarc.Carries` — what may be written, and which content it stands for
* `Xarc.carried` — the number of unknown meaning that an entry carries

## Main results

* `Xarc.readDirectory_of_edits` — what was written is read
-/

namespace Packfile.Xarc

open Run Reading

/-! ### The data -/

section

variable {out : Bytes} {contents : List Bytes} {position : ℕ}

/-- Where data start and how long they are, the first at or behind `position`. -/
def dataPlaces : ℕ → List Bytes → List (ℕ × ℕ)
  | _, [] => []
  | position, content :: contents =>
    let start := position + Buffer.padding position alignment
    (start, content.length) :: dataPlaces (start + content.length) contents

/-- Data with their padding, the first at or behind `position`. -/
def dataBytes : ℕ → List Bytes → Bytes
  | _, [] => []
  | position, content :: contents =>
    let padding := Buffer.padding position alignment
    List.replicate padding 0 ++ content ++
      dataBytes (position + padding + content.length) contents

@[simp] theorem length_dataPlaces (position : ℕ) (contents : List Bytes) :
    (dataPlaces position contents).length = contents.length := by
  induction contents generalizing position with
  | nil => rfl
  | cons content contents ih => rw [dataPlaces, List.length_cons, ih, List.length_cons]

theorem le_of_mem_dataPlaces {p : ℕ × ℕ} (h : p ∈ dataPlaces position contents) :
    position ≤ p.1 ∧ p.1 + p.2 ≤ position + (dataBytes position contents).length := by
  induction contents generalizing position with
  | nil => exact absurd h List.not_mem_nil
  | cons content contents ih =>
    simp only [dataBytes, List.length_append, List.length_replicate]
    rcases List.mem_cons.mp h with rfl | hmem
    · dsimp only
      omega
    · have := ih hmem
      omega

theorem pairwise_dataPlaces (position : ℕ) (contents : List Bytes) :
    (dataPlaces position contents).Pairwise fun p q => p.1 ≤ q.1 := by
  induction contents generalizing position with
  | nil => exact .nil
  | cons content contents ih =>
    refine .cons (fun q hq => ?_) (ih _)
    exact Nat.le_trans (Nat.le_add_right _ _) (le_of_mem_dataPlaces hq).1

/-- Each content is found at its place, which is a multiple of the alignment. -/
theorem forall₂_dataPlaces (h : out.drop position = dataBytes position contents) :
    List.Forall₂ (fun p content => (out.drop p.1).take p.2 = content ∧ p.2 = content.length ∧
      alignment ∣ p.1) (dataPlaces position contents) contents := by
  induction contents generalizing position with
  | nil => exact .nil
  | cons content contents ih =>
    rw [dataBytes, List.append_assoc] at h
    have hdata : out.drop (position + Buffer.padding position alignment)
        = content ++ dataBytes
          (position + Buffer.padding position alignment + content.length) contents := by
      rw [← List.drop_drop, h, List.drop_left' (List.length_replicate ..)]
    refine .cons ⟨?_, rfl, Buffer.dvd_padding (by decide) position⟩ (ih ?_)
    · dsimp only
      rw [hdata, List.take_left]
    · rw [← List.drop_drop, hdata, List.drop_left]

end

/-! ### The records -/

section

variable {s t : Stream} {r : Record} {rest : Bytes}

/-- All fields fit into 32 bits. -/
structure Record.IsNarrow (r : Record) : Prop where
  offset_lt : r.offset < 2 ^ 32
  length_lt : r.length < 2 ^ 32
  nameOffset_lt : r.nameOffset < 2 ^ 32
  reserved_lt : r.reserved < 2 ^ 32

@[simp] theorem length_recordBytes (r : Record) : (recordBytes r).length = recordSize := by
  simp [recordBytes, recordSize]

/-- The data of a record that is read lie in the stream. -/
theorem ensures_readRecord {source : Bytes × ByteOrder × Option ℕ} :
    Ensures Stream.source source
      (fun r => r.offset + r.length ≤ source.1.length ∧ r.offset + r.length ≤ Word.max)
      readRecord :=
  keeps_u32.then fun _ => keeps_u32.then fun _ => keeps_u32.then fun _ => keeps_u32.then fun _ =>
    (ensures_checkRange _ _ _).bind fun _ h => ensures_pure h

/-- A record that was written is read back where its data lie in the stream. -/
theorem readRecord_of_ahead (hr : r.IsNarrow) (hlittle : s.order = .little)
    (hfit : r.offset + r.length ≤ s.length) (h : s.ahead = recordBytes r ++ rest) :
    readRecord s = .ok r (s.advance (recordBytes r).length) := by
  have hmax : r.offset + r.length ≤ Word.max := by
    have := hr.offset_lt
    have := hr.length_lt
    rw [Word.max_eq]
    omega
  simp only [recordBytes, List.flatMap_cons, List.flatMap_nil, List.append_assoc] at h
  have h₁ := ahead_of_word h
  have h₂ := ahead_of_word h₁
  have h₃ := ahead_of_word h₂
  have hcheck : Reader.checkRange "entry" r.offset r.length
      ((((s.advance 4).advance 4).advance 4).advance 4)
        = .ok () ((((s.advance 4).advance 4).advance 4).advance 4) :=
    checkRange_eq_ok.mpr ⟨hfit, hmax, rfl⟩
  rw [readRecord, bind_of_ok (u32_of_ahead hlittle hr.offset_lt h),
    bind_of_ok (u32_of_ahead (s := s.advance 4) hlittle hr.length_lt h₁),
    bind_of_ok (u32_of_ahead (s := (s.advance 4).advance 4) hlittle hr.nameOffset_lt h₂),
    bind_of_ok (u32_of_ahead (s := ((s.advance 4).advance 4).advance 4) hlittle hr.reserved_lt h₃),
    bind_of_ok hcheck, length_recordBytes]
  rfl

end

/-! ### What a directory that was read consists of -/

section

variable {source : Location} {x y : Session} {bytes : Bytes} {entries found : List Entry}

/-- An entry of an archive of the given bytes: a range of them, as it is, under a plain name. -/
structure IsListed (source : Location) (bytes : Bytes) (e : Entry) : Prop where
  source_eq : e.source = source
  codec_eq : e.codec = []
  decoded_eq : e.decoded = e.stored
  fits : e.FitsIn bytes
  named : ∃ name, e.name = some name ∧ Utf8.IsPlain name

/-- What the entry of a record whose data lie in the stream is like. -/
theorem isListed_toEntry {r : Record} {name : String} (hfit : r.offset + r.length ≤ bytes.length)
    (hmax : r.offset + r.length ≤ Word.max) (hname : Utf8.IsPlain name) :
    IsListed source bytes (toEntry source r name) :=
  ⟨rfl, rfl, rfl, ⟨hfit, hmax⟩, name, rfl, hname⟩

/-- **Whatever the bytes are**, a directory that is decoded has no more entries than are allowed, and
they are ranges of the stream under plain names. -/
theorem ensures_decode (source : Location)
    (i : (Bytes × ByteOrder × Option ℕ) × Options × FileTree) :
    Ensures Session.input i
      (fun found => found.length ≤ i.2.1.maxEntries ∧ ∀ e ∈ found, IsListed source i.1.1 e)
      (decode source) := by
  refine (keeps_liftReader (keeps_skip _)).then fun _ => ?_
  refine (keeps_liftReader keeps_u32).then fun declared => ?_
  refine (keeps_liftReader keeps_remaining).then fun _ => ?_
  refine (ensures_checkCount _ _ _).bind fun count ⟨hcount, hle⟩ => ?_
  subst hcount
  refine (Tables.ensures_entries ensures_readRecord).bind fun records ⟨hlength, hrecords⟩ => ?_
  refine (keeps_liftReader keeps_offset).then fun _ => ?_
  refine (keeps_liftReader keeps_length).then fun _ => ?_
  refine (keeps_liftExcept_decode _).then fun _ => ?_
  refine (ensures_liftReader (Names.ensures_namesFromBlob _ _ _)).bind fun names ⟨_, hnames⟩ => ?_
  refine ensures_pure ⟨?_, fun e he => ?_⟩
  · rw [List.length_zipWith]
    exact Nat.le_trans (Nat.min_le_left _ _) (Nat.le_trans hlength hle)
  · rw [← List.map_uncurry_zip_eq_zipWith] at he
    obtain ⟨⟨r, name⟩, hmem, rfl⟩ := List.mem_map.mp he
    obtain ⟨hr, hname⟩ := List.of_mem_zip hmem
    obtain ⟨hlen, hmax⟩ := hrecords r hr
    exact isListed_toEntry hlen hmax (hnames name hname)

/-- **A directory that was read** holds ranges of the stream under plain names. -/
theorem of_readDirectory (hx : x.stream.IsOver bytes)
    (h : format.readDirectory source x = .ok entries y) :
    ∀ e ∈ entries, IsListed source bytes e := by
  obtain ⟨found, hdecode, hfinish⟩ := Format.readDirectory_eq_ok.mp h
  obtain ⟨-, -, hlisted⟩ := (ensures_decode source x.input).of_ok x.input_started hdecode
  rw [show x.input.1.1 = bytes from hx.holds] at hlisted
  rw [(Listing.finish_eq_ok.mp hfinish).1]
  intro e he
  exact hlisted e ((Listing.perm_arrange _ _).mem_iff.mp he)

end

/-! ### What the encoder writes -/

section

variable {edits : List EditedEntry} {bytes out : Bytes} {s t : Stream}

/-- The block of names holds a name for each edit. -/
theorem of_nameBlock {k : ℕ} {block : Bytes} {offsets : List ℕ}
    (h : nameBlock k edits = .ok (block, offsets)) :
    ∃ names, edits.map (fun e => e.entry.name) = names.map some ∧
      block = names.flatMap Names.terminated ∧ offsets = Names.starts k names ∧
        ∀ n ∈ offsets, n ≤ Word.max32 := by
  induction edits generalizing k block offsets with
  | nil =>
    cases h
    exact ⟨[], rfl, rfl, rfl, fun n hn => absurd hn List.not_mem_nil⟩
  | cons e edits ih =>
    simp only [nameBlock, except_bind_eq_ok, Checked.narrow_eq_ok, name_eq_ok, except_pure_eq_ok,
      Prod.mk.injEq] at h
    obtain ⟨_, ⟨rfl, hle⟩, name, hname, ⟨rest, restOffsets⟩, hrest, rfl, rfl⟩ := h
    obtain ⟨names, hnames, rfl, rfl, hall⟩ := ih hrest
    refine ⟨name :: names, ?_, rfl, rfl, ?_⟩
    · rw [List.map_cons, List.map_cons, hname, hnames]
    · rw [List.forall_mem_cons]
      exact ⟨hle, hall⟩

/-- The block of data holds a content for each edit. What is known of the contents may rest on
something that holds of the stream and that reading them keeps. -/
theorem of_dataBlock {P : EditedEntry → Bytes → Prop} {inv : Stream → Prop} {position : ℕ}
    {block : Bytes} {places : List (ℕ × ℕ)}
    (hcontent : ∀ e ∈ edits, ∀ s t content, inv s →
      contentBytes e s = .ok content t → P e content ∧ inv t)
    (hs : inv s) (h : dataBlock position edits s = .ok (block, places) t) :
    ∃ contents, List.Forall₂ P edits contents ∧ block = dataBytes position contents ∧
      places = dataPlaces position contents := by
  induction edits generalizing position block places s with
  | nil =>
    cases h
    exact ⟨[], .nil, rfl, rfl⟩
  | cons e edits ih =>
    simp only [dataBlock, bind_eq_ok, pure_eq_ok, Prod.mk.injEq] at h
    obtain ⟨content, u, hread, ⟨rest, restPlaces⟩, v, hrest, ⟨rfl, rfl⟩, rfl⟩ := h
    obtain ⟨hP, hu⟩ := hcontent e List.mem_cons_self s u content hs hread
    obtain ⟨contents, hall, rfl, rfl⟩ :=
      ih (fun e' he' => hcontent e' (List.mem_cons_of_mem _ he')) hu hrest
    exact ⟨content :: contents, .cons hP hall, rfl, rfl⟩

/-- The number of unknown meaning that an entry carries, and 0 if it carries none. -/
def carried (e : Entry) : ℤ :=
  match e.properties.get? reservedKey with
  | some (.int value) => value
  | _ => 0

/-- A number that can be written is written as it is. -/
theorem reserved_eq_ok {e : Entry} {n : ℕ} (h : reserved e = .ok n) :
    carried e = n ∧ n ≤ Word.max32 := by
  have hother : Except.ok 0 = (.ok n : Except Error ℕ) → (0 : ℤ) = n ∧ n ≤ Word.max32 := by
    rintro ⟨⟩
    exact ⟨rfl, by decide⟩
  rw [reserved] at h
  rw [carried]
  cases hvalue : e.properties.get? reservedKey with
  | none =>
    rw [hvalue] at h
    exact hother h
  | some property =>
    rw [hvalue] at h
    cases property with
    | int value =>
      obtain ⟨hn, hle⟩ := Checked.narrow_eq_ok.mp h
      by_cases hneg : value < 0
      · rw [if_pos hneg] at hle
        exact absurd hle (by decide)
      · rw [if_neg hneg] at hn hle
        dsimp only
        omega
    | text value => exact hother h
    | bytes value => exact hother h

/-- The table holds a record for each edit. -/
theorem of_tableBytes {offsets : List ℕ} {places : List (ℕ × ℕ)} {table : Bytes}
    (hoffsets : edits.length = offsets.length) (hplaces : edits.length = places.length)
    (hle : ∀ n ∈ offsets, n ≤ Word.max32) (h : tableBytes edits offsets places = .ok table) :
    ∃ records : List Record, table = records.flatMap recordBytes ∧
      records.map Record.nameOffset = offsets ∧
      records.map (fun r => (r.offset, r.length)) = places ∧
      records.map (fun r => (r.reserved : ℤ)) = edits.map (fun e => carried e.entry) ∧
      ∀ r ∈ records, r.IsNarrow := by
  induction edits generalizing offsets places table with
  | nil =>
    cases offsets with
    | cons offset offsets => cases hoffsets
    | nil =>
      cases places with
      | cons place places => cases hplaces
      | nil =>
        cases h
        exact ⟨[], rfl, rfl, rfl, rfl, fun r hr => absurd hr List.not_mem_nil⟩
  | cons e edits ih =>
    cases offsets with
    | nil => cases hoffsets
    | cons offset offsets =>
      cases places with
      | nil => cases hplaces
      | cons place places =>
        simp only [tableBytes, toRecord, except_bind_eq_ok, Checked.narrow_eq_ok,
          except_pure_eq_ok] at h
        obtain ⟨_, ⟨n, hn, _, ⟨rfl, hoffset⟩, _, ⟨rfl, hlength⟩, rfl⟩, rest, hrest, rfl⟩ := h
        rw [List.forall_mem_cons] at hle
        obtain ⟨records, rfl, rfl, rfl, hreserved, hnarrow⟩ :=
          ih (Nat.succ.inj hoffsets) (Nat.succ.inj hplaces) hle.2 hrest
        obtain ⟨hcarried, hmax⟩ := reserved_eq_ok hn
        refine ⟨⟨place.1, place.2, offset, n⟩ :: records, rfl, rfl, rfl, ?_, ?_⟩
        · rw [List.map_cons, List.map_cons, hreserved, hcarried]
        · rw [List.forall_mem_cons]
          exact ⟨⟨Nat.lt_succ_of_le hoffset, Nat.lt_succ_of_le hlength, Nat.lt_succ_of_le hle.1,
            Nat.lt_succ_of_le hmax⟩, hnarrow⟩

/-- Where the block of names starts. -/
def namesStart (records : List Record) : ℕ := headerSize + recordSize * records.length

/-- Where the data may start. -/
def dataStart (records : List Record) (names : List String) : ℕ :=
  namesStart records + (names.flatMap Names.terminated).length

/-- The parts of an archive follow each other: records, names and contents that are in step. What
the names are made of is left open. -/
structure HasLayout (out : Bytes) (records : List Record) (names : List String)
    (contents : List Bytes) : Prop where
  /-- The number of records fits into its field. -/
  count_le : records.length ≤ Word.max32
  /-- Every field of a record fits. -/
  narrow : ∀ r ∈ records, r.IsNarrow
  /-- The records tell where the names start. -/
  offsets_eq : records.map Record.nameOffset = Names.starts 0 names
  /-- The records tell where the data are. -/
  places_eq : records.map (fun r => (r.offset, r.length))
    = dataPlaces (dataStart records names) contents
  /-- The parts follow each other. -/
  out_eq : out = magic ++ ByteOrder.little.encode 4 records.length ++ records.flatMap recordBytes ++
    names.flatMap Names.terminated ++ dataBytes (dataStart records names) contents

/-- An archive of records, names and contents that are in step. -/
structure IsArchive (out : Bytes) (records : List Record) (names : List String)
    (contents : List Bytes) : Prop extends HasLayout out records names contents where
  /-- Every name can be ended by a zero. -/
  plain : ∀ name ∈ names, Utf8.IsPlain name

theorem length_nameStarts (k : ℕ) (names : List String) :
    (Names.starts k names).length = names.length := by
  induction names generalizing k with
  | nil => rfl
  | cons name names ih => rw [Names.starts, List.length_cons, ih, List.length_cons]

/-- **What is written** has records, names and contents in step with the edits, whatever the names
are. -/
theorem hasLayout_of_encode {P : EditedEntry → Bytes → Prop} {inv : Stream → Prop}
    (hcontent : ∀ e ∈ edits, ∀ s t content, inv s →
      contentBytes e s = .ok content t → P e content ∧ inv t)
    (hs : inv s) (h : encode edits s = .ok out t) :
    ∃ records names contents, HasLayout out records names contents ∧
      edits.map (fun e => e.entry.name) = names.map some ∧
      records.map (fun r => (r.reserved : ℤ)) = edits.map (fun e => carried e.entry) ∧
      List.Forall₂ P edits contents := by
  simp only [encode, bind_eq_ok, liftExcept_eq_ok, Checked.narrow_eq_ok, pure_eq_ok] at h
  obtain ⟨_, _, ⟨⟨rfl, hcount⟩, rfl⟩, ⟨block, offsets⟩, _, ⟨hnames, rfl⟩, ⟨data, places⟩, u, hdata,
    table, _, ⟨htable, rfl⟩, rfl, rfl⟩ := h
  obtain ⟨names, hnamesEq, rfl, rfl, hle⟩ := of_nameBlock hnames
  obtain ⟨contents, hall, rfl, rfl⟩ := of_dataBlock hcontent hs hdata
  have hlength : edits.length = names.length := by
    have := congrArg List.length hnamesEq
    rwa [List.length_map, List.length_map] at this
  obtain ⟨records, rfl, hoffsets, hplaces, hreserved, hnarrow⟩ := of_tableBytes
    (by rw [length_nameStarts, hlength]) (by rw [length_dataPlaces, hall.length_eq]) hle htable
  have hrecords : records.length = edits.length := by
    have := congrArg List.length hreserved
    rwa [List.length_map, List.length_map] at this
  refine ⟨records, names, contents, ⟨?_, hnarrow, hoffsets, ?_, ?_⟩, hnamesEq, hreserved, hall⟩
  · rw [hrecords]
    exact hcount
  · rw [dataStart, namesStart, hrecords]
    exact hplaces
  · rw [dataStart, namesStart, hrecords]

/-- What is written under plain names is an archive of records, names and contents in step with the
edits. -/
theorem of_encode {P : EditedEntry → Bytes → Prop} {inv : Stream → Prop}
    (hcontent : ∀ e ∈ edits, ∀ s t content, inv s →
      contentBytes e s = .ok content t → P e content ∧ inv t)
    (hplain : ∀ e ∈ edits, ∀ name, e.entry.name = some name → Utf8.IsPlain name)
    (hs : inv s) (h : encode edits s = .ok out t) :
    ∃ records names contents, IsArchive out records names contents ∧
      edits.map (fun e => e.entry.name) = names.map some ∧
      records.map (fun r => (r.reserved : ℤ)) = edits.map (fun e => carried e.entry) ∧
      List.Forall₂ P edits contents := by
  obtain ⟨records, names, contents, hlayout, hnames, hreserved, hall⟩ :=
    hasLayout_of_encode hcontent hs h
  have hplainNames : ∀ name ∈ names, Utf8.IsPlain name := by
    intro name hname
    have hmem : some name ∈ edits.map fun e => e.entry.name := by
      rw [hnames]
      exact List.mem_map_of_mem hname
    obtain ⟨e, he, heq⟩ := List.mem_map.mp hmem
    exact hplain e he name heq
  exact ⟨records, names, contents, ⟨hlayout, hplainNames⟩, hnames, hreserved, hall⟩

end

/-! ### Reading an archive -/

section

variable {source : Location} {x : Session} {out : Bytes} {records : List Record}
  {names : List String} {contents : List Bytes}

/-- The bytes behind the header, behind the records and behind the names. -/
theorem HasLayout.drop_eq (h : HasLayout out records names contents) :
    out.drop headerSize = records.flatMap recordBytes ++ (names.flatMap Names.terminated ++
        dataBytes (dataStart records names) contents) ∧
      out.drop (namesStart records) = names.flatMap Names.terminated ++
        dataBytes (dataStart records names) contents ∧
      out.drop (dataStart records names) = dataBytes (dataStart records names) contents := by
  have hheader : (magic ++ ByteOrder.little.encode 4 records.length).length = headerSize := by
    rw [List.length_append, ByteOrder.length_encode]
    rfl
  have htable : (records.flatMap recordBytes).length = recordSize * records.length :=
    Tables.length_flatMap length_recordBytes records
  have h₁ : out.drop headerSize = records.flatMap recordBytes ++
      (names.flatMap Names.terminated ++ dataBytes (dataStart records names) contents) := by
    conv_lhs => rw [h.out_eq]
    rw [List.append_assoc, List.append_assoc, List.drop_left' hheader]
  have h₂ : out.drop (namesStart records) = names.flatMap Names.terminated ++
      dataBytes (dataStart records names) contents := by
    rw [namesStart, ← List.drop_drop, h₁, List.drop_left' htable]
  refine ⟨h₁, h₂, ?_⟩
  conv_lhs => rw [dataStart]
  rw [← List.drop_drop, h₂, List.drop_left]

theorem IsArchive.length_eq (h : IsArchive out records names contents) :
    out.length = dataStart records names + (dataBytes (dataStart records names) contents).length := by
  have htable : (records.flatMap recordBytes).length = recordSize * records.length :=
    Tables.length_flatMap length_recordBytes records
  conv_lhs => rw [h.out_eq]
  simp only [List.length_append, htable, ByteOrder.length_encode, dataStart, namesStart, headerSize,
    magic, List.length_cons, List.length_nil]

/-- The data end where the last of them ends. -/
theorem exists_last_place (position : ℕ) (hne : contents ≠ []) :
    ∃ p ∈ dataPlaces position contents,
      position + (dataBytes position contents).length = p.1 + p.2 := by
  induction contents generalizing position with
  | nil => exact absurd rfl hne
  | cons content contents ih =>
    simp only [dataPlaces, dataBytes, List.length_append, List.length_replicate]
    cases contents with
    | nil =>
      refine ⟨_, List.mem_cons_self, ?_⟩
      simp only [dataBytes, List.length_nil]
      omega
    | cons content' contents =>
      obtain ⟨p, hp, heq⟩ := ih (position + Buffer.padding position alignment
        + content.length) (List.cons_ne_nil _ _)
      refine ⟨p, List.mem_cons_of_mem _ hp, ?_⟩
      omega

/-- The data of each record lie in the archive. -/
theorem IsArchive.fits (h : IsArchive out records names contents) {r : Record}
    (hr : r ∈ records) : r.offset + r.length ≤ out.length := by
  have hmem : (r.offset, r.length) ∈ dataPlaces (dataStart records names) contents := by
    rw [← h.places_eq]
    exact List.mem_map_of_mem (f := fun r : Record => (r.offset, r.length)) hr
  rw [h.length_eq]
  exact (le_of_mem_dataPlaces hmem).2

/-- An archive is no longer than its 32-bit numbers can say: the block of names could be, but then
the data behind it would have no offset. -/
theorem IsArchive.length_le (h : IsArchive out records names contents) (hnames :
    names.length = records.length) : out.length ≤ Word.max := by
  have hword := Word.max_eq
  by_cases hne : contents = []
  · have hrecords : records = [] := by
      have := congrArg List.length h.places_eq
      rw [hne, List.length_map] at this
      exact List.length_eq_zero_iff.mp this
    rw [hrecords] at hnames
    rw [h.length_eq, hne, hrecords, List.length_eq_zero_iff.mp hnames]
    decide
  · obtain ⟨p, hp, heq⟩ := exists_last_place (dataStart records names) hne
    rw [← h.places_eq] at hp
    obtain ⟨r, hr, rfl⟩ := List.mem_map.mp hp
    have hoffset := (h.narrow r hr).offset_lt
    have hlength := (h.narrow r hr).length_lt
    rw [h.length_eq, heq]
    dsimp only
    omega

/-- Magic and count are read, and the stream is left where the records start. -/
theorem IsArchive.exists_count (h : IsArchive out records names contents)
    (hnames : names.length = records.length) (hx : x.stream.IsOver out)
    (hstart : x.stream.position = 0) :
    (liftM (Reader.skip magic.length) : Decode Unit) x
        = .ok () { x with stream := { x.stream with position := 4 } } ∧
      (liftM Reader.u32 : Decode ℕ) { x with stream := { x.stream with position := 4 } }
        = .ok records.length { x with stream := { x.stream with position := 8 } } := by
  constructor
  · have hlength := h.length_eq
    have hsize : dataStart records names
      = 8 + 16 * records.length + (names.flatMap Names.terminated).length := rfl
    have hsat : Word.satAdd x.stream.position magic.length = 4 := by
      rw [hstart]
      rfl
    refine liftReader_eq_ok.mpr ⟨_, skip_eq_ok.mpr ⟨?_, rfl⟩, by rw [hsat]⟩
    rw [hsat, hx.length_eq]
    omega
  · have hahead : ({ x.stream with position := 4 } : Stream).ahead
        = ByteOrder.little.encode 4 records.length ++ (records.flatMap recordBytes ++
          (names.flatMap Names.terminated ++ dataBytes (dataStart records names) contents)) := by
      rw [(Stream.isOver_goto hx).ahead_eq]
      conv_lhs => rw [h.out_eq]
      simp only [List.append_assoc]
      exact List.drop_left' rfl
    refine liftReader_eq_ok.mpr ⟨_, u32_of_ahead hx.little ?_ hahead, rfl⟩
    exact Nat.lt_succ_of_le h.count_le

/-- The names are read from behind the records to the end of the stream. -/
theorem IsArchive.exists_names (h : IsArchive out records names contents)
    (hnames : names.length = records.length) (hx : x.stream.IsOver out)
    (hposition : x.stream.position = namesStart records) :
    Checked.difference x.stream.length x.stream.position = .ok (out.length - namesStart records) ∧
      ∃ t, Reader.namesFromBlob (namesStart records) (out.length - namesStart records)
        (records.map Record.nameOffset) x.stream = .ok names t ∧ t.IsOver out := by
  obtain ⟨-, hblob, -⟩ := h.toHasLayout.drop_eq
  have hlength := h.length_eq
  have hmax := h.length_le hnames
  have hstarts : dataStart records names
    = namesStart records + (names.flatMap Names.terminated).length := rfl
  constructor
  · rw [hposition, hx.length_eq]
    exact Checked.difference_of_le (by omega)
  · rw [h.offsets_eq]
    exact Names.namesFromBlob_of_starts (namesStart records) (out.length - namesStart records) hx
      h.plain (by omega) (by omega) (by omega) hblob

/-- **An archive is decoded** as the entries of its records under its names. -/
theorem exists_decode (source : Location) (h : IsArchive out records names contents)
    (hnames : names.length = records.length) (hx : x.stream.IsOver out)
    (hstart : x.stream.position = 0) (hcount : records.length ≤ x.context.options.maxEntries) :
    ∃ y, decode source x = .ok (records.zipWith (toEntry source) names) y ∧ y.input = x.input := by
  obtain ⟨hskip, hfield⟩ := h.exists_count hnames hx hstart
  have hover : ({ x.stream with position := 8 } : Stream).IsOver out := Stream.isOver_goto hx
  have hleft : (liftM Reader.remaining : Decode ℕ)
      { x with stream := { x.stream with position := 8 } }
        = .ok (out.length - 8) { x with stream := { x.stream with position := 8 } } := by
    refine liftRemaining_eq_ok.mpr ⟨?_, rfl⟩
    rw [Stream.remaining, hover.length_eq]
  have hchecked : Decode.checkCount records.length recordSize (out.length - 8)
      { x with stream := { x.stream with position := 8 } }
        = .ok ⟨records.length⟩ { x with stream := { x.stream with position := 8 } } := by
    have hlength := h.length_eq
    have hsize : dataStart records names
      = 8 + 16 * records.length + (names.flatMap Names.terminated).length := rfl
    refine checkCount_of_le hcount ?_
    rw [recordSize]
    omega
  obtain ⟨y, htable, hstream, hquiet⟩ := Tables.readTable_of_ahead
    (x := { x with stream := { x.stream with position := 8 } }) recordBytes readRecord records
    (fun r hr s rest hs ha => by
      have hs : s.IsOver out := hover.of_source hs
      exact readRecord_of_ahead (h.narrow r hr) hs.little
        (by rw [hs.length_eq]; exact h.fits hr) ha)
    (by rw [hover.ahead_eq]; exact h.toHasLayout.drop_eq.1)
  have hy : y.stream.IsOver out := by
    rw [hstream]
    exact Stream.isOver_advance hover
  have hposition : y.stream.position = namesStart records := by
    rw [hstream, Stream.position_advance, Tables.length_flatMap length_recordBytes]
    rfl
  obtain ⟨hdifference, t, hread, ht⟩ := h.exists_names hnames hy hposition
  refine ⟨{ y with stream := t }, ?_, ?_⟩
  · rw [decode, bind_of_ok hskip, bind_of_ok hfield, bind_of_ok hleft, bind_of_ok hchecked]
    refine (bind_of_ok htable).trans ?_
    rw [bind_of_ok (liftOffset_eq_ok.mpr ⟨rfl, rfl⟩),
      bind_of_ok (liftLength_eq_ok.mpr ⟨rfl, rfl⟩),
      bind_of_ok (liftExcept_decode_eq_ok.mpr ⟨hdifference, rfl⟩), hposition,
      bind_of_ok (liftReader_eq_ok.mpr ⟨t, hread, rfl⟩)]
    rfl
  · have hinput := Session.input_of_quiet hquiet
    have hsource : t.source = y.stream.source := by rw [ht.source_eq, hy.source_eq]
    rw [← show y.input = x.input from hinput]
    exact Prod.ext hsource rfl

end

/-! ### Edits -/

section

variable {listing : List Entry} {edits : List EditedEntry} {edit : EditedEntry}
  {bytes out content : Bytes} {s t : Stream} {source : Location}

/-- What may be written when an archive with the directory `listing` is open. -/
inductive IsEdit (listing : List Entry) : EditedEntry → Prop
  /-- An entry of the directory, with its own or other content. -/
  | own {e : Entry} (h : e ∈ listing) (content : EntryContent) : IsEdit listing ⟨e, content⟩
  /-- An entry of the directory under another name. -/
  | renamed {e : Entry} (h : e ∈ listing) {name : String} (hname : Utf8.IsPlain name)
      (content : EntryContent) : IsEdit listing ⟨e.rename name, content⟩
  /-- An entry that is new, under a name and with content of its own. -/
  | added {e : Entry} {name : String} (he : e.name = some name) (hname : Utf8.IsPlain name)
      (found : Bytes) : IsEdit listing (.replace e found)

/-- The content that an edit stands for: the one it was given, or what its entry reads as in the
archive of `bytes` that is open. -/
def Carries (listing : List Entry) (bytes : Bytes) (edit : EditedEntry) (content : Bytes) : Prop :=
  match edit.content with
  | .replaced found => content = found
  | .kept => ∀ (i : ℕ) (e : Entry), listing[i]? = some e → e.data = edit.entry.data →
      ∀ (a : Archive) (files : FileTree), a.entries = listing → a.stream.IsOver bytes →
        (a.readEntry files i).1 = .ok content

theorem IsEdit.isPlain (h : IsEdit listing edit)
    (hlisting : ∀ e ∈ listing, IsListed source bytes e) {name : String}
    (hname : edit.entry.name = some name) : Utf8.IsPlain name := by
  cases h with
  | own h content =>
    obtain ⟨name', hname', hplain⟩ := (hlisting _ h).named
    rw [hname'] at hname
    cases hname
    exact hplain
  | renamed h hplain content =>
    cases hname
    exact hplain
  | added he hplain found =>
    rw [EditedEntry.replace, he] at hname
    cases hname
    exact hplain

/-- An edit that keeps its content refers to the data of an entry of the directory. -/
theorem IsEdit.exists_of_kept (h : IsEdit listing edit) (hkept : edit.content = .kept) :
    ∃ e ∈ listing, edit.entry.data = e.data := by
  cases h with
  | own h content => exact ⟨_, h, rfl⟩
  | renamed h hplain content => exact ⟨_, h, rfl⟩
  | added he hplain found => cases hkept

theorem data_eq_iff {e e' : Entry} : e'.data = e.data ↔ e'.source = e.source ∧
    e'.offset = e.offset ∧ e'.stored = e.stored ∧ e'.decoded = e.decoded ∧ e'.codec = e.codec := by
  simp only [Entry.data, Prod.mk.injEq]

/-- What is stored in the archive that was opened, and said to be the content, is copied. -/
theorem contentBytes_of_copied (hkept : edit.content = .kept) (hcodec : edit.entry.codec = [])
    (hprimary : edit.entry.source.isPrimary = true) :
    contentBytes edit = Reader.preserve edit.entry.offset edit.entry.stored := by
  rw [contentBytes, hkept]
  dsimp only
  rw [hcodec, hprimary]
  rfl

/-- What is written for an edit is the content that it stands for. -/
theorem carries_of_contentBytes (hprimary : source.isPrimary = true)
    (hlisting : ∀ e ∈ listing, IsListed source bytes e) (hedit : IsEdit listing edit)
    (hs : s.IsOver bytes) (h : contentBytes edit s = .ok content t) :
    Carries listing bytes edit content ∧ t.IsOver bytes := by
  rw [Carries]
  cases hedited : edit.content with
  | replaced found =>
    rw [contentBytes, hedited] at h
    obtain ⟨rfl, rfl⟩ := pure_eq_ok.mp h
    exact ⟨rfl, hs⟩
  | kept =>
    obtain ⟨e, he, hdata⟩ := hedit.exists_of_kept hedited
    have hlisted := hlisting e he
    obtain ⟨hsource, hoffset, hstored, -, hcodec⟩ := data_eq_iff.mp hdata
    rw [contentBytes_of_copied hedited (hcodec.trans hlisted.codec_eq)
      (by rw [hsource, hlisted.source_eq, hprimary]), hoffset, hstored] at h
    obtain ⟨rfl, ht⟩ := of_preserve hs h
    refine ⟨?_, ht⟩
    intro i e' he' hdata' a files hentries hover
    have hlisted' := hlisting e' (List.mem_of_getElem? he')
    obtain ⟨-, hoffset', hstored', -, -⟩ := data_eq_iff.mp (hdata'.trans hdata)
    rw [Archive.readEntry_of_isOver hover (by rw [hentries, he'])
      (by rw [hlisted'.source_eq, hprimary]) hlisted'.fits,
      Entry.contentIn_of_identity hlisted'.codec_eq hlisted'.decoded_eq hlisted'.fits.stop_le,
      Entry.storedIn, hoffset', hstored']

end

/-! ### What was written is read -/

section

variable {bytes out : Bytes} {source target : Location} {x y z : Session} {listing : List Entry}
  {edits : List EditedEntry} {s t : Stream}

theorem map_zipWith_toEntry {records : List Record} {names : List String}
    (h : names.length = records.length) (source : Location) :
    (records.zipWith (toEntry source) names).map (fun e => (e.offset, e.stored))
      = records.map fun r => (r.offset, r.length) := by
  induction records generalizing names with
  | nil => rfl
  | cons r records ih =>
    cases names with
    | nil => cases h
    | cons name names =>
      rw [List.zipWith_cons_cons, List.map_cons, List.map_cons, ih (Nat.succ.inj h)]
      rfl

/-- The entries of an archive are in order, and lie in it. -/
theorem finish_entries {records : List Record} {names : List String} {contents : List Bytes}
    (h : IsArchive out records names contents) (hnames : names.length = records.length)
    (hlength : source.length = out.length) (sorted : Bool) :
    Listing.finish sorted (records.zipWith (toEntry source) names)
      = .ok (records.zipWith (toEntry source) names) := by
  have hexists : ∀ e ∈ records.zipWith (toEntry source) names,
      ∃ r ∈ records, ∃ name, e = toEntry source r name := by
    intro e he
    rw [← List.map_uncurry_zip_eq_zipWith] at he
    obtain ⟨⟨r, name⟩, hmem, rfl⟩ := List.mem_map.mp he
    exact ⟨r, (List.of_mem_zip hmem).1, name, rfl⟩
  refine Listing.finish_eq_ok.mpr ⟨(Listing.arrange_of_rising source ?_ ?_).symm, ?_⟩
  · intro e he
    obtain ⟨r, -, name, rfl⟩ := hexists e he
    rfl
  · have hpairwise : ((records.zipWith (toEntry source) names).map
        fun e => (e.offset, e.stored)).Pairwise fun p q => p.1 ≤ q.1 := by
      rw [map_zipWith_toEntry hnames, h.places_eq]
      exact pairwise_dataPlaces _ _
    rwa [List.pairwise_map] at hpairwise
  · intro e he
    obtain ⟨r, hr, name, rfl⟩ := hexists e he
    have hfits : r.offset + r.length ≤ source.length := by
      rw [hlength]
      exact h.fits hr
    exact ⟨Nat.le_trans (Nat.le_add_right _ _) hfits,
      Nat.le_trans (Nat.min_le_left _ _) hfits⟩

/-- An archive is read as an entry for each record. -/
theorem IsArchive.exists_readDirectory {records : List Record} {names : List String}
    {contents : List Bytes} (h : IsArchive out records names contents)
    (hnames : names.length = records.length) (hz : z.stream.IsOver out)
    (hlength : source.length = out.length)
    (hcount : records.length ≤ z.context.options.maxEntries) :
    ∃ entries w, format.readDirectory source z = .ok entries w ∧
      entries.length = records.length := by
  obtain ⟨w, hdecode, -⟩ := exists_decode (x := z.started) source h hnames (Stream.isOver_goto hz) rfl
    hcount
  refine ⟨_, w, Format.readDirectory_eq_ok.mpr ⟨_, hdecode, finish_entries h hnames hlength _⟩, ?_⟩
  rw [List.length_zipWith, hnames, Nat.min_self]

/-- The data of an archive are where its records say, at multiples of four. -/
theorem contentIn_toEntry (source : Location) {records : List Record} {names : List String}
    {contents : List Bytes} (h : IsArchive out records names contents)
    (hnames : names.length = records.length) {i : ℕ} {r : Record} {content : Bytes}
    (hr : records[i]? = some r) (hcontent : contents[i]? = some content) (name : String) :
    4 ∣ r.offset ∧ r.length = content.length ∧ (toEntry source r name).FitsIn out ∧
      (toEntry source r name).contentIn out = .ok content := by
  have hplace : (dataPlaces (dataStart records names) contents)[i]? = some (r.offset, r.length) := by
    rw [← h.places_eq, List.getElem?_map, hr]
    rfl
  obtain ⟨hpiece, hstored, hdvd⟩ :=
    of_getElem? (forall₂_dataPlaces h.toHasLayout.drop_eq.2.2) hplace hcontent
  have hfits := h.fits (List.mem_of_getElem? hr)
  have hmax := h.length_le hnames
  refine ⟨hdvd, hstored, ⟨hfits, Nat.le_trans hfits hmax⟩, ?_⟩
  rw [Entry.contentIn_of_identity rfl rfl hfits]
  exact congrArg Except.ok hpiece

/-- **What was written is read.** The entries come back in the order of the edits, each under its
name and with the number that it carried, its data at a multiple of four, and it reads as the
content that was written. -/
theorem readDirectory_of_edits (hx : x.stream.IsOver bytes) (hsource : source.isPrimary = true)
    (hlisting : format.readDirectory source x = .ok listing y)
    (hedits : ∀ edit ∈ edits, IsEdit listing edit) (hs : s.IsOver bytes)
    (h : encode edits s = .ok out t) (hz : z.stream.IsOver out)
    (htarget : target.isPrimary = true) (hlength : target.length = out.length)
    (hcount : edits.length ≤ z.context.options.maxEntries) :
    ∃ entries w, format.readDirectory target z = .ok entries w ∧
      entries.length = edits.length ∧
      ∀ (i : ℕ) (e : Entry) (edit : EditedEntry), entries[i]? = some e → edits[i]? = some edit →
        e.name = edit.entry.name ∧ 4 ∣ e.offset ∧
        e.properties.get? "reserved" = some (.int (carried edit.entry)) ∧
        ∃ content, Carries listing bytes edit content ∧ e.stored = content.length ∧
          e.decoded = content.length ∧
          ∀ (a : Archive) (files : FileTree), a.entries = entries → a.stream.IsOver out →
            (a.readEntry files i).1 = .ok content := by
  have hlisted := of_readDirectory hx hlisting
  obtain ⟨records, names, contents, harchive, hnames, hreserved, hcontents⟩ :=
    of_encode (P := Carries listing bytes)
      (fun e he s t content hs => carries_of_contentBytes hsource hlisted (hedits e he) hs)
      (fun e he name => (hedits e he).isPlain hlisted) hs h
  have hrecordsLength : records.length = edits.length := by
    have := congrArg List.length hreserved
    rwa [List.length_map, List.length_map] at this
  have hnamesLength : names.length = records.length := by
    have := congrArg List.length hnames
    rw [List.length_map, List.length_map] at this
    omega
  obtain ⟨w, hdecode, -⟩ := exists_decode (x := z.started) target harchive hnamesLength
    (Stream.isOver_goto hz) rfl (by rw [hrecordsLength]; exact hcount)
  refine ⟨_, w, Format.readDirectory_eq_ok.mpr
    ⟨_, hdecode, finish_entries harchive hnamesLength hlength _⟩, ?_, ?_⟩
  · rw [List.length_zipWith, hnamesLength, Nat.min_self, hrecordsLength]
  intro i e edit he hedit
  rw [List.getElem?_zipWith_eq_some] at he
  obtain ⟨r, name, hr, hname, rfl⟩ := he
  obtain ⟨content, hcontent⟩ : ∃ content, contents[i]? = some content := by
    have hi := (List.getElem?_eq_some_iff.mp hedit).1
    rw [hcontents.length_eq] at hi
    exact ⟨_, List.getElem?_eq_getElem hi⟩
  -- what the lists that are in step say of this index
  have hnameEq : edit.entry.name = some name := by
    have := congrArg (·[i]?) hnames
    simpa only [List.getElem?_map, hedit, hname, Option.map_some, Option.some.injEq] using this
  have hreservedEq : (r.reserved : ℤ) = carried edit.entry := by
    have := congrArg (·[i]?) hreserved
    simpa only [List.getElem?_map, hedit, hr, Option.map_some, Option.some.injEq] using this
  obtain ⟨hdvd, hstored, hfits, hread⟩ :=
    contentIn_toEntry target harchive hnamesLength hr hcontent name
  refine ⟨hnameEq.symm, hdvd, ?_, content, of_getElem? hcontents hedit hcontent, hstored, hstored,
    fun a files hentries hover => ?_⟩
  · rw [← hreservedEq]
    rfl
  · have hget : a.entries[i]? = some (toEntry target r name) := by
      rw [hentries, List.getElem?_zipWith_eq_some]
      exact ⟨r, name, hr, hname, rfl⟩
    rw [Archive.readEntry_of_isOver hover hget htarget hfits, hread]

/-- An archive of one entry. -/
def single : Bytes :=
  magic ++ [1, 0, 0, 0] ++ [28, 0, 0, 0, 2, 0, 0, 0, 0, 0, 0, 0, 7, 0, 0, 0] ++
    [0x61, 0, 0, 0, 0x68, 0x69]

/-- An archive of that entry under another name and, once more, with other content. -/
def double : Bytes :=
  magic ++ [2, 0, 0, 0] ++ [44, 0, 0, 0, 2, 0, 0, 0, 0, 0, 0, 0, 7, 0, 0, 0] ++
    [48, 0, 0, 0, 1, 0, 0, 0, 2, 0, 0, 0, 7, 0, 0, 0] ++ [0x62, 0, 0x61, 0] ++
    [0x68, 0x69, 0, 0, 0x21]

/-- The record of the one entry. -/
def singleRecord : Record := ⟨28, 2, 0, 7⟩

theorem isArchive_single : IsArchive single [singleRecord] ["a"] [[0x68, 0x69]] := by
  refine ⟨⟨by decide, ?_, by decide, by decide, by decide⟩, ?_⟩
  · intro r hr
    cases List.mem_singleton.mp hr
    exact ⟨by decide, by decide, by decide, by decide⟩
  · intro name hname
    cases List.mem_singleton.mp hname
    decide

/-- The archive of one entry is open, and the archive of two is written and read. -/
theorem readDirectory_of_edits_two :
    ∃ entries w, format.readDirectory (.memory 49) { stream := .ofBytes double } = .ok entries w ∧
      entries.length = 2 := by
  obtain ⟨y, hdecode, -⟩ := exists_decode
    (x := ({ stream := .ofBytes single } : Session).started) (.memory 30) isArchive_single rfl
    (Stream.isOver_ofBytes single) rfl (by decide)
  have hlisting : format.readDirectory (.memory 30) { stream := .ofBytes single }
      = .ok [toEntry (.memory 30) singleRecord "a"] y :=
    Format.readDirectory_eq_ok.mpr ⟨_, hdecode, finish_entries isArchive_single rfl rfl _⟩
  have hedits : ∀ edit ∈ [EditedEntry.keep ((toEntry (.memory 30) singleRecord "a").rename "b"),
      EditedEntry.replace (toEntry (.memory 30) singleRecord "a") [0x21]],
      IsEdit [toEntry (.memory 30) singleRecord "a"] edit := by
    rw [List.forall_mem_cons, List.forall_mem_singleton]
    exact ⟨.renamed List.mem_cons_self (by decide) .kept,
      .own List.mem_cons_self (.replaced [0x21])⟩
  have hencode : ∃ t, encode
      [EditedEntry.keep ((toEntry (.memory 30) singleRecord "a").rename "b"),
        EditedEntry.replace (toEntry (.memory 30) singleRecord "a") [0x21]] (.ofBytes single)
          = .ok double t := ⟨_, rfl⟩
  obtain ⟨t, hencode⟩ := hencode
  have htarget : (Location.memory 49).isPrimary = true := rfl
  obtain ⟨entries, w, h, hlength, -⟩ := readDirectory_of_edits (z := { stream := .ofBytes double })
    (Stream.isOver_ofBytes single) rfl hlisting hedits (Stream.isOver_ofBytes single) hencode
    (Stream.isOver_ofBytes double) htarget rfl (by decide)
  exact ⟨entries, w, h, hlength⟩

end

end Packfile.Xarc
