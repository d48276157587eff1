import Packfile.Format.Ofs
import Packfile.Proofs.Listings
import Packfile.Proofs.Tables

/-!
# Offset lists, written and read

An offset list has neither header nor count: the first offset of its table says how long the table
is. Writing and reading are inverse all the same, in both orders.

## One table

`places k contents` is where contents lie that follow each other from `k` on. The writer's offsets
are its first components with the end behind them, and the reader's lengths are its second
components, so both directions are statements about `places`: that `Listing.lengths` of the one
is the other, and that the pieces of a byte string between rising offsets make up its range.

## Main definitions

* `Ofs.places` — offsets and lengths of contents that follow each other
* `Ofs.tableEnd` — the last offset of the table that a byte string starts with

## Main results

* `Ofs.encode_of_readDirectory` — a directory that was read is written as its bytes
* `Ofs.readDirectory_of_encode` — contents that were written are read
* `Ofs.encode_inverse` — both
-/

namespace Packfile.Ofs

open Run Reading

variable {bytes out : Bytes} {contents : List Bytes} {offsets lens : List ℕ} {k stop : ℕ}

/-! ### Contents that follow each other -/

/-- Where contents start and how long they are, when the first one starts at `k`. -/
def places : ℕ → List Bytes → List (ℕ × ℕ)
  | _, [] => []
  | k, content :: contents => (k, content.length) :: places (k + content.length) contents

theorem starts_eq (k : ℕ) (contents : List Bytes) :
    starts k contents = (places k contents).map Prod.fst ++ [k + contents.flatten.length] := by
  induction contents generalizing k with
  | nil => rfl
  | cons content contents ih =>
    rw [starts, ih, places, List.map_cons, List.cons_append, List.flatten_cons, List.length_append,
      Nat.add_assoc]

@[simp] theorem length_places (k : ℕ) (contents : List Bytes) :
    (places k contents).length = contents.length := by
  induction contents generalizing k with
  | nil => rfl
  | cons content contents ih => rw [places, List.length_cons, ih, List.length_cons]

theorem length_starts (k : ℕ) (contents : List Bytes) :
    (starts k contents).length = contents.length + 1 := by
  rw [starts_eq, List.length_append, List.length_map, length_places, List.length_singleton]

/-- A content starts behind all that come before it. -/
theorem getElem?_places (k i : ℕ) (contents : List Bytes) :
    (places k contents)[i]? = contents[i]?.map fun content =>
      (k + ((contents.take i).map List.length).sum, content.length) := by
  induction contents generalizing k i with
  | nil => rfl
  | cons content contents ih =>
    cases i with
    | zero => rfl
    | succ i =>
      rw [places, List.getElem?_cons_succ, List.getElem?_cons_succ, ih, List.take_succ_cons,
        List.map_cons, List.sum_cons]
      simp only [Nat.add_assoc]

theorem le_of_mem_places {p : ℕ × ℕ} (h : p ∈ places k contents) :
    k ≤ p.1 ∧ p.1 + p.2 ≤ k + contents.flatten.length := by
  induction contents generalizing k with
  | nil => exact absurd h List.not_mem_nil
  | cons content contents ih =>
    rw [List.flatten_cons, List.length_append]
    rcases List.mem_cons.mp h with rfl | hmem
    · exact ⟨Nat.le_refl _, by dsimp only; omega⟩
    · have := ih hmem
      omega

theorem pairwise_places (k : ℕ) (contents : List Bytes) :
    (places k contents).Pairwise fun p q => p.1 ≤ q.1 := by
  induction contents generalizing k with
  | nil => exact .nil
  | cons content contents ih =>
    refine .cons (fun q hq => ?_) (ih _)
    exact Nat.le_trans (Nat.le_add_right _ _) (le_of_mem_places hq).1

/-- Each content is found at its place. -/
theorem forall₂_places {rest : Bytes} (h : bytes.drop k = contents.flatten ++ rest) :
    List.Forall₂ (fun p content => (bytes.drop p.1).take p.2 = content) (places k contents)
      contents := by
  induction contents generalizing k with
  | nil => exact .nil
  | cons content contents ih =>
    rw [List.flatten_cons, List.append_assoc] at h
    refine .cons (by rw [h, List.take_left]) (ih ?_)
    rw [← List.drop_drop, h, List.drop_left]

/-! ### Lengths between offsets -/

theorem gap_eq_ok {offset next length : ℕ} :
    Listing.gap offset next = .ok length ↔ offset + length = next := by
  rw [Listing.gap]
  cases h : Word.sub? next offset with
  | some l =>
    obtain ⟨hle, rfl⟩ := Word.sub?_eq_some.mp h
    simp only [Except.ok.injEq]
    omega
  | none =>
    have hlt : ¬ offset ≤ next := by
      intro hle
      simp [Word.sub?, hle] at h
    simp only [reduceCtorEq, false_iff]
    omega

/-- The lengths of contents that follow each other. -/
theorem lengths_places (k : ℕ) (contents : List Bytes) :
    Listing.lengths ((places k contents).map Prod.fst) (k + contents.flatten.length)
      = .ok ((places k contents).map Prod.snd) := by
  induction contents generalizing k with
  | nil => rfl
  | cons content contents ih =>
    have hnext : ((places (k + content.length) contents).map Prod.fst).headD
        (k + (content :: contents).flatten.length) = k + content.length := by
      cases contents with
      | nil => simp [places]
      | cons content' contents => rfl
    have hrest := ih (k + content.length)
    rw [Nat.add_assoc, ← List.length_append, ← List.flatten_cons] at hrest
    rw [places, List.map_cons, Listing.lengths, hnext, gap_eq_ok.mpr rfl]
    show (Listing.lengths _ _ >>= fun rest => pure (content.length :: rest)) = _
    rw [hrest]
    rfl

/-- The pieces of a byte string at given places. -/
def pieces (bytes : Bytes) (offsets lens : List ℕ) : List Bytes :=
  (offsets.zip lens).map fun p => (bytes.drop p.1).take p.2

/-- Pieces between offsets that do not fall follow each other, and make up their range. -/
theorem of_lengths (hstop : stop ≤ bytes.length) (h : Listing.lengths offsets stop = .ok lens) :
    offsets.headD stop ≤ stop ∧ offsets.length = lens.length ∧
      places (offsets.headD stop) (pieces bytes offsets lens) = offsets.zip lens ∧
        (pieces bytes offsets lens).flatten
          = (bytes.drop (offsets.headD stop)).take (stop - offsets.headD stop) := by
  induction offsets generalizing lens with
  | nil =>
    cases h
    simp [pieces, places]
  | cons offset offsets ih =>
    simp only [Listing.lengths, except_bind_eq_ok, except_pure_eq_ok, gap_eq_ok] at h
    obtain ⟨length, hnext, rest, hrest, rfl⟩ := h
    obtain ⟨hle, hlen, hplaces, hflatten⟩ := ih hrest
    have hpiece : ((bytes.drop offset).take length).length = length := by
      rw [List.length_take, List.length_drop]
      omega
    refine ⟨by rw [List.headD_cons]; omega, by rw [List.length_cons, List.length_cons, hlen],
      ?_, ?_⟩
    · rw [pieces, List.zip_cons_cons, List.map_cons, List.headD_cons, places, hpiece, hnext]
      exact congrArg ((offset, length) :: ·) hplaces
    · rw [pieces, List.zip_cons_cons, List.map_cons, List.headD_cons, List.flatten_cons]
      refine (congrArg _ hflatten).trans ?_
      rw [← hnext, ← List.drop_drop, ← List.take_add]
      congr 1
      omega

/-! ### What the decoder finds -/

section

variable {source : Location} {x y : Session} {found : List Entry}

/-- The data of an entry at a place. -/
def dataAt (source : Location) (p : ℕ × ℕ) : Location × ℕ × ℕ × ℕ × Codec :=
  (source, p.1, p.2, p.2, [])

theorem data_eq_dataAt {e : Entry} {p : ℕ × ℕ} : e.data = dataAt source p ↔
    e.source = source ∧ e.offset = p.1 ∧ e.stored = p.2 ∧ e.decoded = p.2 ∧ e.codec = [] := by
  simp only [Entry.data, dataAt, Prod.mk.injEq]

theorem exists_listEntries (source : Location) (index : ℕ) (ps : List (ℕ × ℕ)) (x : Session) :
    ∃ y, listEntries source index ps x
        = .ok (ps.map fun p => { source, offset := p.1, stored := p.2 }) y ∧
      y.stream = x.stream ∧ y.quiet = x.quiet := by
  induction ps generalizing index x with
  | nil => exact ⟨x, rfl, rfl, rfl⟩
  | cons p ps ih =>
    obtain ⟨y, hy, hstream, hquiet⟩ := ih (index + 1)
      { x with reports := x.reports.push (.progress index p.1) }
    refine ⟨y, ?_, hstream, hquiet.trans (x.quiet_progress index p.1)⟩
    rw [listEntries]
    exact (bind_of_ok rfl).trans (bind_of_ok hy)

/-- The last steps of a decode, from the places of the entries on. -/
def listing (source : Location) (ps : List (ℕ × ℕ)) : Decode (List Entry) := do
  let entries ← listEntries source 0 ps
  let hinted ← Listing.sniffHints entries
  let entries ← Decode.ofReader (Reader.ofExcept (Listing.orFail hinted))
  return Listing.generate defaultExtension entries

/-- Once the places are known nothing more can fail, and entries at these places are found. -/
theorem exists_listing (hx : x.stream.failAt = none) (source : Location) (ps : List (ℕ × ℕ)) :
    ∃ found y, listing source ps x = .ok found y ∧
      found.map Entry.data = ps.map (dataAt source) ∧ y.quiet = x.quiet := by
  obtain ⟨u, hu, hstream, hquiet⟩ := exists_listEntries source 0 ps x
  obtain ⟨hinted, t, ht, hhints, hsource⟩ := Listing.exists_sniffHints
    (ps.map fun p => ({ source, offset := p.1, stored := p.2 } : Entry))
    (s := u.stream) (by rw [hstream, hx])
  have hlift : (liftM (Listing.sniffHints (ps.map fun p =>
      ({ source, offset := p.1, stored := p.2 } : Entry))) :
        Decode (List Entry × Option Error)) u = .ok (hinted, none) { u with stream := t } :=
    liftReader_eq_ok.mpr ⟨t, ht, rfl⟩
  refine ⟨Listing.generate defaultExtension hinted, { u with stream := t }, ?_, ?_, ?_⟩
  · rw [listing, bind_of_ok hu, bind_of_ok hlift]
    rfl
  · rw [Listing.map_data_generate, Listing.map_data_of_hints hhints, List.map_map]
    rfl
  · exact (u.quiet_of_source hsource).trans hquiet

/-- Nor can anything fail once the offsets are known not to fall. -/
theorem exists_entries (hx : x.stream.failAt = none) (source : Location)
    (hlens : Listing.lengths offsets stop = .ok lens) :
    ∃ found y, (do
        let lengths ← Decode.ofReader (Reader.ofExcept (Listing.lengths offsets stop))
        listing source (offsets.zip lengths) : Decode (List Entry)) x = .ok found y ∧
      found.map Entry.data = (offsets.zip lens).map (dataAt source) ∧ y.quiet = x.quiet := by
  have hlift : Decode.ofReader (Reader.ofExcept (Listing.lengths offsets stop)) x = .ok lens x :=
    ofReader_eq_ok.mpr ⟨_, ofExcept_eq_ok.mpr ⟨hlens, rfl⟩, rfl⟩
  obtain ⟨found, y, hy, hdata, hquiet⟩ := exists_listing hx source (offsets.zip lens)
  exact ⟨found, y, (bind_of_ok hlift).trans hy, hdata, hquiet⟩

/-- The offsets that a byte string starts with, as many as the first of them announces. -/
def table (bytes : Bytes) : List ℕ :=
  Tables.words (ByteOrder.little.decode (bytes.take 4) / 4) bytes

/-- The last offset of the table that a byte string starts with. -/
def tableEnd (bytes : Bytes) : ℕ := (table bytes).getLastD 0

/-- What a byte string has to start with: a table of whole offsets that do not fall and do not lie
behind its end. -/
structure IsTable (bytes : Bytes) (lens : List ℕ) : Prop where
  /-- The first offset is there. -/
  first_le : 4 ≤ bytes.length
  /-- The first offset counts at least itself. -/
  le_first : 4 ≤ ByteOrder.little.decode (bytes.take 4)
  /-- The table consists of whole offsets. -/
  dvd_first : ByteOrder.little.decode (bytes.take 4) % 4 = 0
  /-- The table is there. -/
  table_le : ByteOrder.little.decode (bytes.take 4) ≤ bytes.length
  /-- The last entry ends in the stream. -/
  end_le : tableEnd bytes ≤ bytes.length
  /-- The offsets do not fall. -/
  lengths_eq : Listing.lengths (table bytes).dropLast (tableEnd bytes) = .ok lens

theorem length_table (bytes : Bytes) :
    (table bytes).length = ByteOrder.little.decode (bytes.take 4) / 4 := Tables.length_words _ _

/-- A stream that is decoded starts with a table that is within the limit. -/
theorem isTable_of_decode (hx : x.stream.IsOver bytes) (hstart : x.stream.position = 0)
    (h : decode source x = .ok found y) :
    ∃ lens, IsTable bytes lens ∧ (table bytes).length ≤ x.context.options.maxEntries := by
  have hahead : x.stream.ahead = bytes := by rw [hx.ahead_eq, hstart, List.drop_zero]
  have hrewound : ({ x.stream with position := 0 } : Stream) = x.stream := by rw [← hstart]
  simp only [decode, bind_eq_ok, liftReader_eq_ok, u32_eq_ok] at h
  obtain ⟨first, _, ⟨_, ⟨hfour, hfirst, rfl⟩, rfl⟩, h⟩ := h
  rw [hahead] at hfour
  rw [hx.little, hahead] at hfirst
  rw [guard_eq_ok] at h
  simp only [bind_eq_ok, liftReader_eq_ok, length_eq_ok, checkCount_eq_ok, seek_eq_ok] at h
  obtain ⟨hwhole, _, z, ⟨s, ⟨rfl, rfl⟩, rfl⟩, _, w, ⟨hcount, hfit, rfl, rfl⟩, _, u,
    ⟨t, ⟨-, rfl⟩, rfl⟩, offsets, v, ⟨s', hoffsets, rfl⟩, h⟩ := h
  simp only [Stream.advance] at hoffsets
  rw [hrewound, Tables.offsetTable_eq_ok, hahead, hfirst] at hoffsets
  obtain ⟨hlen, hoffsets, rfl⟩ := hoffsets
  change offsets = table bytes at hoffsets
  subst hoffsets
  rw [guard_eq_ok] at h
  obtain ⟨hend, h⟩ := h
  rw [Stream.length_advance, hx.length_eq] at hend
  -- whether there is a warning or not, the lengths come next
  have hlens : ∃ lens, Listing.lengths (table bytes).dropLast (tableEnd bytes) = .ok lens := by
    split at h
    · simp only [bind_eq_ok, ofReader_eq_ok, ofExcept_eq_ok] at h
      obtain ⟨_, _, -, lens, _, ⟨_, ⟨hlens, -⟩, -⟩, -⟩ := h
      exact ⟨lens, hlens⟩
    · simp only [bind_eq_ok, ofReader_eq_ok, ofExcept_eq_ok] at h
      obtain ⟨lens, _, ⟨_, ⟨hlens, -⟩, -⟩, -⟩ := h
      exact ⟨lens, hlens⟩
  obtain ⟨lens, hlens⟩ := hlens
  simp only [offsetSize, Bool.or_eq_true, decide_eq_true_eq, bne_iff_ne, ne_eq, not_or,
    Decidable.not_not, hfirst] at hwhole hlen
  refine ⟨lens, ⟨hfour, by omega, hwhole.2, by omega, by rw [tableEnd]; omega, hlens⟩, ?_⟩
  rw [length_table, ← hfirst]
  exact hcount

/-- What is warned of when the stream goes on behind the last entry, and nothing otherwise. -/
def warningsFor (bytes : Bytes) : Array String :=
  if tableEnd bytes < bytes.length then #[trailingBytes] else #[]

/-- A stream that starts with a table within the limit is decoded, and entries between the offsets
of the table are found. -/
theorem exists_decode (source : Location) (hx : x.stream.IsOver bytes) (hstart : x.stream.position = 0)
    (htable : IsTable bytes lens) (hcount : (table bytes).length ≤ x.context.options.maxEntries) :
    ∃ found y, decode source x = .ok found y ∧
      found.map Entry.data = ((table bytes).dropLast.zip lens).map (dataAt source) ∧
        y.input = x.input ∧ y.warnings = x.warnings ++ warningsFor bytes := by
  obtain ⟨hfour, hle, hdvd, htab, hend, hlens⟩ := htable
  have hahead : x.stream.ahead = bytes := by rw [hx.ahead_eq, hstart, List.drop_zero]
  have hlength : (x.stream.advance 4).length = bytes.length := hx.length_eq
  have hrewound : ({ x.stream.advance 4 with position := 0 } : Stream) = x.stream := by
    rw [← hstart]
    rfl
  rw [length_table] at hcount
  have hfirst : (liftM Reader.u32 : Decode ℕ) x = .ok (ByteOrder.little.decode (bytes.take 4))
      { x with stream := x.stream.advance 4 } :=
    liftReader_eq_ok.mpr ⟨_, u32_eq_ok.mpr ⟨by rwa [hahead], by rw [hahead, hx.little], rfl⟩, rfl⟩
  have hchecked : Decode.checkCount (ByteOrder.little.decode (bytes.take 4) / offsetSize) offsetSize
      (x.stream.advance 4).length { x with stream := x.stream.advance 4 }
        = .ok ⟨ByteOrder.little.decode (bytes.take 4) / offsetSize⟩
          { x with stream := x.stream.advance 4 } := by
    refine checkCount_of_le hcount ?_
    rw [hlength, offsetSize]
    omega
  have hseek : (liftM (Reader.seek 0) : Decode Unit) { x with stream := x.stream.advance 4 }
      = .ok () x := by
    refine liftReader_eq_ok.mpr ⟨_, seek_eq_ok.mpr ⟨Nat.zero_le _, rfl⟩, ?_⟩
    rw [hrewound]
  have htable : (liftM (Reader.offsetTable
      ⟨ByteOrder.little.decode (bytes.take 4) / offsetSize⟩ 4 .little 1) : Decode (List ℕ)) x
        = .ok (table bytes) { x with stream := x.stream.advance (4 * (table bytes).length) } := by
    refine liftReader_eq_ok.mpr ⟨_, Tables.offsetTable_eq_ok.mpr ⟨?_, ?_, ?_⟩, rfl⟩
    · rw [hahead, offsetSize]
      omega
    · rw [hahead, table, offsetSize]
    · rw [length_table]
      rfl
  have hwhole : ¬ (decide (ByteOrder.little.decode (bytes.take 4) < offsetSize) ||
      ByteOrder.little.decode (bytes.take 4) % offsetSize != 0) = true := by
    rw [offsetSize, hdvd, bne_self_eq_false, Bool.or_false, decide_eq_true_eq]
    exact Nat.not_lt.mpr hle
  simp only [decode]
  rw [bind_of_ok hfirst, if_neg hwhole, bind_of_ok (liftLength_eq_ok.mpr ⟨rfl, rfl⟩),
    bind_of_ok hchecked, bind_of_ok hseek, bind_of_ok htable, hlength,
    if_neg (show ¬ bytes.length < (table bytes).getLastD 0 from Nat.not_lt.mpr hend)]
  -- a warning changes neither the stream nor what is found
  have hhealthy : x.stream.failAt = none := hx.healthy
  split
  · next htrailing =>
    obtain ⟨found, y, hfound, hdata, hquiet⟩ := exists_entries (x := { x with
      stream := x.stream.advance (4 * (table bytes).length)
      reports := x.reports.push (.warning trailingBytes) }) hhealthy source hlens
    have hinput := Session.input_of_quiet hquiet
    refine ⟨found, y, hfound, hdata, hinput, ?_⟩
    rw [Session.warnings_of_quiet hquiet, warningsFor, tableEnd, if_pos htrailing]
    simp [Session.warnings]
  · next htrailing =>
    obtain ⟨found, y, hfound, hdata, hquiet⟩ := exists_entries (x := { x with
      stream := x.stream.advance (4 * (table bytes).length) }) hhealthy source hlens
    have hinput := Session.input_of_quiet hquiet
    refine ⟨found, y, hfound, hdata, hinput, ?_⟩
    rw [Session.warnings_of_quiet hquiet, warningsFor, tableEnd, if_neg htrailing, Array.append_empty]
    rfl

end

/-! ### What the encoder writes -/

section

variable {s t : Stream} {edits : List EditedEntry}

theorem tableBytes_eq_ok {found : Bytes} : tableBytes offsets = .ok found ↔
    found = offsets.flatMap (ByteOrder.little.encode 4) ∧ ∀ n ∈ offsets, n ≤ Word.max32 := by
  induction offsets generalizing found with
  | nil => simp [tableBytes, eq_comm]
  | cons n offsets ih =>
    simp only [tableBytes, except_bind_eq_ok, except_pure_eq_ok, Checked.narrow_eq_ok, ih,
      List.forall_mem_cons, List.flatMap_cons, offsetSize]
    constructor
    · rintro ⟨_, ⟨rfl, hle⟩, _, ⟨rfl, hall⟩, rfl⟩
      exact ⟨rfl, hle, hall⟩
    · rintro ⟨rfl, hle, hall⟩
      exact ⟨n, ⟨rfl, hle⟩, _, ⟨rfl, hall⟩, rfl⟩

theorem contents_eq_mapM (edits : List EditedEntry) :
    Ofs.contents edits = edits.mapM EditedEntry.contentBytes := by
  induction edits with
  | nil => rfl
  | cons e edits ih => rw [Ofs.contents, List.mapM_cons, ih]

/-- An archive is its table with the contents behind it. -/
theorem encode_eq_ok : encode edits s = .ok out t ↔ ∃ contents,
    edits.mapM EditedEntry.contentBytes s = .ok contents t ∧
      (∀ n ∈ starts (4 * (edits.length + 1)) contents, n ≤ Word.max32) ∧
        out = (starts (4 * (edits.length + 1)) contents).flatMap (ByteOrder.little.encode 4) ++
          contents.flatten := by
  simp only [encode, bind_eq_ok, contents_eq_mapM, liftExcept_eq_ok, tableBytes_eq_ok, pure_eq_ok,
    offsetSize]
  constructor
  · rintro ⟨contents, _, hcontents, _, _, ⟨⟨rfl, hall⟩, rfl⟩, rfl, rfl⟩
    exact ⟨contents, hcontents, hall, rfl⟩
  · rintro ⟨contents, hcontents, hall, rfl⟩
    exact ⟨contents, t, hcontents, _, t, ⟨⟨rfl, hall⟩, rfl⟩, rfl, rfl⟩

theorem mapM_replace (edits : List (Entry × Bytes)) (s : Stream) :
    (edits.map fun e => EditedEntry.replace e.1 e.2).mapM EditedEntry.contentBytes s
      = .ok (edits.map Prod.snd) s := by
  induction edits with
  | nil => rfl
  | cons e edits ih =>
    rw [List.map_cons, List.mapM_cons]
    exact (bind_of_ok rfl).trans ((bind_of_ok ih).trans rfl)

end

/-! ### A directory that was read is written as its bytes -/

section

variable {source : Location} {x y : Session} {found entries : List Entry} {s : Stream}

/-- A table starts with the offset that counts it. -/
theorem table_eq_cons (h : 4 ≤ ByteOrder.little.decode (bytes.take 4)) :
    table bytes = ByteOrder.little.decode (bytes.take 4) ::
      Tables.words (ByteOrder.little.decode (bytes.take 4) / 4 - 1) (bytes.drop 4) := by
  obtain ⟨count, hcount⟩ : ∃ count, ByteOrder.little.decode (bytes.take 4) / 4 = count + 1 :=
    ⟨ByteOrder.little.decode (bytes.take 4) / 4 - 1, by omega⟩
  rw [table, hcount, Tables.words, Nat.add_sub_cancel]

/-- A table is its offsets of entries, with the end behind them. -/
theorem dropLast_append_tableEnd (h : 4 ≤ ByteOrder.little.decode (bytes.take 4)) :
    (table bytes).dropLast ++ [tableEnd bytes] = table bytes := by
  have hne : table bytes ≠ [] := by
    rw [table_eq_cons h]
    exact List.cons_ne_nil _ _
  have hend : tableEnd bytes = (table bytes).getLast hne := by
    rw [tableEnd, List.getLastD_eq_getLast?, List.getLast?_eq_getLast_of_ne_nil hne]
    rfl
  rw [hend, List.dropLast_concat_getLast]

/-- The table that a stream starts with, taken apart. -/
theorem of_isTable (h : IsTable bytes lens) :
    (table bytes).dropLast ++ [tableEnd bytes] = table bytes ∧
      (table bytes).dropLast.headD (tableEnd bytes) = 4 * (table bytes).length := by
  have hlen := length_table bytes
  have hdvd := h.dvd_first
  have happend := dropLast_append_tableEnd h.le_first
  refine ⟨happend, ?_⟩
  have hhead : (table bytes).dropLast.headD (tableEnd bytes)
      = ((table bytes).dropLast ++ [tableEnd bytes]).headD 0 := by
    cases (table bytes).dropLast <;> rfl
  rw [hhead, happend, table_eq_cons h.le_first, List.headD_cons, ← table_eq_cons h.le_first, hlen]
  omega

theorem tableEnd_lt (h : IsTable bytes lens) : tableEnd bytes < 2 ^ 32 := by
  have hmem : tableEnd bytes ∈ table bytes := by
    rw [← (of_isTable h).1]
    exact List.mem_append_right _ List.mem_cons_self
  exact Tables.lt_of_mem_words hmem

/-- The content of an entry at a place is the piece there. -/
theorem contentIn_of_data {e : Entry} {p : ℕ × ℕ} (hdata : e.data = dataAt source p)
    (hfit : p.1 + p.2 ≤ bytes.length) (hmax : p.1 + p.2 ≤ Word.max) :
    e.FitsIn bytes ∧ e.contentIn bytes = .ok ((bytes.drop p.1).take p.2) := by
  obtain ⟨-, hoffset, hstored, hdecoded, hcodec⟩ := data_eq_dataAt.mp hdata
  rw [← hoffset, ← hstored] at hfit hmax ⊢
  exact ⟨⟨hfit, hmax⟩, Entry.contentIn_of_identity hcodec (hdecoded.trans hstored.symm) hfit⟩

/-- An entry at a place of the table reads as the piece there. -/
theorem contentBytes_of_data {e : Entry} {p : ℕ × ℕ} (hprimary : source.isPrimary = true)
    (hdata : e.data = dataAt source p) (hfit : p.1 + p.2 ≤ bytes.length)
    (hmax : p.1 + p.2 ≤ Word.max) (hs : s.IsOver bytes) :
    ∃ t, (EditedEntry.keep e).contentBytes s = .ok ((bytes.drop p.1).take p.2) t ∧
      t.IsOver bytes := by
  have hsource := (data_eq_dataAt.mp hdata).1
  obtain ⟨hfits, hcontent⟩ := contentIn_of_data hdata hfit hmax
  exact ⟨_, (contentBytes_eq_ok hs).mpr ⟨by rw [hsource, hprimary], hfits, hcontent, rfl⟩,
    Stream.isOver_goto hs⟩

/-- What a table says of the range behind it: the offsets are those of its pieces. -/
theorem starts_pieces (h : IsTable bytes lens) :
    places (4 * (table bytes).length) (pieces bytes (table bytes).dropLast lens)
        = (table bytes).dropLast.zip lens ∧
      starts (4 * (table bytes).length) (pieces bytes (table bytes).dropLast lens)
        = table bytes ∧
      (pieces bytes (table bytes).dropLast lens).flatten = (bytes.drop (4 * (table bytes).length)).take
        (tableEnd bytes - 4 * (table bytes).length) ∧
      4 * (table bytes).length ≤ tableEnd bytes := by
  obtain ⟨happend, hhead⟩ := of_isTable h
  obtain ⟨hle, hlens, hplaces, hflatten⟩ := of_lengths h.end_le h.lengths_eq
  rw [hhead] at hle hplaces hflatten
  refine ⟨hplaces, ?_, hflatten, hle⟩
  have hend := h.end_le
  have hlength : 4 * (table bytes).length + (pieces bytes (table bytes).dropLast lens).flatten.length
      = tableEnd bytes := by
    rw [hflatten, List.length_take, List.length_drop]
    omega
  rw [starts_eq, hplaces, hlength, List.map_fst_zip (Nat.le_of_eq hlens), happend]

/-- Every entry has a place. -/
theorem exists_place (h : found.map Entry.data = (places k contents).map (dataAt source))
    {e : Entry} (he : e ∈ found) : ∃ p ∈ places k contents, e.data = dataAt source p := by
  have hmem : e.data ∈ (places k contents).map (dataAt source) := by
    rw [← h]
    exact List.mem_map_of_mem he
  obtain ⟨p, hp, hdata⟩ := List.mem_map.mp hmem
  exact ⟨p, hp, hdata.symm⟩

/-- The data of entries between offsets that do not fall are in order. -/
theorem arrange_of_map_data {sorted : Bool}
    (h : found.map Entry.data = (places k contents).map (dataAt source)) :
    Listing.arrange sorted found = found := by
  have hsource : ∀ e ∈ found, e.source = source := by
    intro e he
    obtain ⟨p, -, hdata⟩ := exists_place h he
    exact (data_eq_dataAt.mp hdata).1
  have hpairwise : (found.map Entry.data).Pairwise fun a b => a.2.1 ≤ b.2.1 := by
    rw [h, List.pairwise_map]
    exact pairwise_places _ _
  rw [List.pairwise_map] at hpairwise
  exact Listing.arrange_of_rising source hsource hpairwise

/-- A directory that was read has an entry for each piece of the range behind its table. -/
theorem of_readDirectory (hx : x.stream.IsOver bytes)
    (h : format.readDirectory source x = .ok entries y) :
    ∃ lens, IsTable bytes lens ∧
      entries.map Entry.data = ((table bytes).dropLast.zip lens).map (dataAt source) := by
  obtain ⟨found, hdecode, hfinish⟩ := Format.readDirectory_eq_ok.mp h
  have hover : x.started.stream.IsOver bytes := Stream.isOver_goto hx
  obtain ⟨lens, htable, hcount⟩ := isTable_of_decode (x := x.started) hover rfl hdecode
  obtain ⟨found', y', hdecode', hdata, -⟩ := exists_decode source hover rfl htable hcount
  have hfound : found = found' := by
    have heq := hdecode.symm.trans hdecode'
    rw [EStateM.Result.ok.injEq] at heq
    exact heq.1
  subst hfound
  refine ⟨lens, htable, ?_⟩
  rw [(Listing.finish_eq_ok.mp hfinish).1, arrange_of_map_data, hdata]
  rw [hdata, ← (starts_pieces htable).1]

/-- The offsets of a table are written as the bytes of the table. -/
theorem flatMap_table (h : IsTable bytes lens) :
    (table bytes).flatMap (ByteOrder.little.encode 4) = bytes.take (4 * (table bytes).length) := by
  have hle := h.table_le
  rw [length_table, table]
  exact Tables.flatMap_words (by omega)

/-- Entries that are kept read as the pieces of the range behind the table. -/
theorem forall₂_contentBytes (hprimary : source.isPrimary = true) (h : IsTable bytes lens)
    (hdata : entries.map Entry.data = ((table bytes).dropLast.zip lens).map (dataAt source)) :
    List.Forall₂ (fun e content => ∀ s, Stream.IsOver s bytes →
      ∃ t, EditedEntry.contentBytes e s = .ok content t ∧ t.IsOver bytes)
      (entries.map EditedEntry.keep) (pieces bytes (table bytes).dropLast lens) := by
  obtain ⟨hplaces, -, hflatten, hle⟩ := starts_pieces h
  have hend := h.end_le
  have hlength : (pieces bytes (table bytes).dropLast lens).flatten.length
      = tableEnd bytes - 4 * (table bytes).length := by
    rw [hflatten, List.length_take, List.length_drop]
    omega
  rw [pieces, List.forall₂_map_left_iff, List.forall₂_map_right_iff]
  refine forall₂_imp_of_mem (forall₂_of_map_eq hdata) fun e _ p hp hdata s hs => ?_
  rw [← hplaces] at hp
  have hstop := (le_of_mem_places hp).2
  have hmax := tableEnd_lt h
  have hword := Word.max_eq
  exact contentBytes_of_data hprimary hdata (by omega) (by omega) hs

/-- **A directory that was read is written as its bytes**, up to where the last entry ends. -/
theorem encode_of_readDirectory (hx : x.stream.IsOver bytes) (hprimary : source.isPrimary = true)
    (h : format.readDirectory source x = .ok entries y) (hs : s.IsOver bytes) :
    tableEnd bytes ≤ bytes.length ∧
      ∃ t, encode (entries.map EditedEntry.keep) s = .ok (bytes.take (tableEnd bytes)) t := by
  obtain ⟨lens, htable, hdata⟩ := of_readDirectory hx h
  obtain ⟨hplaces, hstarts, hflatten, hle⟩ := starts_pieces htable
  have hlen : entries.length + 1 = (table bytes).length := by
    have h₁ := congrArg List.length hplaces
    have h₂ := congrArg List.length hstarts
    rw [length_places] at h₁
    rw [length_starts] at h₂
    rw [(forall₂_of_map_eq hdata).length_eq, ← h₁, h₂]
  obtain ⟨t, ht, -⟩ := mapM_of_forall₂ (forall₂_contentBytes hprimary htable hdata) hs
  refine ⟨htable.end_le, t, encode_eq_ok.mpr ⟨_, ht, ?_, ?_⟩⟩
  · rw [List.length_map, hlen, hstarts]
    intro n hn
    exact Nat.le_of_lt_succ (Tables.lt_of_mem_words hn)
  · rw [List.length_map, hlen, hstarts, hflatten, flatMap_table htable, ← List.take_add,
      Nat.add_sub_cancel' hle]

end

/-! ### Contents that were written are read -/

section

variable {source : Location} {x : Session} {s t : Stream} {found : List Entry}

/-- What was written starts with a table, which ends with the stream. -/
theorem isTable_of_encode
    (hstarts : ∀ n ∈ starts (4 * (contents.length + 1)) contents, n ≤ Word.max32)
    (hout : out = (starts (4 * (contents.length + 1)) contents).flatMap (ByteOrder.little.encode 4)
      ++ contents.flatten) :
    IsTable out ((places (4 * (contents.length + 1)) contents).map Prod.snd) ∧
      table out = starts (4 * (contents.length + 1)) contents ∧ tableEnd out = out.length ∧
        out.drop (4 * (contents.length + 1)) = contents.flatten := by
  generalize hk : 4 * (contents.length + 1) = k at *
  have hlt : ∀ n ∈ starts k contents, n < 2 ^ 32 := by
    intro n hn
    exact Nat.lt_succ_of_le (hstarts n hn)
  have hlen := length_starts k contents
  obtain ⟨rest, hrest⟩ : ∃ rest, starts k contents = k :: rest := by
    cases contents with
    | nil => exact ⟨_, rfl⟩
    | cons content contents => exact ⟨_, rfl⟩
  have htableLength : ((starts k contents).flatMap (ByteOrder.little.encode 4)).length = k := by
    rw [Tables.length_flatMap (ByteOrder.length_encode _ _), hlen, hk]
  have hfirst : ByteOrder.little.decode (out.take 4) = k := by
    have hfour : (ByteOrder.little.encode 4 k).length = 4 := ByteOrder.length_encode _ _ _
    rw [hout, hrest, List.flatMap_cons, List.append_assoc, List.take_left' hfour]
    exact ByteOrder.decode_encode _ (hlt k (by rw [hrest]; exact List.mem_cons_self))
  have htable : table out = starts k contents := by
    rw [table, hfirst, show k / 4 = (starts k contents).length by omega, hout]
    exact Tables.words_flatMap hlt _
  have houtLength : out.length = k + contents.flatten.length := by
    rw [hout, List.length_append, htableLength]
  have hend : tableEnd out = out.length := by
    rw [tableEnd, htable, starts_eq, List.getLastD_concat, houtLength]
  refine ⟨⟨by omega, by omega, by omega, by omega, by omega, ?_⟩, htable, hend, ?_⟩
  · rw [htable, hend, houtLength, starts_eq, List.dropLast_concat]
    exact lengths_places _ _
  · rw [hout, List.drop_left' htableLength]

/-- Entries of contents that follow each other up to the end of the stream lie in the stream. -/
theorem le_of_map_data (h : found.map Entry.data = (places k contents).map (dataAt source))
    (hlength : source.length = k + contents.flatten.length) {e : Entry} (he : e ∈ found) :
    e.offset ≤ e.source.length ∧ e.stop ≤ e.source.length := by
  obtain ⟨p, hp, hdata⟩ := exists_place h he
  obtain ⟨hsource, hoffset, hstored, -, -⟩ := data_eq_dataAt.mp hdata
  have hstop := (le_of_mem_places hp).2
  have hsat : e.stop ≤ e.offset + e.stored := Nat.min_le_left _ _
  rw [hsource, hlength]
  omega

/-- The entry of a content lies behind all contents before, and has that content. -/
theorem of_map_data (h : found.map Entry.data = (places k contents).map (dataAt source))
    (hdrop : out.drop k = contents.flatten) (hlength : out.length = k + contents.flatten.length)
    (hmax : out.length ≤ Word.max) {i : ℕ} {e : Entry} {content : Bytes}
    (he : found[i]? = some e) (hcontent : contents[i]? = some content) :
    e.data = dataAt source (k + ((contents.take i).map List.length).sum, content.length) ∧
      e.FitsIn out ∧ e.contentIn out = .ok content := by
  have hplace := getElem?_places k i contents
  rw [hcontent, Option.map_some] at hplace
  have hdata := of_getElem? (forall₂_of_map_eq h) he hplace
  rw [← List.append_nil contents.flatten] at hdrop
  have hpiece := of_getElem? (forall₂_places hdrop) hplace hcontent
  have hstop := (le_of_mem_places (List.mem_of_getElem? hplace)).2
  have hfit : k + ((contents.take i).map List.length).sum + content.length ≤ out.length := by
    rw [hlength]
    exact hstop
  obtain ⟨hfits, hread⟩ := contentIn_of_data hdata hfit (Nat.le_trans hfit hmax)
  exact ⟨hdata, hfits, hread.trans (congrArg _ hpiece)⟩

theorem length_of_isTable_of_encode
    (hstarts : ∀ n ∈ starts (4 * (contents.length + 1)) contents, n ≤ Word.max32)
    (hout : out = (starts (4 * (contents.length + 1)) contents).flatMap (ByteOrder.little.encode 4)
      ++ contents.flatten) :
    out.length = 4 * (contents.length + 1) + contents.flatten.length := by
  obtain ⟨-, htableEq, hend, -⟩ := isTable_of_encode hstarts hout
  rw [← hend, tableEnd, htableEq, starts_eq, List.getLastD_concat]

/-- What was written is read, with an entry at the place of each content. -/
theorem exists_readDirectory (source : Location)
    (hstarts : ∀ n ∈ starts (4 * (contents.length + 1)) contents, n ≤ Word.max32)
    (hout : out = (starts (4 * (contents.length + 1)) contents).flatMap (ByteOrder.little.encode 4)
      ++ contents.flatten) (hx : x.stream.IsOver out) (hlength : source.length = out.length)
    (hcount : contents.length + 1 ≤ x.context.options.maxEntries) :
    ∃ found y, format.readDirectory source x = .ok found y ∧
      found.map Entry.data
        = (places (4 * (contents.length + 1)) contents).map (dataAt source) := by
  obtain ⟨htable, htableEq, -, -⟩ := isTable_of_encode hstarts hout
  have hcount' : (table out).length ≤ x.started.context.options.maxEntries := by
    rw [htableEq, length_starts]
    exact hcount
  obtain ⟨found, y, hdecode, hdata, -⟩ := exists_decode (x := x.started) source
    (Stream.isOver_goto hx) rfl htable hcount'
  rw [htableEq, starts_eq, List.dropLast_concat, List.zip_map', List.map_id'' fun _ => rfl] at hdata
  refine ⟨found, y, Format.readDirectory_eq_ok.mpr ⟨found, hdecode,
    Listing.finish_eq_ok.mpr ⟨(arrange_of_map_data hdata).symm, fun e he => ?_⟩⟩, hdata⟩
  exact le_of_map_data hdata (hlength.trans (length_of_isTable_of_encode hstarts hout)) he

/-- **Contents that were written are read**, back to back behind the table. -/
theorem readDirectory_of_encode {edits : List (Entry × Bytes)}
    (h : encode (edits.map fun e => EditedEntry.replace e.1 e.2) s = .ok out t)
    (hx : x.stream.IsOver out) (hprimary : source.isPrimary = true)
    (hlength : source.length = out.length)
    (hcount : edits.length + 1 ≤ x.context.options.maxEntries) :
    ∃ entries y, format.readDirectory source x = .ok entries y ∧
      entries.length = edits.length ∧
      out.length = 4 * (edits.length + 1) + (edits.map fun d => d.2.length).sum ∧
      ∀ (i : ℕ) (e : Entry) (d : Entry × Bytes), entries[i]? = some e → edits[i]? = some d →
        e.offset = 4 * (edits.length + 1) + ((edits.take i).map fun d => d.2.length).sum ∧
        e.stored = d.2.length ∧ e.decoded = d.2.length ∧
        ∀ (a : Archive) (files : FileTree), a.entries = entries → a.stream.IsOver out →
          (a.readEntry files i).1 = .ok d.2 := by
  obtain ⟨contents, hcontents, hstarts, hout⟩ := encode_eq_ok.mp h
  rw [mapM_replace] at hcontents
  cases hcontents
  have hlen : (edits.map Prod.snd).length = edits.length := List.length_map _
  rw [List.length_map, ← hlen] at hstarts hout
  obtain ⟨htable, -, hend, hdrop⟩ := isTable_of_encode hstarts hout
  have hsum : ∀ l : List (Entry × Bytes),
      (l.map fun d => d.2.length).sum = (l.map Prod.snd).flatten.length := by
    intro l
    rw [List.length_flatten, List.map_map]
    rfl
  have hlengthEq := length_of_isTable_of_encode hstarts hout
  obtain ⟨found, y, hread, hdata⟩ := exists_readDirectory source hstarts hout hx hlength
    (by rw [hlen]; exact hcount)
  refine ⟨found, y, hread, ?_, ?_, ?_⟩
  · rw [(forall₂_of_map_eq hdata).length_eq, length_places, hlen]
  · rw [hlengthEq, hlen, hsum]
  · intro i e d he hd
    have hcontent : (edits.map Prod.snd)[i]? = some d.2 := by
      rw [List.getElem?_map, hd]
      rfl
    have hmax : out.length ≤ Word.max := by
      have hlt := tableEnd_lt htable
      have hword := Word.max_eq
      omega
    obtain ⟨hedata, hfits, hread⟩ := of_map_data hdata hdrop hlengthEq hmax he hcontent
    obtain ⟨hsource, hoffset, hstored, hdecoded, -⟩ := data_eq_dataAt.mp hedata
    refine ⟨?_, hstored, hdecoded, fun a files hentries hover => ?_⟩
    · rw [hoffset, hlen, ← List.map_take, List.map_map]
      rfl
    · rw [Archive.readEntry_of_isOver hover (by rw [hentries, he]) (by rw [hsource, hprimary])
        hfits, hread]

end

/-! ### Both directions -/

/-- **Writing and reading are inverse.** A directory that was read is written as the bytes that it
was read from, up to the last offset of the table, and so as all of them if the table covers the
stream. Contents that were written are read back in order, one behind the other from the end of the
table to the end of the stream. -/
theorem encode_inverse :
    (∀ {bytes : Bytes} {source : Location} {x y : Session} {entries : List Entry} {s : Stream},
      x.stream.IsOver bytes → source.isPrimary = true →
      format.readDirectory source x = .ok entries y → s.IsOver bytes →
      tableEnd bytes ≤ bytes.length ∧
        (∃ t, encode (entries.map EditedEntry.keep) s = .ok (bytes.take (tableEnd bytes)) t) ∧
          (tableEnd bytes = bytes.length →
            ∃ t, encode (entries.map EditedEntry.keep) s = .ok bytes t)) ∧
    ∀ {edits : List (Entry × Bytes)} {out : Bytes} {source : Location} {x : Session}
      {s t : Stream},
      encode (edits.map fun e => EditedEntry.replace e.1 e.2) s = .ok out t →
      x.stream.IsOver out → source.isPrimary = true → source.length = out.length →
      edits.length + 1 ≤ x.context.options.maxEntries →
      ∃ entries y, format.readDirectory source x = .ok entries y ∧
        entries.length = edits.length ∧
        out.length = 4 * (edits.length + 1) + (edits.map fun d => d.2.length).sum ∧
        ∀ (i : ℕ) (e : Entry) (d : Entry × Bytes), entries[i]? = some e → edits[i]? = some d →
          e.offset = 4 * (edits.length + 1) + ((edits.take i).map fun d => d.2.length).sum ∧
          e.stored = d.2.length ∧ e.decoded = d.2.length ∧
          ∀ (a : Archive) (files : FileTree), a.entries = entries → a.stream.IsOver out →
            (a.readEntry files i).1 = .ok d.2 := by
  constructor
  · intro bytes source x y entries s hx hprimary h hs
    obtain ⟨hle, t, ht⟩ := encode_of_readDirectory hx hprimary h hs
    refine ⟨hle, ⟨t, ht⟩, fun hend => ⟨t, ?_⟩⟩
    rw [ht, hend, List.take_length]
  · intro edits out source x s t h hx hprimary hlength hcount
    exact readDirectory_of_encode h hx hprimary hlength hcount

/-- An archive of two contents, the second one empty, is read, and written as it was. -/
theorem encode_inverse_two :
    ∃ entries y, format.readDirectory (.memory 14)
        { stream := .ofBytes [12, 0, 0, 0, 14, 0, 0, 0, 14, 0, 0, 0, 0x61, 0x62] }
          = .ok entries y ∧
      entries.length = 2 ∧
        ∃ t, encode (entries.map EditedEntry.keep)
          (.ofBytes [12, 0, 0, 0, 14, 0, 0, 0, 14, 0, 0, 0, 0x61, 0x62])
            = .ok [12, 0, 0, 0, 14, 0, 0, 0, 14, 0, 0, 0, 0x61, 0x62] t := by
  have hencode : encode ([(⟨.memory 0, none, 0, 0, 0, [], none, []⟩, [0x61, 0x62]),
      (⟨.memory 0, none, 0, 0, 0, [], none, []⟩, [])].map fun e => EditedEntry.replace e.1 e.2)
        (.ofBytes []) = .ok [12, 0, 0, 0, 14, 0, 0, 0, 14, 0, 0, 0, 0x61, 0x62] (.ofBytes []) := rfl
  have hprimary : (Location.memory 14).isPrimary = true := rfl
  obtain ⟨entries, y, h, hlength, -⟩ := encode_inverse.2
    (x := { stream := .ofBytes [12, 0, 0, 0, 14, 0, 0, 0, 14, 0, 0, 0, 0x61, 0x62] })
    hencode (Stream.isOver_ofBytes _) hprimary rfl (by decide)
  have hread := encode_inverse.1 (Stream.isOver_ofBytes _) rfl h (Stream.isOver_ofBytes _)
  exact ⟨entries, y, h, hlength, hread.2.2 rfl⟩

end Packfile.Ofs
