import Packfile.Proofs.LikeDecoders
import Packfile.Registry

/-!
# Byte orders

The integers of all formats are little-endian. Readers have two ways to say so: an integer may state
its order, and one that does not is read in the order of the stream. So the order of the stream does
no harm to a format all of whose integers state theirs, and a stream that was left big-endian makes
a difference to any other.

TRE is the only format of the first kind. Its header and records are little-endian whatever the
stream is, its blocks inherit the order of the stream and do not ask for it, and names and digests
are bytes. The other seven read at least one number of their header in the order of the stream, and
some have numbers of both kinds next to each other: an offset list takes the size of its table in
the order of the stream and the table itself as little-endian.

## Method

That a format does not heed the order is a coupling of its runs over one stream in two orders. That
a format does is shown by one stream: it holds a whole archive, which is read in the one order and
neither rated nor read the same in the other.

## Main definitions

* `Stream.inOrder`, `Stream.Turned` — a stream in another byte order
* `Reader.Heedless`, `Decode.Heedless` — computations that do not depend on the order
* `Format.ScoreIgnoresOrder`, `Format.DirectoryIgnoresOrder`

## Main results

* `Tre.heedless_decode` — no number of a TRE archive is read in the order of the stream
* `Registry.ignores_order_iff` — it is the only format of which this is true
-/

namespace Packfile

open Run Reading

/-! ### Streams in another byte order -/

namespace Stream

/-- The stream with another byte order. -/
def inOrder (order : ByteOrder) (s : Stream) : Stream := { s with order }

/-- The second stream is the first one, perhaps in the other byte order. -/
def Turned (s t : Stream) : Prop := ∃ order, t = s.inOrder order

/-- What two runs over turned streams may differ in. Nothing excuses them. -/
def turning : Tolerance Error Stream where
  loose := Turned
  excuses _ := False

variable {s : Stream} {order : ByteOrder}

theorem ahead_inOrder : (s.inOrder order).ahead = s.ahead := rfl

theorem failsAfter_inOrder (taken : ℕ) :
    (s.inOrder order).failsAfter taken = s.failsAfter taken := rfl

theorem advance_inOrder (count : ℕ) :
    (s.inOrder order).advance count = (s.advance count).inOrder order := rfl

theorem exhausted_inOrder : (s.inOrder order).exhausted = s.exhausted.inOrder order := by
  obtain ⟨bytes, position, _, failAt⟩ := s
  cases failAt <;> rfl

end Stream

/-- In either byte order of the stream the reader does the same. -/
abbrev Reader.Heedless {α : Type} (body : Reader α) : Prop :=
  Coupled Stream.turning Stream.Turned Stream.Turned body

namespace Session

/-- The second session is the first one, perhaps with its stream in the other byte order. -/
def Turned (x y : Session) : Prop :=
  ∃ order, y = { x with stream := x.stream.inOrder order }

/-- What two runs in turned sessions may differ in. Nothing excuses them. -/
def turning : Tolerance Error Session where
  loose := Turned
  excuses _ := False

end Session

/-- In either byte order of its stream a session gives the same. -/
abbrev Decode.Heedless {α : Type} (body : Decode α) : Prop :=
  Coupled Session.turning Session.Turned Session.Turned body

namespace Reading

variable {α β : Type}

/-- What is left of a coupling that nothing excuses. -/
theorem agree_of_heedless {body : Reader α} (h : body.Heedless) (s : Stream) (order : ByteOrder) :
    Agree Stream.Turned Stream.Turned (body s) (body (s.inOrder order)) :=
  h.agree (fun _ hexcused => hexcused) ⟨order, rfl⟩

theorem agree_of_heedless_decode {body : Decode α} (h : body.Heedless) (x : Session)
    (order : ByteOrder) :
    Agree Session.Turned Session.Turned (body x)
      (body { x with stream := x.stream.inOrder order }) :=
  h.agree (fun _ hexcused => hexcused) ⟨order, rfl⟩

/-! ### Questions and moves -/

theorem heedless_throw (e : Error) : (throw e : Reader α).Heedless :=
  coupled_throw (fun _ _ h => h) e

theorem heedless_length : Reader.length.Heedless :=
  coupled_query (by rintro s _ ⟨order, rfl⟩; rfl)

theorem heedless_offset : Reader.offset.Heedless :=
  coupled_query (by rintro s _ ⟨order, rfl⟩; rfl)

theorem heedless_remaining : Reader.remaining.Heedless :=
  coupled_query (by rintro s _ ⟨order, rfl⟩; rfl)

theorem heedless_ofExcept (result : Except Error α) : (Reader.ofExcept result).Heedless := by
  intro s t h
  cases result with
  | ok a => exact .inl (.ok h)
  | error e => exact .inl (.error h)

theorem heedless_liftExcept (result : Except Error α) : (liftM result : Reader α).Heedless :=
  heedless_ofExcept result

theorem heedless_seek (p : ℕ) : (Reader.seek p).Heedless := by
  refine heedless_length.bind fun _ => Coupled.guard (fun _ _ h => h) ?_
  rintro s _ ⟨order, rfl⟩
  exact .inl (.ok ⟨order, rfl⟩)

theorem heedless_checkRange (what : String) (start size : ℕ) :
    (Reader.checkRange what start size).Heedless :=
  heedless_length.bind fun _ => Coupled.ite (heedless_throw _) (coupled_pure _)

/-! ### Reading at the position -/

theorem heedless_exactly (k : ℕ) : (Reader.exactly k).Heedless := by
  rintro s _ ⟨order, rfl⟩
  left
  unfold Reader.exactly
  simp only [Stream.ahead_inOrder, Stream.failsAfter_inOrder, Stream.advance_inOrder,
    Stream.exhausted_inOrder]
  exact .ite (.ok ⟨order, rfl⟩) (.ite (.error ⟨order, rfl⟩) (.error ⟨order, rfl⟩))

theorem heedless_bytes (k : ℕ) : (Reader.bytes k).Heedless :=
  heedless_remaining.bind fun _ => Coupled.guard (fun _ _ h => h) (heedless_exactly k)

theorem heedless_leadingBytes (width : ℕ) : (Reader.leadingBytes width).Heedless :=
  (heedless_seek 0).bind fun _ => heedless_length.bind fun _ => heedless_bytes _

theorem heedless_terminatedBytes (limit : Option ℕ) : (Reader.terminatedBytes limit).Heedless := by
  rintro s _ ⟨order, rfl⟩
  left
  unfold Reader.terminatedBytes
  simp only [Stream.ahead_inOrder, Stream.failsAfter_inOrder, Stream.advance_inOrder,
    Stream.exhausted_inOrder]
  exact .ite (.ok ⟨order, rfl⟩) (.ite (.ok ⟨order, rfl⟩) (.error ⟨order, rfl⟩))

theorem heedless_asRecord {body : Reader α} (h : body.Heedless) :
    (Reader.asRecord body).Heedless := by
  rintro s _ ⟨order, rfl⟩
  left
  have hagree := agree_of_heedless h s order
  unfold Reader.asRecord
  generalize body s = r at hagree
  generalize body (s.inOrder order) = r' at hagree
  cases hagree with
  | ok hst => exact .ok hst
  | @error e u v hst =>
    obtain ⟨order', rfl⟩ := hst
    cases e <;> exact .error ⟨order', rfl⟩

theorem heedless_content (stored decoded : ℕ) (codec : Codec) :
    (Reader.content stored decoded codec).Heedless := by
  rintro s _ ⟨order, rfl⟩
  left
  have hfeed : Feed.ofStream (s.inOrder order) stored = Feed.ofStream s stored := rfl
  unfold Reader.content
  rw [hfeed]
  dsimp only
  cases ContentReader.make (Feed.ofStream s stored) decoded codec with
  | error e => exact .error ⟨order, rfl⟩
  | ok r =>
    dsimp only
    cases r.readAll with
    | error e => exact .error ⟨order, rfl⟩
    | ok found => exact .ok ⟨order, rfl⟩

theorem heedless_decodeBlock (start stored decoded : ℕ) (codec : Codec) :
    (Reader.decodeBlock start stored decoded codec).Heedless :=
  (heedless_checkRange _ _ _).bind fun _ => Coupled.guard (fun _ _ h => h) <|
    (heedless_seek _).bind fun _ => heedless_content _ _ _

theorem heedless_nameInBlob (start size relative : ℕ) :
    (Reader.nameInBlob start size relative).Heedless := by
  rw [Reader.nameInBlob]
  refine Coupled.guard (fun _ _ h => h) ?_
  refine (heedless_liftExcept _).bind fun _ => (heedless_seek _).bind fun _ => ?_
  refine (heedless_liftExcept _).bind fun _ => ?_
  exact (heedless_terminatedBytes _).bind fun _ => coupled_pure _

theorem heedless_namesFromBlob (start size : ℕ) (offsets : List ℕ) :
    (Reader.namesFromBlob start size offsets).Heedless :=
  (heedless_checkRange _ _ _).bind fun _ => coupled_mapM fun _ _ => heedless_nameInBlob _ _ _

/-! ### Steps of a decode -/

theorem heedless_ofReader {body : Reader α} (h : body.Heedless) :
    (Decode.ofReader body).Heedless := by
  rintro x _ ⟨order, rfl⟩
  left
  have hagree := agree_of_heedless h x.stream order
  unfold Decode.ofReader
  dsimp only
  generalize body x.stream = r at hagree
  generalize body (x.stream.inOrder order) = r' at hagree
  cases hagree with
  | ok hst =>
    obtain ⟨order', rfl⟩ := hst
    exact .ok ⟨order', rfl⟩
  | error hst =>
    obtain ⟨order', rfl⟩ := hst
    exact .error ⟨order', rfl⟩

theorem heedless_liftReader {body : Reader α} (h : body.Heedless) :
    (liftM body : Decode α).Heedless := heedless_ofReader h

theorem heedless_liftExcept_decode (result : Except Error α) :
    (liftM result : Decode α).Heedless := heedless_ofReader (heedless_ofExcept result)

theorem heedless_options : Decode.options.Heedless :=
  coupled_query (by rintro x _ ⟨order, rfl⟩; rfl)

theorem heedless_report (r : Report) : (Decode.report r).Heedless :=
  coupled_modify (by rintro x _ ⟨order, rfl⟩; exact ⟨order, rfl⟩)

theorem heedless_clearPalettes : Decode.clearPalettes.Heedless :=
  coupled_modify (by rintro x _ ⟨order, rfl⟩; exact ⟨order, rfl⟩)

theorem heedless_checkCount (count recordSize available : ℕ) :
    (Decode.checkCount count recordSize available).Heedless :=
  heedless_options.bind fun _ => heedless_ofReader (heedless_ofExcept _)

/-- A directory that is a stream of its own inherits the byte order. A decode may go on over it and
come back. -/
theorem heedless_onInherited {bytes : Bytes} {body : Decode α} {f : α × Stream → Decode β}
    (hbody : body.Heedless) (hf : ∀ a u v, f (a, u) = f (a, v))
    (hrest : ∀ a u, (f (a, u)).Heedless) :
    (Decode.ofReader (do return { bytes, order := (← Reader.order) }) >>= fun directory : Stream =>
      Decode.onStream directory body >>= f).Heedless := by
  rintro x _ ⟨order, rfl⟩
  have hagree := agree_of_heedless_decode hbody
    { x with stream := { bytes, order := x.stream.order } } order
  have hleft : (Decode.ofReader (do return { bytes, order := (← Reader.order) }) >>=
      fun directory : Stream => Decode.onStream directory body >>= f) x =
      (Decode.onStream { bytes, order := x.stream.order } body >>= f) x := rfl
  have hright : (Decode.ofReader (do return { bytes, order := (← Reader.order) }) >>=
      fun directory : Stream => Decode.onStream directory body >>= f)
        { x with stream := x.stream.inOrder order } =
      (Decode.onStream { bytes, order } body >>= f)
        { x with stream := x.stream.inOrder order } := rfl
  rw [hleft, hright, onStream_bind, onStream_bind]
  dsimp only [Stream.inOrder] at hagree ⊢
  generalize body { x with stream := { bytes, order := x.stream.order } } = r at hagree
  generalize body { x with stream := { bytes, order } } = r' at hagree
  cases hagree with
  | @ok a y z hyz =>
    obtain ⟨order', rfl⟩ := hyz
    dsimp only
    rw [hf a (Stream.inOrder order' y.stream) y.stream]
    exact hrest a y.stream _ _ ⟨order, rfl⟩
  | error hyz =>
    obtain ⟨order', rfl⟩ := hyz
    exact .inl (.error ⟨order, rfl⟩)

/-- A directory that is deciphered or inflated does not depend on the order, apart from the order
that it inherits. -/
theorem heedless_onDirectory {start stored decoded : ℕ} {codec : Codec} {body : Decode α}
    {f : α × Stream → Decode β} (hbody : body.Heedless) (hf : ∀ a u v, f (a, u) = f (a, v))
    (hrest : ∀ a u, (f (a, u)).Heedless) :
    (Decode.ofReader (Reader.openDirectory start stored decoded codec) >>=
      fun directory : Stream => Decode.onStream directory body >>= f).Heedless := by
  rw [Reader.openDirectory, ofReader_bind, bind_assoc]
  refine (heedless_ofReader (heedless_decodeBlock _ _ _ _)).bind fun block => ?_
  split
  · rw [ofReader_bind, bind_assoc]
    refine (heedless_ofReader (heedless_throw _)).bind fun _ => ?_
    exact heedless_onInherited hbody hf hrest
  · exact heedless_onInherited hbody hf hrest

end Reading

/-! ### The one format that does not heed the order -/

namespace Tre

theorem couples_turned : Couples Stream.turning Stream.Turned :=
  ⟨fun _ _ h => h, heedless_offset, heedless_exactly, heedless_asRecord⟩

theorem heedless_rate (source : Location) : (rate source).Heedless := by
  refine (heedless_leadingBytes _).bind fun found => Coupled.ite (coupled_pure _) ?_
  refine (heedless_seek _).bind fun _ => couples_turned.treHeader.bind fun header => ?_
  refine heedless_length.bind fun _ => (heedless_liftExcept _).bind fun _ => ?_
  exact (heedless_liftExcept _).bind fun _ => coupled_pure _

theorem heedless_tableFrom (count index : ℕ) (found : Array Record) :
    (Decode.tableFrom (fun _ => return .entry (← Decode.ofReader Reader.treRecord)) count index
      found).Heedless := by
  induction count generalizing index found with
  | zero => exact coupled_pure _
  | succ count ih =>
    refine (heedless_liftReader heedless_offset).bind fun offset => ?_
    rw [bind_assoc]
    refine (heedless_ofReader couples_turned.treRecord).bind fun record => ?_
    exact (heedless_report _).bind fun _ => ih _ _

theorem heedless_readHashes (header : Header) : (readHashes header).Heedless := by
  refine (heedless_liftExcept_decode _).bind fun size => ?_
  refine (heedless_liftExcept_decode _).bind fun start => ?_
  refine (heedless_liftReader heedless_length).bind fun _ => ?_
  refine Coupled.ite ?_ ((heedless_report _).bind fun _ => coupled_pure _)
  refine (heedless_liftReader (heedless_seek _)).bind fun _ => ?_
  exact (heedless_liftReader (heedless_bytes _)).bind fun _ => coupled_pure _

theorem heedless_listEntries (source : Location) (hashes : Option Bytes) (index : ℕ)
    (pairs : List (Record × String)) : (listEntries source hashes index pairs).Heedless := by
  induction pairs generalizing index with
  | nil => exact coupled_pure _
  | cons p pairs ih =>
    refine Coupled.optional (heedless_report _) ?_
    cases hashes with
    | none => exact (coupled_pure _).bind fun _ => (ih _).bind fun _ => coupled_pure _
    | some hashes =>
      refine (heedless_liftExcept_decode _).bind fun _ => ?_
      refine (heedless_ofReader (heedless_ofExcept _)).bind fun _ => ?_
      exact (coupled_pure _).bind fun _ => (ih _).bind fun _ => coupled_pure _

theorem heedless_decode (source : Location) : (decode source).Heedless := by
  refine (heedless_liftReader couples_turned.treHeader).bind fun header => ?_
  refine (heedless_checkCount _ _ _).bind fun count => ?_
  refine Coupled.optional (heedless_checkCount _ _ _) ?_
  refine (heedless_liftExcept_decode _).bind fun size => ?_
  have htable : (Decode.readTable count fun _ =>
      return .entry (← Decode.ofReader Reader.treRecord)).Heedless :=
    (heedless_tableFrom _ _ _).bind fun _ => coupled_pure _
  refine heedless_onDirectory htable (fun _ _ _ => rfl) fun records _ => ?_
  refine (heedless_liftExcept_decode _).bind fun start => ?_
  refine heedless_onDirectory (heedless_ofReader (heedless_namesFromBlob _ _ _))
    (fun _ _ _ => rfl) fun names _ => ?_
  exact (heedless_readHashes header).bind fun _ => heedless_listEntries _ _ _ _

end Tre

/-! ### What a format finds -/

namespace Format

/-- The confidence that a format has in a stream. -/
def rating (format : Format) (source : Location) (s : Stream) : Except Error Confidence :=
  ((format.score source).outcome s).1

/-- The entries that a format finds in a session, or the error. -/
def listing (format : Format) (source : Location) (x : Session) : Except Error (List Entry) :=
  ((format.readDirectory source).outcome x).1

/-- Every stream is rated the same in either byte order. -/
def ScoreIgnoresOrder (format : Format) : Prop :=
  ∀ source s order, format.rating source (s.inOrder order) = format.rating source s

/-- In every session the same entries are found, or the same error, in either byte order of the
stream. -/
def DirectoryIgnoresOrder (format : Format) : Prop :=
  ∀ source x order,
    format.listing source { x with stream := x.stream.inOrder order } = format.listing source x

variable {format : Format}

theorem scoreIgnoresOrder_of_heedless (h : ∀ source, (format.rate source).Heedless) :
    format.ScoreIgnoresOrder := by
  intro source s order
  have hagree := agree_of_heedless (h source) s order
  unfold rating Format.score Reader.outcome Reader.score Reader.restoring
  generalize format.rate source s = r at hagree
  generalize format.rate source (s.inOrder order) = r' at hagree
  cases hagree with
  | ok _ => rfl
  | error _ => rfl

theorem directoryIgnoresOrder_of_heedless (h : ∀ source, (format.decode source).Heedless) :
    format.DirectoryIgnoresOrder := by
  intro source x order
  have hread : (format.readDirectory source).Heedless :=
    heedless_clearPalettes.bind fun _ => (heedless_liftReader (heedless_seek 0)).bind fun _ =>
      (h source).bind fun _ => heedless_options.bind fun _ =>
        heedless_ofReader (heedless_ofExcept _)
  have hagree := agree_of_heedless_decode hread x order
  unfold listing Decode.outcome
  generalize format.readDirectory source x = r at hagree
  generalize format.readDirectory source { x with stream := x.stream.inOrder order } = r' at hagree
  cases hagree with
  | ok _ => rfl
  | error _ => rfl

/-! ### The other formats -/

/-- The bytes, as a file, are neither rated nor read the same in both byte orders. -/
def IsTurnedBy (format : Format) (bytes : Bytes) : Prop :=
  let source := Location.file "archive" bytes.length
  let little : Stream := { bytes, order := .little }
  let big : Stream := { bytes, order := .big }
  format.rating source big ≠ format.rating source little ∧
    format.listing source { stream := big } ≠ format.listing source { stream := little }

instance (format : Format) (bytes : Bytes) : Decidable (format.IsTurnedBy bytes) :=
  inferInstanceAs (Decidable (_ ∧ _))

theorem IsTurnedBy.not_ignored {bytes : Bytes} (h : format.IsTurnedBy bytes) :
    ¬ format.ScoreIgnoresOrder ∧ ¬ format.DirectoryIgnoresOrder :=
  ⟨fun hscore => h.1 (hscore _ { bytes } .big),
    fun hread => h.2 (hread _ { stream := { bytes } } .big)⟩

end Format

namespace Registry

/-- The formats that read numbers in the order of the stream, and for each of them a small archive
that has such a number in its header. -/
def turned : List (Format × Bytes) :=
  [(Xarc.format, Xarc.magic ++ [1, 0, 0, 0] ++ List.replicate 17 0),
    (Ofs.format, [8, 0, 0, 0, 9, 0, 0, 0, 97]),
    (Dtre.format, Dtre.magic ++ [8, 0, 0, 0, 1, 0, 14, 0, 0, 0, 0, 0, 0, 0]),
    (Rpak.format, Rpak.magic ++ [1, 0, 0, 0, 0, 0, 0, 0, 0, 0, 0, 0]),
    (Spk.format, Spk.magic ++ [0, 0, 1, 0, 0, 0, 0, 0] ++ List.replicate 32 0 ++
      [255, 255, 255, 255] ++ List.replicate 8 0),
    (Sprb.format, Sprb.magic ++ [1, 0, 0, 0, 0, 0, 0, 0]),
    (Lump.format, Lump.magic ++ [8, 0, 0, 0])]

theorem isTurnedBy_of_mem : ∀ p ∈ turned, p.1.IsTurnedBy p.2 := by decide +kernel

/-- Every format but TRE is one of these. -/
theorem mem_formats {format : Format} :
    format ∈ standard.formats ↔ format = Tre.format ∨ ∃ bytes, (format, bytes) ∈ turned := by
  have hfirst : (∃ bytes, (format, bytes) ∈ turned) ↔ format ∈ turned.map Prod.fst := by
    simp
  rw [hfirst]
  simp only [standard, turned, List.map_cons, List.map_nil, List.mem_cons, List.not_mem_nil]
  tauto

variable {format : Format}

/-- Only TRE has a property that it has, and that nothing has which a change of the byte order
turns. -/
theorem iff_eq_tre {P : Format → Prop} (htre : P Tre.format)
    (hturned : ∀ format bytes, Format.IsTurnedBy format bytes → ¬ P format)
    (hmem : format ∈ standard.formats) : P format ↔ format = Tre.format := by
  constructor
  · intro hP
    obtain heq | ⟨bytes, hbytes⟩ := mem_formats.1 hmem
    · exact heq
    · exact absurd hP (hturned format bytes (isTurnedBy_of_mem _ hbytes))
  · rintro rfl
    exact htre

/-- TRE is the only format that rates, and the only one that reads, a stream without regard to its
byte order. -/
theorem ignores_order_iff (hmem : format ∈ standard.formats) :
    (format.ScoreIgnoresOrder ↔ format = Tre.format) ∧
      (format.DirectoryIgnoresOrder ↔ format = Tre.format) := by
  constructor
  · refine iff_eq_tre ?_ (fun _ _ h => h.not_ignored.1) hmem
    exact Format.scoreIgnoresOrder_of_heedless Tre.heedless_rate
  · refine iff_eq_tre ?_ (fun _ _ h => h.not_ignored.2) hmem
    exact Format.directoryIgnoresOrder_of_heedless Tre.heedless_decode

/-- An offset list heeds the order. -/
theorem ignores_order_iff_ofs :
    ¬ Ofs.format.ScoreIgnoresOrder ∧ ¬ Ofs.format.DirectoryIgnoresOrder := by
  have hmem : Ofs.format ∈ standard.formats := by simp [standard]
  have hne : Ofs.format ≠ Tre.format := fun h => absurd (congrArg Format.id h) (by decide)
  have h := ignores_order_iff hmem
  exact ⟨fun hscore => hne (h.1.1 hscore), fun hread => hne (h.2.1 hread)⟩

/-- A list of two blocks, of two bytes and of one, is found to be one in little-endian order only.
In big-endian order the first offset ends a table of more entries than the limit allows, although
the table itself is read as little-endian. -/
theorem ofs_turned :
    Ofs.format ∈ standard.formats ∧
      Ofs.format.IsTurnedBy [12, 0, 0, 0, 14, 0, 0, 0, 15, 0, 0, 0, 97, 98, 99] :=
  ⟨by simp [standard], by decide +kernel⟩

end Registry

end Packfile
