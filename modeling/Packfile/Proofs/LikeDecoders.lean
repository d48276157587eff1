import Packfile.Proofs.Likeness
import Packfile.Registry

/-!
# Decoders and what they cannot see

Every decoder is made of steps that cannot tell sessions apart that are alike, and so it cannot tell
them apart either. That is two laws in one. Where the storage of the second session may fail, a
decoder that meets the failure says so: it never takes it for the end of a directory, a record that
makes no sense or an entry without a signature. Where it may not fail, what a decoder finds does not
depend on the reports that are there already, on whether the name table is loaded, or on where the
stream was left.

## Where failures could get lost

Most steps just fail. Three look at an error before it goes on: the reading of a record as a whole,
which gives it another name, the walk without a count, which gives up on a record that makes no sense
but not on one that cannot be read, and the update of entries one by one, which keeps the first
error for later. `Listing.updateEach` with its error taken out again is a plain `mapM`.

## Main definitions

* `Format.IsBlind` — formats whose decoders cannot tell sessions apart that are alike

## Main results

* `Walks.alike_readTable`, `Walks.alike_readUntil`, `Walks.alike_walkTree`
* `Listing.alike_updated`
* `Format.isBlind_of_mem` — every format of the library is blind to what it cannot see
-/

namespace Packfile

open Run Reading

variable {α β σ : Type} {failing placed placed' : Prop}
  {env : Options × FileTree × NameTable}

/-! ### Positions -/

/-- What does not need the streams to be placed does not mind if they are. -/
theorem Reading.alike_of_loose {body : Reader α} (h : body.Alike failing False placed') :
    body.Alike failing placed placed' := h.mono (fun _ _ h => h.loosen) fun _ _ h => h

theorem Reading.alike_pure (a : α) : (pure a : Reader α).Alike failing placed False :=
  (coupled_pure a).mono (fun _ _ h => h) fun _ _ h => h.loosen

theorem Reading.alike_loosen {body : Reader α} (h : body.Alike failing placed placed') :
    body.Alike failing placed False := h.mono (fun _ _ h => h) fun _ _ h => h.loosen

/-- What does not need the sessions to be placed does not mind if they are. -/
theorem Reading.alike_of_loose_decode {body : Decode α} (h : body.Alike failing False placed' env) :
    body.Alike failing placed placed' env := h.mono (fun _ _ h => h.loosen) fun _ _ h => h

theorem Reading.alike_loosen_decode {body : Decode α}
    (h : body.Alike failing placed placed' env) : body.Alike failing placed False env :=
  h.mono (fun _ _ h => h) fun _ _ h => h.loosen

/-! ### Offsets and names -/

namespace Tables

theorem alike_offsetsFrom (width : ℕ) (order : ByteOrder) (scale count : ℕ) (found : Array ℕ) :
    (Reader.offsetsFrom width order scale count found).Alike failing True True := by
  induction count generalizing found with
  | zero => exact coupled_pure _
  | succ count ih =>
    exact (alike_uint _ _).bind fun _ => (alike_ofExcept _).bind fun _ => ih _

theorem alike_offsetTable (count : EntryCount) (width : ℕ) (order : ByteOrder) (scale : ℕ) :
    (Reader.offsetTable count width order scale).Alike failing True True :=
  (alike_offsetsFrom _ _ _ _ _).bind fun _ => coupled_pure _

/-- A directory that is deciphered or inflated is the same stream, or cannot be had. -/
theorem alike_openDirectory (start stored decoded : ℕ) (codec : Codec) :
    (Reader.openDirectory start stored decoded codec).Alike failing placed False :=
  (alike_decodeBlock _ _ _ _).bind fun _ => Coupled.guard loosen_stream <|
    alike_order.bind fun _ => coupled_pure _

end Tables

namespace Names

theorem alike_nameInBlob (start size relative : ℕ) :
    (Reader.nameInBlob start size relative).Alike failing placed True := by
  rw [Reader.nameInBlob]
  refine Coupled.guard loosen_stream ?_
  exact (alike_liftExcept _).bind fun _ => (alike_seek _).bind fun _ =>
    (alike_liftExcept _).bind fun _ => alike_terminatedString _

theorem alike_namesFromBlob (start size : ℕ) (offsets : List ℕ) :
    (Reader.namesFromBlob start size offsets).Alike failing placed False :=
  (alike_checkRange _ _ _).bind fun _ => alike_of_loose <|
    coupled_mapM fun _ _ => alike_loosen (alike_nameInBlob _ _ _)

end Names

/-! ### Walks -/

namespace Walks

theorem alike_tableFrom {read : ℕ → Decode (RecordAction α)}
    (hread : ∀ index, (read index).Alike failing True True env) (count index : ℕ)
    (found : Array α) : (Decode.tableFrom read count index found).Alike failing True True env := by
  induction count generalizing index found with
  | zero => exact coupled_pure _
  | succ count ih =>
    refine (alike_liftReader alike_offset).bind fun offset => ?_
    refine (hread index).bind fun action => ?_
    cases action with
    | finish => exact coupled_pure _
    | skip => exact (alike_report _).bind fun _ => ih _ _
    | entry value => exact (alike_report _).bind fun _ => ih _ _

theorem alike_readTable (count : EntryCount) {read : ℕ → Decode (RecordAction α)}
    (hread : ∀ index, (read index).Alike failing True True env) :
    (Decode.readTable count read).Alike failing True True env :=
  (alike_tableFrom hread _ _ _).bind fun _ => coupled_pure _

/-- A table of records that are entries one and all. -/
theorem alike_readEntries (count : EntryCount) {body : ℕ → Reader α}
    (hbody : ∀ index, (body index).Alike failing True True) :
    (Decode.readTable count fun index => return .entry (← Decode.ofReader (body index))).Alike
      failing True True env :=
  alike_readTable count fun index => (alike_ofReader (hbody index)).bind fun _ => coupled_pure _

/-- The walk gives up on a record that makes no sense, but a failure of the storage ends it as an
error. -/
theorem alike_untilFrom (stop recordSize : ℕ) {read : σ → ℕ → Decode (RecordAction α × σ)}
    (hread : ∀ state index, (read state index).Alike failing True True env) (rounds : ℕ)
    (state : σ) (index : ℕ) (found : Array α) :
    (Decode.untilFrom stop recordSize read rounds state index found).Alike failing True False
      env := by
  induction rounds generalizing state index found with
  | zero => exact alike_pure_decode _
  | succ rounds ih =>
    refine (alike_liftReader alike_offset).bind fun offset => ?_
    refine Coupled.ite ?_ ((alike_checkRoom _).bind fun _ => ?_)
    · exact Coupled.optional (alike_report _) (alike_pure_decode _)
    refine alike_attempt (hread state index) (fun result => ?_) (fun e => ?_) fun e he => ?_
    · obtain ⟨action, state⟩ := result
      cases action with
      | finish => exact alike_pure_decode _
      | skip => exact (alike_report _).bind fun _ => (alike_liftExcept_decode _).bind fun _ => ih _ _ _
      | entry value =>
        exact (alike_report _).bind fun _ => (alike_liftExcept_decode _).bind fun _ => ih _ _ _
    · exact Coupled.guard loosen_session ((alike_report _).bind fun _ => alike_pure_decode _)
    · dsimp only
      rw [if_pos (by rw [he, Bool.true_or])]
      rfl

theorem alike_readUntil (stop recordSize : ℕ) (start : σ)
    {read : σ → ℕ → Decode (RecordAction α × σ)}
    (hread : ∀ state index, (read state index).Alike failing True True env) :
    (Decode.readUntil stop recordSize start read).Alike failing True False env :=
  (alike_liftReader alike_length).bind fun _ => (alike_liftReader alike_offset).bind fun _ =>
    (alike_untilFrom _ _ hread _ _ _ _).bind fun _ => coupled_pure _

theorem alike_addFile (path name : String) (entry : Entry) (walk : TreeWalk) :
    (Decode.addFile path name entry walk).Alike failing placed placed env :=
  (alike_checkRoom _).bind fun _ => (alike_ofReader (alike_ofExcept _)).bind fun _ =>
    (alike_report _).bind fun _ => coupled_pure _

/-- Every folder goes to its own table of nodes. -/
theorem alike_walkFolder {readFolder : ℕ → Decode (List TreeNode)}
    (hread : ∀ offset, (readFolder offset).Alike failing False False env)
    (maxDepth levels depth : ℕ) (path : String) (offset : ℕ) (walk : TreeWalk) :
    (Decode.walkFolder readFolder maxDepth levels depth path offset walk).Alike failing False False
      env := by
  induction levels generalizing depth path offset walk with
  | zero => exact alike_throw_decode _
  | succ levels ih =>
    rw [Decode.walkFolder]
    refine Coupled.guard loosen_session ((hread offset).bind fun nodes => ?_)
    refine coupled_foldlM _ fun walk node _ => ?_
    cases node with
    | file name entry => exact alike_addFile _ _ _ _
    | folder name offset => exact (alike_liftExcept_decode _).bind fun _ => ih _ _ _ _

theorem alike_walkTree {readFolder : ℕ → Decode (List TreeNode)}
    (hread : ∀ offset, (readFolder offset).Alike failing False False env) (rootName : String)
    (root maxDepth : ℕ) :
    (Decode.walkTree rootName root maxDepth readFolder).Alike failing False False env :=
  (alike_walkFolder hread _ _ _ _ _ _).bind fun _ => coupled_pure _

end Walks

/-! ### Entries updated one by one -/

theorem Reading.ofReader_bind (body : Reader α) (f : α → Reader β) :
    Decode.ofReader (body >>= f) =
      Decode.ofReader body >>= fun a => Decode.ofReader (f a) := by
  funext x
  cases h : body x.stream with
  | ok a s =>
    have hleft : Decode.ofReader body x = .ok a { x with stream := s } := by
      rw [Decode.ofReader, h]
    rw [bind_of_ok hleft, Decode.ofReader, bind_of_ok h, Decode.ofReader]
  | error e s =>
    have hleft : Decode.ofReader body x = .error e { x with stream := s } := by
      rw [Decode.ofReader, h]
    rw [bind_of_error hleft, Decode.ofReader, bind_of_error h]

namespace Listing

variable {update : Entry → Reader Entry} {e : Entry} {s u : Stream}

theorem attempt_of_ok {e' : Entry} (h : update e s = .ok e' u) :
    Reader.attempt (update e) s = .ok (.ok e') u := by
  rw [Reader.attempt, h]

theorem attempt_of_error {error : Error} (h : update e s = .error error u) :
    Reader.attempt (update e) s = .ok (.error error) u := by
  rw [Reader.attempt, h]

/-- The error that an update of entries keeps for later is the one that a `mapM` ends with. -/
theorem updateEach_orFail (update : Entry → Reader Entry) (entries : List Entry) :
    (updateEach update entries >>= fun result => Reader.ofExcept (orFail result))
      = entries.mapM update := by
  funext s
  induction entries generalizing s with
  | nil => rfl
  | cons e rest ih =>
    rw [updateEach, List.mapM_cons, bind_assoc]
    cases h : update e s with
    | error error u =>
      rw [bind_of_error h, bind_of_ok (attempt_of_error h)]
      rfl
    | ok e' u =>
      rw [bind_of_ok h, bind_of_ok (attempt_of_ok h)]
      have hrest := ih u
      cases hupdate : updateEach update rest u with
      | error error v =>
        rw [bind_of_error hupdate] at hrest
        rw [bind_of_error hrest.symm, bind_assoc, bind_of_error hupdate]
      | ok result v =>
        rw [bind_of_ok hupdate] at hrest
        rw [bind_assoc, bind_of_ok hupdate]
        obtain ⟨found, failure⟩ := result
        cases failure with
        | none =>
          rw [bind_of_ok hrest.symm]
          rfl
        | some error =>
          rw [bind_of_error hrest.symm]
          rfl

/-- Entries that are updated one by one, with the error taken out again, before anything else is
done. -/
theorem alike_updated {γ : Type} {entries : List Entry} {k : List Entry → Decode γ}
    (hupdate : ∀ e, (update e).Alike failing False False)
    (hk : ∀ found, (k found).Alike failing False False env) :
    ((liftM (updateEach update entries) : Decode (List Entry × Option Error)) >>= fun result =>
      Decode.ofReader (Reader.ofExcept (orFail result)) >>= k).Alike failing False False env := by
  have heq : ((liftM (updateEach update entries) : Decode (List Entry × Option Error)) >>=
      fun result => Decode.ofReader (Reader.ofExcept (orFail result)) >>= k)
        = Decode.ofReader (entries.mapM update) >>= k := by
    rw [← updateEach_orFail, ofReader_bind, bind_assoc]
    rfl
  rw [heq]
  exact (alike_ofReader (coupled_mapM fun e _ => hupdate e)).bind hk

theorem alike_sniffHint (e : Entry) : (sniffHint e).Alike failing False False := by
  rw [sniffHint]
  refine Coupled.ite (coupled_pure _) (alike_length.bind fun _ => Coupled.ite (coupled_pure _) ?_)
  refine (alike_seek _).bind fun _ => (alike_bytes _).bind fun header => ?_
  cases Signature.extensionOf? header with
  | some extension => exact alike_pure _
  | none => exact alike_pure _

theorem alike_scanLength (field : LengthField) (e : Entry) :
    (scanLength field e).Alike failing False False := by
  refine (alike_checkRange _ _ _).bind fun _ => (alike_seek _).bind fun _ => ?_
  refine (alike_uint _ _).bind fun stated => (alike_liftExcept _).bind fun _ => ?_
  cases Word.add? stated field.excluded with
  | some length => exact alike_pure _
  | none => exact alike_throw _

/-- The last steps of the formats without names. -/
theorem alike_named (extension : String) (entries : List Entry) :
    (do
      let hinted ← sniffHints entries
      let found ← Decode.ofReader (Reader.ofExcept (orFail hinted))
      return generate extension found : Decode (List Entry)).Alike failing False False env :=
  alike_updated alike_sniffHint fun _ => coupled_pure _

end Listing

/-! ### The formats -/

/-- The decoder of the format cannot tell sessions apart that are alike. -/
def Format.IsBlind (format : Format) : Prop :=
  ∀ (failing : Prop) (env : Options × FileTree × NameTable) (source : Location),
    (format.decode source).Alike failing True False env

namespace Xarc

theorem alike_readRecord : readRecord.Alike failing True True :=
  alike_u32.bind fun _ => alike_u32.bind fun _ => alike_u32.bind fun _ => alike_u32.bind fun _ =>
    (alike_checkRange _ _ _).bind fun _ => coupled_pure _

theorem isBlind : format.IsBlind := by
  intro failing env source
  refine (alike_liftReader (alike_skip _)).bind fun _ => ?_
  refine (alike_liftReader alike_u32).bind fun _ => ?_
  refine (alike_liftReader alike_remaining).bind fun _ => (alike_checkCount _ _ _).bind fun _ => ?_
  refine (Walks.alike_readEntries _ fun _ => alike_readRecord).bind fun _ => ?_
  refine (alike_liftReader alike_offset).bind fun _ => ?_
  refine (alike_liftReader alike_length).bind fun _ => (alike_liftExcept_decode _).bind fun _ => ?_
  exact (alike_liftReader (Names.alike_namesFromBlob _ _ _)).bind fun _ => coupled_pure _

end Xarc

namespace Ofs

theorem alike_listEntries (source : Location) (index : ℕ) (ps : List (ℕ × ℕ)) :
    (listEntries source index ps).Alike failing placed placed env := by
  induction ps generalizing index with
  | nil => exact coupled_pure _
  | cons p ps ih => exact (alike_report _).bind fun _ => (ih _).bind fun _ => coupled_pure _

theorem isBlind : format.IsBlind := by
  intro failing env source
  refine (alike_liftReader alike_u32).bind fun _ => Coupled.guard loosen_session ?_
  refine (alike_liftReader alike_length).bind fun _ => (alike_checkCount _ _ _).bind fun _ => ?_
  refine (alike_liftReader (alike_seek _)).bind fun _ => ?_
  refine (alike_liftReader (Tables.alike_offsetTable _ _ _ _)).bind fun _ => ?_
  refine Coupled.guard loosen_session (Coupled.optional (alike_report _) ?_)
  refine (alike_ofReader (alike_ofExcept _)).bind fun _ => (alike_listEntries _ _ _).bind fun _ => ?_
  exact alike_of_loose_decode (Listing.alike_named _ _)

end Ofs

namespace Dtre

theorem alike_readNode (source : Location) : (readNode source).Alike failing True True := by
  refine alike_u8.bind fun _ => alike_u8.bind fun _ => (alike_fixedString _).bind fun _ => ?_
  refine Coupled.ite ?_ (Coupled.ite ?_ (alike_throw _))
  · exact alike_u32.bind fun _ => alike_u32.bind fun _ => (alike_checkRange _ _ _).bind fun _ =>
      coupled_pure _
  · exact alike_u32.bind fun _ => coupled_pure _

theorem alike_readNodes (source : Location) (count : ℕ) (found : Array TreeNode) :
    (readNodes source count found).Alike failing True True := by
  induction count generalizing found with
  | zero => exact coupled_pure _
  | succ count ih => exact (alike_readNode source).bind fun _ => ih _

theorem alike_readFolder (source : Location) (offset : ℕ) :
    (readFolder source offset).Alike failing False False env := by
  refine (alike_liftReader (alike_seek _)).bind fun _ => (alike_liftReader alike_u32).bind fun _ => ?_
  refine (alike_liftReader alike_remaining).bind fun _ => (alike_checkCount _ _ _).bind fun _ => ?_
  exact (alike_liftReader (alike_readNodes _ _ _)).bind fun _ => alike_pure_decode _

theorem isBlind : format.IsBlind := by
  intro failing env source
  refine (alike_liftReader (alike_skip _)).bind fun _ => ?_
  refine (alike_liftReader alike_u32).bind fun _ => ?_
  refine (alike_liftReader (alike_checkRange _ _ _)).bind fun _ => ?_
  refine (alike_liftReader (alike_seek _)).bind fun _ => ?_
  refine (alike_liftReader (alike_readNode source)).bind fun node => ?_
  cases node with
  | file name e => exact alike_throw_decode _
  | folder name offset =>
    exact alike_of_loose_decode (Walks.alike_walkTree (alike_readFolder source) _ _ _)

end Dtre

namespace Tre

/-- What headers and records ask of two runs over streams related by `R`: the steps that they are
made of agree. None of these is the reading of an integer in the order of the stream. -/
structure Couples (T : Tolerance Error Stream) (R : Stream → Stream → Prop) : Prop where
  /-- The streams may be those behind an error. -/
  loose : ∀ s t, R s t → T.loose s t
  /-- The position is the same. -/
  offset : Coupled T R R Reader.offset
  /-- The same bytes are read. -/
  exactly : ∀ count, Coupled T R R (Reader.exactly count)
  /-- So is a record that is read as a whole. -/
  asRecord : ∀ {α : Type} {body : Reader α}, Coupled T R R body →
    Coupled T R R (Reader.asRecord body)

namespace Couples

variable {T : Tolerance Error Stream} {R : Stream → Stream → Prop}

theorem wordIn (h : Couples T R) (order : ByteOrder) (width : ℕ) :
    Coupled T R R (Reader.wordIn order width) := (h.exactly width).bind fun _ => coupled_pure _

theorem treCompression (h : Couples T R) : Coupled T R R Reader.treCompression := by
  refine h.offset.bind fun _ => (h.wordIn _ _).bind fun code => ?_
  cases Compression.ofCode? code with
  | some c => exact coupled_pure _
  | none => exact coupled_throw h.loose _

theorem treHeader (h : Couples T R) : Coupled T R R Reader.treHeader := by
  refine h.asRecord (h.offset.bind fun _ => (h.exactly _).bind fun _ => ?_)
  refine Coupled.guard h.loose ?_
  exact (h.wordIn _ _).bind fun _ => (h.wordIn _ _).bind fun _ => h.treCompression.bind fun _ =>
    (h.wordIn _ _).bind fun _ => h.treCompression.bind fun _ => (h.wordIn _ _).bind fun _ =>
    (h.wordIn _ _).bind fun _ => coupled_pure _

theorem treRecord (h : Couples T R) : Coupled T R R Reader.treRecord :=
  h.asRecord <| (h.wordIn _ _).bind fun _ => (h.wordIn _ _).bind fun _ =>
    (h.wordIn _ _).bind fun _ => h.treCompression.bind fun _ => (h.wordIn _ _).bind fun _ =>
    (h.wordIn _ _).bind fun _ => coupled_pure _

end Couples

theorem couples_like : Couples (Stream.tolerance failing) (Stream.Like failing True) :=
  ⟨loosen_stream, alike_offset, alike_exactly, alike_asRecord⟩

theorem alike_readHashes (header : Header) :
    (readHashes header).Alike failing False False env := by
  refine (alike_liftExcept_decode _).bind fun _ => (alike_liftExcept_decode _).bind fun _ => ?_
  refine (alike_liftReader alike_length).bind fun _ => ?_
  refine Coupled.ite ?_ ((alike_report _).bind fun _ => coupled_pure _)
  refine (alike_liftReader (alike_seek _)).bind fun _ => ?_
  exact (alike_liftReader (alike_bytes _)).bind fun _ => alike_pure_decode _

theorem alike_listEntries (source : Location) (hashes : Option Bytes) (index : ℕ)
    (pairs : List (Record × String)) :
    (listEntries source hashes index pairs).Alike failing False False env := by
  induction pairs generalizing index with
  | nil => exact coupled_pure _
  | cons p pairs ih =>
    refine Coupled.optional (alike_report _) ?_
    cases hashes with
    | none => exact (coupled_pure _).bind fun _ => (ih _).bind fun _ => coupled_pure _
    | some hashes =>
      refine (alike_liftExcept_decode _).bind fun _ => ?_
      refine (alike_ofReader (alike_ofExcept _)).bind fun _ => ?_
      exact (coupled_pure _).bind fun _ => (ih _).bind fun _ => coupled_pure _

theorem isBlind : format.IsBlind := by
  intro failing env source
  refine (alike_liftReader couples_like.treHeader).bind fun header => ?_
  refine (alike_checkCount _ _ _).bind fun _ => ?_
  refine Coupled.optional (alike_checkCount _ _ _) ((alike_liftExcept_decode _).bind fun _ => ?_)
  refine (alike_liftReader (Tables.alike_openDirectory _ _ _ _)).bind fun recordBlock => ?_
  refine alike_onStream (Walks.alike_readEntries _ fun _ => couples_like.treRecord)
    (fun _ _ _ => rfl) fun records _ => (alike_liftExcept_decode _).bind fun _ => ?_
  refine (alike_liftReader (Tables.alike_openDirectory _ _ _ _)).bind fun nameBlock => ?_
  refine alike_onStream (alike_ofReader (Names.alike_namesFromBlob _ _ _)) (fun _ _ _ => rfl)
    fun names _ => ?_
  exact (alike_readHashes header).bind fun _ => alike_listEntries _ _ _ _

end Tre

namespace Rpak

theorem alike_readSlot : readSlot.Alike failing True True :=
  (alike_fixedString _).bind fun _ => alike_u32.bind fun _ => alike_u32.bind fun _ =>
    alike_u32.bind fun _ => alike_u32.bind fun _ => coupled_pure _

theorem isBlind : format.IsBlind := by
  intro failing env source
  refine (alike_liftReader (alike_skip _)).bind fun _ => ?_
  refine (alike_liftReader alike_u32).bind fun _ => Coupled.guard loosen_session ?_
  refine (alike_liftReader alike_u32).bind fun _ => (alike_liftReader alike_u32).bind fun _ => ?_
  refine (alike_liftReader alike_remaining).bind fun _ => (alike_checkCount _ _ _).bind fun _ => ?_
  refine (alike_liftExcept_decode _).bind fun _ => Coupled.guard loosen_session ?_
  refine (alike_liftReader (Tables.alike_openDirectory _ _ _ _)).bind fun directory => ?_
  refine (alike_liftReader alike_length).bind fun length => ?_
  refine alike_onStream (Walks.alike_readTable _ fun _ => ?_) (fun _ _ _ => rfl) fun _ _ => ?_
  · exact (alike_ofReader alike_readSlot).bind fun _ => alike_ofReader (alike_ofExcept _)
  · exact coupled_pure _

end Rpak

namespace Spk

theorem alike_readFolder (index : ℕ) : (readFolder index).Alike failing True True :=
  (alike_fixedString _).bind fun _ => alike_u32.bind fun _ => Coupled.guard loosen_stream <|
    alike_u32.bind fun _ => alike_u32.bind fun _ => coupled_pure _

theorem alike_readFile (parts : ℕ) : (readFile parts).Alike failing True True :=
  alike_u32.bind fun _ => alike_u16.bind fun _ => alike_u16.bind fun _ => alike_u32.bind fun _ =>
    alike_u32.bind fun _ => alike_u32.bind fun _ => Coupled.guard loosen_stream <|
    Coupled.guard loosen_stream <| coupled_pure _

theorem isBlind : format.IsBlind := by
  intro failing env source
  show (decode source).Alike failing True False env
  rw [decode]
  cases source.path with
  | none => exact alike_throw_decode _
  | some directory =>
    refine (alike_liftReader (alike_skip _)).bind fun _ => ?_
    refine (alike_liftReader alike_u16).bind fun _ => (alike_liftReader alike_u16).bind fun _ => ?_
    refine (alike_liftReader alike_u32).bind fun _ => ?_
    refine (alike_liftReader alike_remaining).bind fun _ => (alike_checkCount _ _ _).bind fun _ => ?_
    refine (Walks.alike_readEntries _ alike_readFolder).bind fun _ => ?_
    refine (alike_liftReader alike_remaining).bind fun _ => (alike_checkCount _ _ _).bind fun _ => ?_
    refine (Walks.alike_readEntries _ fun _ => alike_readFile _).bind fun _ => ?_
    refine alike_files.bind fun _ => (alike_ofReader (alike_ofExcept _)).bind fun _ => ?_
    refine Coupled.bind (Coupled.ite (coupled_pure _) alike_names) fun _ => ?_
    split
    · exact alike_throw_decode _
    · exact alike_loosen_decode (alike_ofReader (alike_ofExcept _))

end Spk

namespace Sprb

theorem alike_readPalettes (count number : ℕ) :
    (readPalettes count number).Alike failing True True env := by
  induction count generalizing number with
  | zero => exact coupled_pure _
  | succ count ih =>
    exact (alike_liftReader (alike_bytes _)).bind fun _ => (alike_liftExcept_decode _).bind fun _ =>
      (alike_addPalette _).bind fun _ => ih _

theorem alike_listSprites (source : Location) (slot index : ℕ) (offsets : List ℕ) :
    (listSprites source slot index offsets).Alike failing placed placed env := by
  induction offsets generalizing slot index with
  | nil => exact coupled_pure _
  | cons offset offsets ih =>
    rw [listSprites]
    refine Coupled.ite (ih _ _) ((alike_liftReader (alike_checkRange _ _ _)).bind fun _ => ?_)
    exact (alike_report _).bind fun _ => (alike_liftExcept_decode _).bind fun _ =>
      (ih _ _).bind fun _ => coupled_pure _

theorem alike_describe (palettes : List Palette) (paletteCount : ℕ) (e : Entry) :
    (describe palettes paletteCount e).Alike failing False False := by
  refine (alike_liftExcept _).bind fun _ => (alike_seek _).bind fun _ => ?_
  refine alike_u16.bind fun _ => alike_u16.bind fun _ => alike_u8.bind fun number => ?_
  cases palettes[number]? with
  | none => exact alike_throw _
  | some palette => exact alike_pure _

theorem isBlind : format.IsBlind := by
  intro failing env source
  refine (alike_liftReader (alike_skip _)).bind fun _ => ?_
  refine (alike_liftReader alike_u16).bind fun _ => (alike_liftReader alike_u16).bind fun _ => ?_
  refine (alike_liftReader alike_remaining).bind fun _ => (alike_checkCount _ _ _).bind fun _ => ?_
  refine (alike_readPalettes _ _).bind fun _ => (alike_liftReader alike_remaining).bind fun _ => ?_
  refine (alike_checkCount _ _ _).bind fun _ => ?_
  refine (alike_liftReader (Tables.alike_offsetTable _ _ _ _)).bind fun _ => ?_
  refine (alike_listSprites _ _ _ _).bind fun _ => alike_of_loose_decode ?_
  refine Listing.alike_updated (Listing.alike_scanLength _) fun _ => ?_
  refine Coupled.get (fun x y h => ?_) fun x => ?_
  · rw [h.palettes_eq]
  refine (coupled_mapM fun _ _ => alike_ofReader (alike_describe _ _ _)).bind fun _ => ?_
  exact Listing.alike_named _ _

end Sprb

namespace Lump

theorem alike_readRecord (source : Location) (directory next : ℕ) :
    (readRecord source directory next).Alike failing True True := by
  refine (alike_fixedString _).bind fun _ => alike_u32.bind fun _ => ?_
  refine Coupled.ite (coupled_pure _) ((alike_liftExcept _).bind fun _ => ?_)
  exact Coupled.guard loosen_stream (Coupled.ite (coupled_pure _) (coupled_pure _))

theorem isBlind : format.IsBlind := by
  intro failing env source
  refine (alike_liftReader (alike_skip _)).bind fun _ => ?_
  refine (alike_liftReader alike_u32).bind fun _ => (alike_liftReader alike_length).bind fun _ => ?_
  refine Coupled.guard loosen_session ((alike_liftReader (alike_seek _)).bind fun _ => ?_)
  exact Walks.alike_readUntil _ _ _ fun _ _ => alike_ofReader (alike_readRecord _ _ _)

end Lump

/-- **No decoder of the library can tell sessions apart that are alike.** -/
theorem Format.isBlind_of_mem {format : Format} (h : format ∈ Registry.standard.formats) :
    format.IsBlind := by
  simp only [Registry.standard, List.mem_cons, List.not_mem_nil, or_false] at h
  rcases h with rfl | rfl | rfl | rfl | rfl | rfl | rfl | rfl
  · exact Xarc.isBlind
  · exact Ofs.isBlind
  · exact Dtre.isBlind
  · exact Tre.isBlind
  · exact Rpak.isBlind
  · exact Spk.isBlind
  · exact Sprb.isBlind
  · exact Lump.isBlind

end Packfile
