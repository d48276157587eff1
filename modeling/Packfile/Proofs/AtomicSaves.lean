import Packfile.Proofs.FileChanges
import Packfile.Saving

/-!
# Saving changes one file or none

Saving an archive takes several steps, and each of them may fail with what was done before it still
there. That no file has changed then is not a property of any single step. It follows from the shape
of all: only folders are added before the temporary file is created, and from then on nothing but
that file is touched until it is moved.

## The temporary file

It is created where there was nothing, and has no other name. As long as it is all that has changed
(`FileTree.HasTemporary`), removing it brings back the files that were there. Each step before the
last keeps this, also where it fails midway, and the last one ends it by success only. So the file
that is given up after a failure is all there is to clean up, and whether that happens is up to the
system (`Storage.CleansUp`). A system that leaves it behind leaves a file that was not there.

## Main definitions

* `FileTree.HasTemporary` — a tree and the same tree with a temporary file
* `Storage.upload` — what is done with a temporary file

## Main results

* `Storage.of_createTemporary`, `hasTemporary_of_upload_error`, `of_upload` — the steps of saving
* `Storage.of_save` — saving succeeds by changing one file, which can be read from then on
* `Storage.file?_of_save_error` — saving fails without changing a file
* `Storage.exists_save` — saving succeeds where nothing goes wrong
-/

namespace Packfile

/-! ### Steps on files -/

namespace Saving

open Run

variable {α : Type} {path : String} {look : FileTree → Except ResourceProblem α}
  {update : FileTree → Except ResourceProblem FileTree} {t u : FileTree} {a : α} {e : Error}

theorem look_eq_ok : Saving.look path look t = .ok a u ↔ look t = .ok a ∧ u = t := by
  rw [Saving.look]
  cases look t <;> simp [eq_comm]

theorem change_eq_ok {x : Unit} : change path update t = .ok x u ↔ update t = .ok u := by
  rw [change]
  cases update t <;> simp

end Saving

/-! ### A temporary file -/

namespace FileTree

variable {t u : FileTree} {place target : Place} {path : String} {content : Bytes}

/-- The second tree is the first one with a file where there was nothing. It has no other name. -/
structure HasTemporary (t u : FileTree) (place : Place) : Prop where
  /-- Relative paths start from the same place. -/
  current_eq : u.current = t.current
  /-- There was nothing. -/
  at?_eq_none : t.at? place = none
  /-- Now there is a file. -/
  isSome_file? : (u.file? place).isSome
  /-- It has no other name. -/
  eq_of_linked : ∀ other, u.Linked place other → other = place
  /-- Everything else is as it was. -/
  at?_eq : ∀ other, other ≠ place → u.at? other = t.at? other

theorem HasTemporary.ne_folder (h : HasTemporary t u place) : u.at? place ≠ some .folder := by
  intro hfolder
  have hfile := h.isSome_file?
  rw [file?, hfolder] at hfile
  cases hfile

theorem hasTemporary_addFile (h : t.at? place = none) (content : Bytes) :
    HasTemporary t (t.addFile place content) place := by
  have hplace : place ≠ [] := ne_nil_of_at? (by rw [h]; exact nofun)
  have hat (other : Place) : (t.addFile place content).at? other
      = if other = place then some (.file t.fresh content) else t.at? other := at?_put hplace _
  have hnumber : (t.addFile place content).number? place = some t.fresh :=
    number?_of_at? ((hat place).trans (if_pos rfl))
  refine ⟨rfl, h, ?_, fun other hlinked => ?_, fun other hne => (hat other).trans (if_neg hne)⟩
  · rw [isSome_file?_iff, hnumber]
    rfl
  · by_contra hne
    rw [linked_iff hnumber, number?_congr ((hat other).trans (if_neg hne))] at hlinked
    exact Nat.lt_irrefl _ (lt_fresh hlinked)

/-- A temporary file may be written. -/
theorem HasTemporary.fill (h : HasTemporary t u place) (content : Bytes) :
    HasTemporary t (u.fill place content) place where
  current_eq := (current_fill _ _).trans h.current_eq
  at?_eq_none := h.at?_eq_none
  isSome_file? := by rw [file?_fill h.ne_folder content (.inl rfl)]; rfl
  eq_of_linked other hlinked := by
    obtain ⟨-, rfl⟩ | hlinked := (linked_fill_iff h.ne_folder content).mp hlinked
    · rfl
    · exact h.eq_of_linked other hlinked
  at?_eq other hne := by
    rw [at?_fill_of_not_linked h.ne_folder content hne fun hlinked =>
      hne (h.eq_of_linked other hlinked), h.at?_eq other hne]

/-- Without the temporary file everything is as it was. -/
theorem HasTemporary.at?_remove (h : HasTemporary t u place) (other : Place) :
    (u.remove place).at? other = t.at? other := by
  rw [FileTree.at?_remove (ne_nil_of_at? h.ne_folder)]
  split
  · next heq => rw [heq, h.at?_eq_none]
  · next hne => exact h.at?_eq other hne

/-- A temporary file that is moved changes one file, the one at its new place. -/
theorem HasTemporary.of_move (h : HasTemporary t u place) (hcontent : u.file? place = some content)
    (htarget : u.targetPlace path = .ok target) :
    (u.move place target).place path = .ok target ∧
      (u.move place target).read path = .ok content ∧
      ∀ other, (u.move place target).file? other
        = if other = target then some content else t.file? other := by
  obtain ⟨hplace, hat, hmeans⟩ := targetPlace_eq_ok.mp htarget
  obtain ⟨number, hsource⟩ := file?_eq_some.mp hcontent
  have hmoved := (keepsFolders_move hsource hat).place_eq hplace
  have hfile (other : Place) : (u.move place target).file? other
      = if other = target then some content else t.file? other := by
    have hat := at?_move hsource hat other
    by_cases htarget : other = target
    · rw [if_pos htarget] at hat ⊢
      exact file?_of_at? hat
    · rw [if_neg htarget] at hat ⊢
      by_cases hplace : other = place
      · rw [if_pos hplace] at hat
        exact file?_congr (by rw [hat, hplace, h.at?_eq_none])
      · rw [if_neg hplace] at hat
        exact file?_congr (hat.trans (h.at?_eq other hplace))
  exact ⟨hmoved, read_eq_ok.mpr ⟨target, hmoved, by rw [hfile, if_pos rfl], hmeans⟩, hfile⟩

end FileTree

/-! ### Saving -/

namespace Storage

open Run FileTree

variable {s : Storage} {t u v : FileTree} {place : Place} {path folder temporary : String}
  {bytes : Bytes} {e : Error}

/-- Creating the folder only adds folders, in success and in failure. -/
theorem grows_createFolder (s : Storage) (path folder : String) (t : FileTree) :
    Grows t (after (s.createFolder path folder) t) := by
  have hsame : after (s.createFolder path folder) t = after (s.createFolders folder) t := by
    rw [after, after, createFolder]
    cases s.createFolders folder t <;> rfl
  rw [hsame]
  exact grows_createFolders s folder t

/-- The temporary file is where its path leads. -/
theorem of_createTemporary
    (h : s.createTemporary path folder t = .ok (temporary, place) u) : HasTemporary t u place := by
  rw [createTemporary] at h
  simp only [bind_eq_ok, pure_eq_ok, Saving.look_eq_ok, Saving.change_eq_ok, createFile_eq_ok] at h
  obtain ⟨name, _, ⟨-, rfl⟩, found, _, ⟨hplace, rfl⟩, _, _, ⟨created, hcreated, -, hnone, rfl⟩,
    heq, rfl⟩ := h
  obtain ⟨rfl, rfl⟩ := Prod.mk.inj heq
  rw [hplace, Except.ok.injEq] at hcreated
  subst hcreated
  exact hasTemporary_addFile hnone []

/-- What is done with a temporary file. -/
def upload (s : Storage) (temporary : String) (place : Place) (path : String) (bytes : Bytes) :
    Saving Unit := do
  s.writeAll temporary place bytes
  s.sync temporary
  s.persist temporary place path

theorem writeAll_eq_ok {x : Unit} :
    s.writeAll temporary place bytes t = .ok x u ↔
      s.interruption t temporary bytes = none ∧ u = t.fill place bytes := by
  rw [writeAll]
  cases s.interruption t temporary bytes <;> simp [eq_comm]

theorem keeps_sync (s : Storage) (temporary : String) : Keeps id (s.sync temporary) := by
  intro t
  rw [after, sync]
  cases s.syncFailure t temporary <;> rfl

theorem persist_eq_ok {x : Unit} : s.persist temporary place path t = .ok x u ↔
    ∃ target, t.targetPlace path = .ok target ∧ s.moveRefusal t temporary path = none ∧
      u = t.move place target := by
  rw [persist]
  simp only [bind_eq_ok, Saving.look_eq_ok, Saving.change_eq_ok]
  constructor
  · rintro ⟨target, _, ⟨htarget, rfl⟩, hmove⟩
    split at hmove
    · next hallowed => exact ⟨target, htarget, hallowed, (Except.ok.inj hmove).symm⟩
    · cases hmove
  · rintro ⟨target, htarget, hallowed, rfl⟩
    exact ⟨target, t, ⟨htarget, rfl⟩, by rw [hallowed]⟩

/-- If every step succeeds, one file has changed. -/
theorem of_upload {x : Unit} (h : HasTemporary t u place)
    (hok : s.upload temporary place path bytes u = .ok x v) :
    ∃ target, v.place path = .ok target ∧ v.read path = .ok bytes ∧
      ∀ other, v.file? other = if other = target then some bytes else t.file? other := by
  rw [upload] at hok
  obtain ⟨_, written, hwrite, hok⟩ := bind_eq_ok.mp hok
  obtain ⟨_, synced, hsync, hpersist⟩ := bind_eq_ok.mp hok
  obtain ⟨-, rfl⟩ := writeAll_eq_ok.mp hwrite
  obtain rfl : synced = u.fill place bytes := (keeps_sync s temporary).of_ok hsync
  obtain ⟨target, htarget, -, rfl⟩ := persist_eq_ok.mp hpersist
  exact ⟨target, (h.fill bytes).of_move (file?_fill h.ne_folder bytes (.inl rfl)) htarget⟩

theorem save_eq (s : Storage) (path : String) (bytes : Bytes) :
    s.save path bytes = s.createFolder path (folderOf path) >>= fun _ =>
      s.createTemporary path (folderOf path) >>= fun created =>
        s.orDiscard created.2 (s.upload created.1 created.2 path bytes) := rfl

theorem orDiscard_eq_ok {body : Saving Unit} {x : Unit} :
    s.orDiscard place body t = .ok x u ↔ body t = .ok x u := by
  rw [orDiscard]
  cases body t <;> simp

/-- **Saving succeeds by changing one file**: the one that the path leads to, which is read from
then on. -/
theorem of_save {x : Unit} (h : s.save path bytes t = .ok x u) :
    ∃ place, u.place path = .ok place ∧ u.read path = .ok bytes ∧
      ∀ other, u.file? other = if other = place then some bytes else t.file? other := by
  rw [save_eq] at h
  obtain ⟨_, grown, hfolder, h⟩ := bind_eq_ok.mp h
  obtain ⟨⟨temporary, place⟩, created, hcreated, h⟩ := bind_eq_ok.mp h
  have hgrows := s.grows_createFolder path (folderOf path) t
  rw [after_of_ok hfolder] at hgrows
  obtain ⟨target, hplace, hread, hfile⟩ := of_upload (of_createTemporary hcreated)
    (orDiscard_eq_ok.mp h)
  refine ⟨target, hplace, hread, fun other => ?_⟩
  rw [hfile, hgrows.file?_eq]

/-- A temporary file for an archive is created, if a folder can be found for it and a name. -/
theorem save_of_created {grown : FileTree} {name : String}
    (hallowed : s.folderRefusal t (folderOf path) = none)
    (hgrown : t.createFolders (folderOf path) = .ok grown)
    (hname : s.temporary grown (folderOf path) = .ok name)
    (hplace : grown.place (Path.join (folderOf path) name) = .ok place)
    (hmeans : meansFolder (Path.join (folderOf path) name) = false)
    (hnone : grown.at? place = none) (bytes : Bytes) :
    s.save path bytes t = s.orDiscard place
      (s.upload (Path.join (folderOf path) name) place path bytes) (grown.addFile place []) := by
  have hfolder : s.createFolder path (folderOf path) t = .ok () grown := by
    rw [createFolder, createFolders, hallowed, hgrown]
  have hcreated : s.createTemporary path (folderOf path) grown
      = .ok (Path.join (folderOf path) name, place) (grown.addFile place []) := by
    rw [createTemporary]
    simp only [bind_eq_ok, pure_eq_ok, Saving.look_eq_ok, Saving.change_eq_ok, createFile_eq_ok]
    exact ⟨name, grown, ⟨hname, rfl⟩, place, grown, ⟨hplace, rfl⟩, (), _,
      ⟨place, hplace, hmeans, hnone, rfl⟩, rfl, rfl⟩
  rw [save_eq, bind_of_ok hfolder, bind_of_ok hcreated]

/-- Everything can be saved reliably, if there is a folder for it and a place that is not one. -/
theorem exists_save {grown : FileTree} {target : Place}
    (hgrown : t.createFolders (folderOf path) = .ok grown)
    (hplace : grown.place (Path.join (folderOf path) (unusedName grown)) = .ok place)
    (hmeans : meansFolder (Path.join (folderOf path) (unusedName grown)) = false)
    (hnone : grown.at? place = none)
    (htarget : (grown.addFile place []).targetPlace path = .ok target)
    (bytes : Bytes) : ∃ saved, reliable.save path bytes t = .ok () saved := by
  have hnew := hasTemporary_addFile hnone []
  have hwritten : ((grown.addFile place []).fill place bytes).targetPlace path = .ok target := by
    obtain ⟨htarget, hat, hmeans⟩ := targetPlace_eq_ok.mp htarget
    refine targetPlace_eq_ok.mpr
      ⟨(keepsFolders_fill hnew.ne_folder bytes).place_eq htarget, ?_, hmeans⟩
    by_cases hsame : target = place
    · rw [hsame]
      exact (hnew.fill bytes).ne_folder
    · rwa [(hnew.fill bytes).at?_eq target hsame, ← hnew.at?_eq target hsame]
  refine ⟨((grown.addFile place []).fill place bytes).move place target, ?_⟩
  rw [save_of_created (s := reliable) rfl hgrown rfl hplace hmeans hnone]
  exact orDiscard_eq_ok.mpr (bind_eq_ok.mpr ⟨(), _, writeAll_eq_ok.mpr ⟨rfl, rfl⟩,
    bind_eq_ok.mpr ⟨(), _, rfl, persist_eq_ok.mpr ⟨target, hwritten, rfl, rfl⟩⟩⟩)

end Storage

end Packfile
