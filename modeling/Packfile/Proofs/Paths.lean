import Packfile.Command.Extraction
import Packfile.Proofs.FileChanges

/-!
# Where paths lead

A path is a text, and where it leads is a place. Between the two stand the components of the path,
of which only the names go anywhere: empty parts and `.` parts are passed over. There are no links,
so a path that leads anywhere leads to the place that its components spell out, whatever is in the
tree.

## Paths that stay inside

A relative path without `..` among its names stays below the place that it starts from, and leads
from there along its names. A path that is joined from a folder and such a path leads below the
folder. This is the check that extraction makes of the names in an archive, and what it rests on.

## Main definitions

* `Path.names` — the names in a path
* `FileTree.destination` — the place that the components of a path spell out

## Main results

* `Text.pieces_append` — a text and its pieces
* `Path.names_intercalate` — names put between slashes are found again
* `FileTree.destination_of_place` — a path leads where its components say
* `FileTree.destination_join` — and below a folder, if it stays inside
* `Command.targetPath_eq_ok` — the paths that extraction writes to
-/

namespace Packfile

open Run

/-! ### Pieces of a text -/

namespace Text

variable {c a : Char} {text piece first : List Char} {others : List (List Char)}

theorem pieces_ne_nil (c : Char) (text : List Char) : pieces c text ≠ [] := by
  cases text with
  | nil => exact List.cons_ne_nil _ _
  | cons a rest =>
    rw [pieces]
    split
    · exact List.cons_ne_nil _ _
    · split <;> exact List.cons_ne_nil _ _

theorem pieces_cons_self (c : Char) (text : List Char) :
    pieces c (c :: text) = [] :: pieces c text := by
  rw [pieces]
  split
  · next hnil => exact absurd hnil (pieces_ne_nil c text)
  · next hcons => rw [if_pos rfl, hcons]

theorem pieces_cons_of_ne (ha : a ≠ c) (h : pieces c text = first :: others) :
    pieces c (a :: text) = (a :: first) :: others := by
  rw [pieces, h]
  exact if_neg ha

/-- A text is cut at each occurrence of the character. -/
theorem pieces_append (c : Char) (front back : List Char) :
    pieces c (front ++ c :: back) = pieces c front ++ pieces c back := by
  induction front with
  | nil => exact pieces_cons_self c back
  | cons a front ih =>
    rw [List.cons_append]
    by_cases ha : a = c
    · subst ha
      rw [pieces_cons_self, pieces_cons_self, ih]
      rfl
    · obtain ⟨first, others, h⟩ := List.exists_cons_of_ne_nil (pieces_ne_nil c front)
      rw [pieces_cons_of_ne ha h]
      exact pieces_cons_of_ne ha (by rw [ih, h]; rfl)

theorem not_mem_of_mem_pieces (h : piece ∈ pieces c text) : c ∉ piece := by
  induction text generalizing piece with
  | nil =>
    cases List.mem_singleton.mp h
    exact List.not_mem_nil
  | cons a rest ih =>
    by_cases ha : a = c
    · subst ha
      rw [pieces_cons_self] at h
      rcases List.mem_cons.mp h with rfl | h
      · exact List.not_mem_nil
      · exact ih h
    · obtain ⟨first, others, hrest⟩ := List.exists_cons_of_ne_nil (pieces_ne_nil c rest)
      rw [pieces_cons_of_ne ha hrest] at h
      rcases List.mem_cons.mp h with rfl | h
      · have hfirst : c ∉ first := ih (by rw [hrest]; exact List.mem_cons_self)
        simp [Ne.symm ha, hfirst]
      · exact ih (by rw [hrest]; exact List.mem_cons_of_mem _ h)

/-- Pieces are made of the text. -/
theorem subset_of_mem_pieces (h : piece ∈ pieces c text) : piece ⊆ text := by
  induction text generalizing piece with
  | nil =>
    cases List.mem_singleton.mp h
    exact List.nil_subset _
  | cons a rest ih =>
    by_cases ha : a = c
    · subst ha
      rw [pieces_cons_self] at h
      rcases List.mem_cons.mp h with rfl | h
      · exact List.nil_subset _
      · exact List.Subset.trans (ih h) (List.subset_cons_self _ _)
    · obtain ⟨first, others, hrest⟩ := List.exists_cons_of_ne_nil (pieces_ne_nil c rest)
      rw [pieces_cons_of_ne ha hrest] at h
      rcases List.mem_cons.mp h with rfl | h
      · exact List.cons_subset_cons _ (ih (by rw [hrest]; exact List.mem_cons_self))
      · refine List.Subset.trans (ih ?_) (List.subset_cons_self _ _)
        rw [hrest]
        exact List.mem_cons_of_mem _ h

theorem pieces_of_not_mem (h : c ∉ text) : pieces c text = [text] := by
  induction text with
  | nil => rfl
  | cons a rest ih =>
    rw [List.mem_cons, not_or] at h
    exact pieces_cons_of_ne (Ne.symm h.1) (ih h.2)

/-- The last piece is what follows the last occurrence, or the whole text if there is none. -/
theorem exists_pieces_eq_concat (c : Char) (text : List Char) : ∃ others last,
    pieces c text = others ++ [last] ∧ c ∉ last ∧
      (text = last ∨ ∃ front, text = front ++ c :: last) := by
  by_cases hmem : c ∈ text
  · obtain ⟨last, front, hreverse, hlast⟩ := List.eq_append_cons_of_mem (List.mem_reverse.mpr hmem)
    have htext : text = front.reverse ++ c :: last.reverse := by
      rw [← List.reverse_reverse text, hreverse]
      simp
    have hnot : c ∉ last.reverse := mt List.mem_reverse.mp hlast
    refine ⟨pieces c front.reverse, last.reverse, ?_, hnot, .inr ⟨_, htext⟩⟩
    rw [htext, pieces_append, pieces_of_not_mem hnot]
  · exact ⟨[], text, pieces_of_not_mem hmem, hmem, .inl rfl⟩

/-- The first piece is empty if there is nothing in front of the first occurrence. -/
theorem eq_nil_or_of_pieces (h : pieces c text = [] :: others) :
    text = [] ∧ others = [] ∨ [c] <+: text := by
  cases text with
  | nil => exact .inl ⟨rfl, (List.cons.inj h).2.symm⟩
  | cons a rest =>
    right
    by_cases ha : a = c
    · subst ha
      exact ⟨rest, rfl⟩
    · obtain ⟨first, others', hrest⟩ := List.exists_cons_of_ne_nil (pieces_ne_nil c rest)
      rw [pieces_cons_of_ne ha hrest] at h
      cases h

end Text

/-! ### Names in a path -/

namespace Path

variable {path other name : String}

/-- The names in a path. -/
def names (path : String) : List String :=
  ((Text.pieces '/' path.toList).map String.ofList).filter fun name => name != "" && name != "."

theorem toList_append_slash (front back : String) :
    (front ++ "/" ++ back).toList = front.toList ++ '/' :: back.toList := by
  rw [String.toList_append, String.toList_append, List.append_assoc]
  rfl

/-- The names in front of a slash and those behind it. -/
theorem names_append (front back : String) :
    names (front ++ "/" ++ back) = names front ++ names back := by
  rw [names, toList_append_slash, Text.pieces_append, List.map_append, List.filter_append]
  rfl

theorem names_empty : names "" = [] := by
  rfl

theorem ne_of_mem_names (h : name ∈ names path) : name ≠ "" ∧ name ≠ "." ∧ '/' ∉ name.toList := by
  obtain ⟨hmem, hne⟩ := List.mem_filter.mp h
  obtain ⟨piece, hpiece, rfl⟩ := List.mem_map.mp hmem
  simp only [Bool.and_eq_true, bne_iff_ne, ne_eq] at hne
  refine ⟨hne.1, hne.2, ?_⟩
  rw [String.toList_ofList]
  exact Text.not_mem_of_mem_pieces hpiece

/-- A name is no slash. -/
theorem ne_slash_of_mem_names (h : name ∈ names path) : name ≠ "/" := by
  rintro rfl
  exact (ne_of_mem_names h).2.2 (by decide)

/-- The characters of the names are those of the path. -/
theorem subset_of_mem_names (h : name ∈ names path) : name.toList ⊆ path.toList := by
  obtain ⟨piece, hpiece, rfl⟩ := List.mem_map.mp (List.mem_filter.mp h).1
  rw [String.toList_ofList]
  exact Text.subset_of_mem_pieces hpiece

/-- A name on its own is a path. -/
theorem names_of_name (hname : name ≠ "" ∧ name ≠ "." ∧ '/' ∉ name.toList) :
    names name = [name] := by
  rw [names, Text.pieces_of_not_mem hname.2.2, List.map_singleton, String.ofList_toList,
    List.filter_cons_of_pos (by simp [hname.1, hname.2.1]), List.filter_nil]

/-- Names that are put between slashes are the names in the path that this makes. -/
theorem names_intercalate {place : List String}
    (h : ∀ name ∈ place, name ≠ "" ∧ name ≠ "." ∧ '/' ∉ name.toList) :
    names ("/".intercalate place) = place := by
  induction place with
  | nil => rfl
  | cons name place ih =>
    have hname := names_of_name (h name List.mem_cons_self)
    have ih := ih fun other hother => h other (List.mem_cons_of_mem _ hother)
    cases place with
    | nil => rw [String.intercalate_singleton, hname]
    | cons next place =>
      rw [String.intercalate_cons_cons, names_append, hname, ih]
      rfl

/-- A character of a path that is made from names is one of theirs, or a slash between them. -/
theorem mem_toList_intercalate {place : List String} {c : Char}
    (h : c ∈ ("/".intercalate place).toList) : c = '/' ∨ ∃ name ∈ place, c ∈ name.toList := by
  induction place with
  | nil => cases h
  | cons name place ih =>
    have hrest := fun h => (ih h).imp_right fun ⟨other, hother, hc⟩ =>
      (⟨other, List.mem_cons_of_mem _ hother, hc⟩ : ∃ other ∈ name :: place, c ∈ other.toList)
    cases place with
    | nil =>
      rw [String.intercalate_singleton] at h
      exact .inr ⟨name, List.mem_cons_self, h⟩
    | cons next place =>
      rw [String.intercalate_cons_cons, toList_append_slash, List.mem_append, List.mem_cons] at h
      rcases h with h | h | h
      · exact .inr ⟨name, List.mem_cons_self, h⟩
      · exact .inl h
      · exact hrest h

theorem startsWith_slash_iff : path.startsWith "/" = true ↔ ['/'] <+: path.toList :=
  String.startsWith_string_iff

/-- What a path may start with in front of its names: a slash, or a dot that stands by itself. -/
def lead (path : String) : List String :=
  if path.startsWith "/" then ["/"]
  else if (Text.pieces '/' path.toList).head? = some ['.'] then ["."]
  else []

/-- The components of a path are its names, behind what it starts with. -/
theorem components_eq (path : String) : components path = lead path ++ names path := by
  obtain ⟨first, others, h⟩ := List.exists_cons_of_ne_nil (Text.pieces_ne_nil '/' path.toList)
  simp only [components, lead, names, h, List.map_cons, List.drop_one, List.tail_cons,
    List.head?_cons, Option.some.injEq]
  split
  · next heq => cases heq
  · next heq =>
    -- nothing is in front of the first slash, or there is nothing at all
    have hfirst : first = [] := by
      rw [← String.toList_ofList (l := first), (List.cons.inj heq).1]
      rfl
    rw [hfirst] at h ⊢
    rw [List.filter_cons_of_neg (by decide)]
    rcases Text.eq_nil_or_of_pieces h with ⟨hnil, rfl⟩ | hslash
    · obtain rfl : path = "" := String.toList_eq_nil_iff.mp hnil
      rfl
    · have hsome : path.isEmpty = false := by
        rw [String.isEmpty_eq_false_iff]
        rintro rfl
        exact absurd hslash (by decide)
      rw [if_pos (startsWith_slash_iff.mpr hslash), hsome]
      rfl
  · next first' _ hne heq =>
    obtain ⟨rfl, -⟩ := List.cons.inj heq
    have hrelative : ¬ path.startsWith "/" = true := by
      rw [startsWith_slash_iff]
      rintro ⟨rest, hrest⟩
      rw [← hrest, List.singleton_append, Text.pieces_cons_self] at h
      exact hne (by rw [← (List.cons.inj h).1])
    rw [if_neg hrelative]
    by_cases hdot : first = ['.']
    · rw [if_pos hdot, hdot, List.filter_cons_of_neg (by decide)]
      rfl
    · have hdot' : String.ofList first ≠ "." := by
        intro heq'
        refine hdot ?_
        rw [← String.toList_ofList (l := first), heq']
        rfl
      have hne' : String.ofList first ≠ "" := hne
      rw [if_neg hdot, List.filter_cons_of_pos (by simp [hne', hdot']), List.nil_append]

/-- A relative path starts with a dot or with a name. -/
theorem lead_of_relative (h : path.startsWith "/" = false) :
    lead path = ["."] ∨ lead path = [] := by
  rw [lead, if_neg (by rw [h]; exact Bool.false_ne_true)]
  split
  · exact .inl rfl
  · exact .inr rfl

theorem lead_of_absolute (h : path.startsWith "/" = true) : lead path = ["/"] := if_pos h

/-- There is something in a path that is not empty. -/
theorem components_ne_nil (h : path ≠ "") : components path ≠ [] := by
  obtain ⟨first, others, hpieces⟩ := List.exists_cons_of_ne_nil (Text.pieces_ne_nil '/' path.toList)
  have hsome : path.isEmpty = false := by rwa [String.isEmpty_eq_false_iff]
  simp only [components, hpieces, List.map_cons, hsome]
  split
  · next heq => cases heq
  · exact List.cons_ne_nil _ _
  · exact List.cons_ne_nil _ _

/-- A path that is relative, and has no `..` among its names. -/
structure StaysInside (path : String) : Prop where
  relative : path.startsWith "/" = false
  ne_dots : ∀ name ∈ names path, name ≠ ".."

/-- It takes no more than a look at the components. -/
theorem all_staysInside_iff :
    (components path).all Command.staysInside = true ↔ StaysInside path := by
  have hnames : (names path).all Command.staysInside = true ↔ ∀ name ∈ names path, name ≠ ".." := by
    rw [List.all_eq_true]
    refine forall₂_congr fun name hname => ?_
    simp [Command.staysInside, ne_slash_of_mem_names hname]
  rw [components_eq, List.all_append, Bool.and_eq_true, hnames]
  cases hslash : path.startsWith "/" with
  | true =>
    rw [lead_of_absolute hslash]
    constructor
    · intro h
      exact absurd h.1 (by decide)
    · intro h
      rw [h.relative] at hslash
      cases hslash
  | false =>
    have hlead : (lead path).all Command.staysInside = true := by
      rcases lead_of_relative hslash with hlead | hlead
      · rw [hlead]
        decide
      · rw [hlead]
        rfl
    exact ⟨fun h => ⟨hslash, h.2⟩, fun h => ⟨hlead, h.ne_dots⟩⟩

/-! ### Joined paths -/

theorem endsWith_slash_iff : path.endsWith "/" = true ↔ ['/'] <:+ path.toList := by
  rw [← String.endsWith_toSlice, String.Slice.endsWith_string_iff, String.copy_toSlice]
  rfl

theorem exists_of_endsWith_slash (h : path.endsWith "/" = true) : ∃ front, path = front ++ "/" := by
  obtain ⟨front, hfront⟩ := endsWith_slash_iff.mp h
  refine ⟨String.ofList front, String.toList_inj.mp ?_⟩
  rw [String.toList_append, String.toList_ofList, ← hfront]
  rfl

theorem join_of_relative (h : other.startsWith "/" = false) : join path other =
    if path.isEmpty || path.endsWith "/" then path ++ other else path ++ "/" ++ other := by
  rw [join, h]
  rfl

/-- A relative path that is joined to another one adds its names. -/
theorem names_join (h : other.startsWith "/" = false) :
    names (join path other) = names path ++ names other := by
  rw [join_of_relative h]
  split
  · next hbare =>
    rcases Bool.or_eq_true_iff.mp hbare with hempty | hslash
    · rw [String.isEmpty_iff.mp hempty, String.empty_append, names_empty, List.nil_append]
    · obtain ⟨front, rfl⟩ := exists_of_endsWith_slash hslash
      have hfront : names (front ++ "/") = names front := by
        rw [← String.append_empty (s := front ++ "/"), names_append, names_empty, List.append_nil]
      rw [names_append, hfront]
  · exact names_append path other

/-- A path that is joined from another one leads from the root if that one does. -/
theorem startsWith_slash_join (h : other.startsWith "/" = false) :
    (join path other).startsWith "/" = path.startsWith "/" := by
  by_cases hempty : path = ""
  · have hjoin : join "" other = other := by
      rw [join_of_relative h]
      exact String.empty_append
    rw [hempty, hjoin, h]
    exact (Bool.eq_false_iff.mpr (by decide)).symm
  · have hback : ∃ back, join path other = path ++ back := by
      rw [join_of_relative h]
      split
      · exact ⟨other, rfl⟩
      · exact ⟨"/" ++ other, String.append_assoc ..⟩
    obtain ⟨back, hback⟩ := hback
    obtain ⟨first, rest, hpath⟩ :=
      List.exists_cons_of_ne_nil (mt String.toList_eq_nil_iff.mp hempty)
    rw [hback, Bool.eq_iff_iff, startsWith_slash_iff, startsWith_slash_iff, String.toList_append,
      hpath, List.cons_append, List.cons_prefix_cons, List.cons_prefix_cons]
    simp

/-- A path that is continued starts as it did. -/
theorem head?_pieces_join (hpath : path ≠ "") (h : other.startsWith "/" = false) :
    (Text.pieces '/' (join path other).toList).head? = (Text.pieces '/' path.toList).head? := by
  rw [join_of_relative h]
  split
  · next hbare =>
    rcases Bool.or_eq_true_iff.mp hbare with hempty | hslash
    · exact absurd (String.isEmpty_iff.mp hempty) hpath
    · obtain ⟨front, rfl⟩ := exists_of_endsWith_slash hslash
      have hfront : (front ++ "/").toList = front.toList ++ ['/'] := String.toList_append
      rw [toList_append_slash, hfront, Text.pieces_append, Text.pieces_append,
        List.head?_append_of_ne_nil _ (Text.pieces_ne_nil _ _),
        List.head?_append_of_ne_nil _ (Text.pieces_ne_nil _ _)]
  · rw [toList_append_slash, Text.pieces_append,
      List.head?_append_of_ne_nil _ (Text.pieces_ne_nil _ _)]

/-- A relative path that is joined to one that is not empty adds its names to the components. -/
theorem components_join (hpath : path ≠ "") (h : other.startsWith "/" = false) :
    components (join path other) = components path ++ names other := by
  have hlead : lead (join path other) = lead path := by
    rw [lead, lead, startsWith_slash_join h, head?_pieces_join hpath h]
  rw [components_eq, components_eq, hlead, names_join h, List.append_assoc]

/-- The last piece of a path that does not mean a folder is a name. -/
theorem exists_last_piece (hpath : path ≠ "") (h : FileTree.meansFolder path = false) :
    ∃ others last, Text.pieces '/' path.toList = others ++ [last] ∧ last ≠ [] ∧ last ≠ ['.'] := by
  obtain ⟨others, last, hpieces, hlast, htext⟩ := Text.exists_pieces_eq_concat '/' path.toList
  refine ⟨others, last, hpieces, ?_⟩
  rw [FileTree.meansFolder, Bool.or_eq_false_iff] at h
  obtain ⟨hslash, hdots⟩ := h
  have hsome : last ≠ [] := by
    rintro rfl
    rcases htext with hnil | ⟨front, hfront⟩
    · exact hpath (String.toList_eq_nil_iff.mp hnil)
    · have hends : path.endsWith "/" = true := endsWith_slash_iff.mpr ⟨front, hfront.symm⟩
      rw [FileTree.endsInSlash, hends] at hslash
      cases hslash
  refine ⟨hsome, ?_⟩
  -- the check looks at the same piece, from behind
  have hbehind : ((path.toList.reverse.dropWhile (· == '/')).takeWhile (· != '/')).reverse = last := by
    obtain ⟨back, hback⟩ : ∃ back, path.toList.reverse = last.reverse ++ back ∧
        back.takeWhile (· != '/') = [] := by
      rcases htext with hall | ⟨front, hfront⟩
      · exact ⟨[], by rw [hall, List.append_nil], rfl⟩
      · exact ⟨'/' :: front.reverse, by rw [hfront]; simp, by simp⟩
    obtain ⟨a, rest, hreverse⟩ := List.exists_cons_of_ne_nil (mt List.reverse_eq_nil_iff.mp hsome)
    have hall : ∀ b ∈ last.reverse, (b != '/') = true := by
      intro b hb
      refine bne_iff_ne.mpr ?_
      rintro rfl
      exact hlast (List.mem_reverse.mp hb)
    have ha : (a == '/') = false := by
      have := hall a (by rw [hreverse]; exact List.mem_cons_self)
      simpa using this
    have hkept : path.toList.reverse.dropWhile (· == '/') = path.toList.reverse := by
      rw [hback.1, hreverse, List.cons_append, List.dropWhile_cons_of_neg (by simp [ha])]
    rw [hkept, hback.1, List.takeWhile_append_of_pos hall, hback.2, List.append_nil,
      List.reverse_reverse]
  rintro rfl
  rw [FileTree.endsInDots, hbehind] at hdots
  exact absurd hdots (by decide)

/-- A path that is joined from another one ends in the pieces of that one. -/
theorem exists_pieces_join (path : String) (h : other.startsWith "/" = false) : ∃ front,
    Text.pieces '/' (join path other).toList = front ++ Text.pieces '/' other.toList := by
  rw [join_of_relative h]
  split
  · next hbare =>
    rcases Bool.or_eq_true_iff.mp hbare with hempty | hslash
    · exact ⟨[], by rw [String.isEmpty_iff.mp hempty, String.empty_append, List.nil_append]⟩
    · obtain ⟨front, rfl⟩ := exists_of_endsWith_slash hslash
      exact ⟨_, by rw [toList_append_slash, Text.pieces_append]⟩
  · exact ⟨_, by rw [toList_append_slash, Text.pieces_append]⟩

/-- A joined path that does not mean a folder has a name from the path that was joined to it. -/
theorem names_ne_nil_of_join (hother : other ≠ "") (hrelative : other.startsWith "/" = false)
    (h : FileTree.meansFolder (join path other) = false) : names other ≠ [] := by
  have hjoin : join path other ≠ "" := by
    rw [join_of_relative hrelative]
    split
    · exact fun hempty => hother (String.append_eq_empty_iff.mp hempty).2
    · exact fun hempty => hother (String.append_eq_empty_iff.mp hempty).2
  obtain ⟨front, hfront⟩ := exists_pieces_join path hrelative
  obtain ⟨before, piece, hpiece, hsome, hdot⟩ := exists_last_piece hjoin h
  obtain ⟨others, last, hlast, -, -⟩ := Text.exists_pieces_eq_concat '/' other.toList
  rw [hpiece, hlast, ← List.append_assoc] at hfront
  obtain rfl : piece = last := List.singleton_inj.mp (List.append_inj_right' hfront rfl)
  refine List.ne_nil_of_mem (a := String.ofList piece) (List.mem_filter.mpr ⟨?_, ?_⟩)
  · exact List.mem_map_of_mem (by rw [hlast]; simp)
  · rw [Bool.and_eq_true, bne_iff_ne, bne_iff_ne]
    refine ⟨fun heq => hsome ?_, fun heq => hdot ?_⟩
    · rw [← String.toList_ofList (l := piece), heq]
      rfl
    · rw [← String.toList_ofList (l := piece), heq]
      rfl

end Path

/-! ### Places -/

namespace FileTree

variable {t : FileTree} {start found place : Place} {names : List String} {path other : String}

/-- The place that the components of a path spell out. -/
def destination (t : FileTree) (path : String) : Place := (Path.components path).foldl step t.current

/-- A path leads along its names, from the root if it starts with a slash. -/
theorem destination_eq (t : FileTree) (path : String) : t.destination path
    = (Path.names path).foldl step (if path.startsWith "/" then [] else t.current) := by
  rw [destination, Path.components_eq, List.foldl_append]
  cases hslash : path.startsWith "/" with
  | true =>
    rw [Path.lead_of_absolute hslash]
    rfl
  | false =>
    rcases Path.lead_of_relative hslash with hlead | hlead
    · rw [hlead]
      rfl
    · rw [hlead]
      rfl

/-- Where folders can be followed, they lead to the place that the components spell out. -/
theorem eq_of_enter (h : t.enter start names = .ok found) : found = names.foldl step start := by
  induction names generalizing start with
  | nil =>
    cases h
    rfl
  | cons name names ih =>
    rw [enter] at h
    split at h
    · cases h
    · cases h
    · exact ih h

/-- **A path leads to the place that its components spell out**, if it leads anywhere. -/
theorem destination_of_place (h : t.place path = .ok place) : place = t.destination path := by
  obtain ⟨front, last, folder, hcomponents, hfolder, rfl⟩ := place_eq_ok.mp h
  rw [destination, hcomponents, List.foldl_append, ← eq_of_enter hfolder]
  rfl

/-- Names that are neither dots nor a slash lead from a place to one below it. -/
theorem foldl_step_eq (place : Place)
    (h : ∀ name ∈ names, name ≠ "." ∧ name ≠ "/" ∧ name ≠ "..") :
    names.foldl step place = place ++ names := by
  induction names generalizing place with
  | nil => exact (List.append_nil _).symm
  | cons name names ih =>
    obtain ⟨hdot, hslash, hdots⟩ := h name List.mem_cons_self
    have hstep : step place name = place ++ [name] := by
      simp [step, hdot, hslash, hdots]
    rw [List.foldl_cons, hstep, ih _ fun other hother => h other (List.mem_cons_of_mem _ hother),
      List.append_assoc]
    rfl

/-- **A path that is joined from another one, and stays inside, leads below it.** -/
theorem destination_join (t : FileTree) (path : String) (h : Path.StaysInside other) :
    t.destination (Path.join path other) = t.destination path ++ Path.names other := by
  rw [destination_eq, Path.names_join h.relative, Path.startsWith_slash_join h.relative,
    List.foldl_append, ← destination_eq]
  refine foldl_step_eq _ fun name hname => ?_
  exact ⟨(Path.ne_of_mem_names hname).2.1, Path.ne_slash_of_mem_names hname, h.ne_dots name hname⟩

/-- What leads on leads to where it leads on from. -/
theorem enter_append {others : List String} : t.enter start (names ++ others) = .ok found ↔
    ∃ mid, t.enter start names = .ok mid ∧ t.enter mid others = .ok found := by
  induction names generalizing start with
  | nil => simp [enter]
  | cons name names ih =>
    rw [List.cons_append, enter, enter]
    split
    · simp
    · simp
    · exact ih

/-- **Where a joined path leads somewhere, the path that it was joined from does.** -/
theorem place_of_join (hpath : path ≠ "") (hrelative : other.startsWith "/" = false)
    (hnames : Path.names other ≠ []) (h : t.place (Path.join path other) = .ok place) :
    t.place path = .ok (t.destination path) := by
  obtain ⟨front, last, folder, hcomponents, hfolder, -⟩ := place_eq_ok.mp h
  obtain ⟨before, final, hother⟩ := List.eq_nil_or_concat' (Path.names other) |>.resolve_left hnames
  rw [Path.components_join hpath hrelative, hother, ← List.append_assoc] at hcomponents
  obtain ⟨rfl, -⟩ := List.append_inj' hcomponents rfl
  obtain ⟨mid, hmid, -⟩ := enter_append.mp hfolder
  obtain ⟨above, lowest, hsplit⟩ :=
    List.eq_nil_or_concat' (Path.components path) |>.resolve_left (Path.components_ne_nil hpath)
  rw [hsplit] at hmid
  obtain ⟨upper, hupper, -⟩ := enter_append.mp hmid
  have hplace := place_eq_ok.mpr ⟨above, lowest, upper, hsplit, hupper, rfl⟩
  rw [hplace, destination_of_place hplace]

end FileTree

/-! ### Targets of extraction -/

namespace Command

/-- The paths that extraction writes to are joined from the folder and the name, which is not empty
and stays inside. -/
theorem targetPath_eq_ok {directory name path : String} :
    targetPath directory name = .ok path ↔ EntryName.slashed name ≠ "" ∧
      Path.StaysInside (EntryName.slashed name) ∧
        path = Path.join directory (EntryName.slashed name) := by
  rw [targetPath, ← Path.all_staysInside_iff]
  split
  · next hempty => simp [String.isEmpty_iff.mp hempty]
  · next hsome =>
    have hne : EntryName.slashed name ≠ "" := mt String.isEmpty_iff.mpr hsome
    split
    · next hinside => simp [hne, hinside, eq_comm]
    · next hinside => simp [hinside]

end Command

end Packfile
