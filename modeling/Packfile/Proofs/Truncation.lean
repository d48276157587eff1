import Mathlib.Data.Nat.Notation
import Packfile.Cipher
import Packfile.Codec.Content

/-!
# Decoding truncated data

What a decompressor has made of the first bytes of its input stands, whatever comes behind them:
inflating a truncated stream gives a prefix of what the whole stream gives. The same is true of a
cipher, so it is true of every codec, and stored data that cannot be read to their end decode to a
shorter content and never to a different one. A content of the declared length is therefore the same
however much was behind it.

## How the two runs compare

The decoder of the longer input holds the same bits with more bytes behind them. As long as the
shorter input suffices both decoders do the same, and when it does not, the shorter one stops as
`incomplete`. So each of the functions that read bits *follows*: on more input it gives the same
value or the same fault, unless it stopped for want of data. For functions that produce output the
same is said of the output as well, which never loses what it had.

The rounds that bound a loop of the decoder depend on the length of the input. They may only grow,
and a loop that runs out of rounds ends as one that runs out of data, so no bound has to be shown
sufficient.

## Chains of transforms

A decompressor that meets a failure by reaching it loses the whole last piece of its input, so of
two feeds the one that had more bytes may hand fewer of them on. What goes through a chain of
transforms is not that one feed is the beginning of the other, but that one of them is: the feeds
stay `Comparable`.

## Main definitions

* `Deflate.Bits.Extends` — the same bits with more bytes behind them
* `Deflate.Follows` — what reading fewer bits says of reading more
* `Deflate.Reaches` — the same for output
* `Feed.Comparable` — feeds of which one is the beginning of the other

## Main results

* `Deflate.inflate_prefix`, `Zlib.decompress_prefix`
* `Codec.undo_comparable` — every codec keeps feeds comparable
* `ContentReader.readAll_of_comparable` — contents of one length from comparable feeds are the same
-/

namespace Packfile

namespace Deflate

/-- The same pending bits, and at least the same bytes after them. -/
structure Bits.Extends (a b : Bits) : Prop where
  /-- The bits of the byte in hand. -/
  pending : b.pending = a.pending
  /-- The bytes after it. -/
  rest : a.rest <+: b.rest

variable {α β : Type} {a b : Bits} {output : Array UInt8}

/-! ### Reading bits -/

/-- A result of reading bits, and that of reading the same bits with more behind them. -/
inductive Follows : Except Stop (α × Bits) → Except Stop (α × Bits) → Prop
  /-- Data that end early may be completed to anything. -/
  | incomplete (x : Except Stop (α × Bits)) : Follows (.error .incomplete) x
  /-- A broken rule stays broken. -/
  | corrupt : Follows (.error .corrupt) (.error .corrupt)
  /-- A value stays the same. -/
  | ok (v : α) {a b : Bits} (h : a.Extends b) : Follows (.ok (v, a)) (.ok (v, b))

theorem Follows.bind {x y : Except Stop (α × Bits)} {f g : α × Bits → Except Stop (β × Bits)}
    (h : Follows x y) (hfg : ∀ v a b, a.Extends b → Follows (f (v, a)) (g (v, b))) :
    Follows (x >>= f) (y >>= g) := by
  cases h with
  | incomplete => exact .incomplete _
  | corrupt => exact .corrupt
  | ok v h => exact hfg v _ _ h

/-- A step that does not read anything. -/
theorem Follows.same (x : Except Stop β) {f g : β → Except Stop (α × Bits)}
    (hfg : ∀ v, Follows (f v) (g v)) : Follows (x >>= f) (x >>= g) := by
  cases x with
  | ok v => exact hfg v
  | error stop =>
    cases stop with
    | incomplete => exact .incomplete _
    | corrupt => exact .corrupt

theorem Follows.ite {c : Prop} [Decidable c] {x x' y y' : Except Stop (α × Bits)}
    (hx : Follows x x') (hy : Follows y y') :
    Follows (if c then x else y) (if c then x' else y') := by
  split
  · exact hx
  · exact hy

theorem Bits.next_of_extends (h : a.Extends b) {bit : Bool} {a' : Bits}
    (ha : a.next = some (bit, a')) : ∃ b', b.next = some (bit, b') ∧ a'.Extends b' := by
  obtain ⟨inHand, rest⟩ := a
  obtain ⟨inHand', more⟩ := b
  obtain ⟨hpending, hrest⟩ := h
  dsimp only at hpending hrest
  subst hpending
  cases inHand' with
  | cons p pending =>
    cases ha
    exact ⟨_, rfl, rfl, hrest⟩
  | nil =>
    cases rest with
    | nil => cases ha
    | cons byte rest =>
      obtain ⟨tail, rfl⟩ := hrest
      cases ha
      exact ⟨_, rfl, rfl, List.prefix_append _ _⟩

theorem Bits.take_of_extends (h : a.Extends b) {count n : ℕ} {a' : Bits}
    (ha : a.take count = some (n, a')) : ∃ b', b.take count = some (n, b') ∧ a'.Extends b' := by
  induction count generalizing a b n with
  | zero =>
    cases ha
    exact ⟨b, rfl, h⟩
  | succ count ih =>
    simp only [take, Option.bind_eq_bind, Option.bind_eq_some_iff] at ha
    obtain ⟨⟨bit, a₁⟩, hnext, ⟨high, a₂⟩, htake, hn⟩ := ha
    cases hn
    obtain ⟨b₁, hb₁, h₁⟩ := next_of_extends h hnext
    obtain ⟨b₂, hb₂, h₂⟩ := ih h₁ htake
    refine ⟨b₂, ?_, h₂⟩
    simp only [take, hb₁, hb₂, Option.bind_eq_bind, Option.bind_some]
    rfl

theorem bitField_follows (count : ℕ) (h : a.Extends b) :
    Follows (bitField count a) (bitField count b) := by
  cases ha : a.take count with
  | none =>
    rw [bitField, ha]
    exact .incomplete _
  | some found =>
    obtain ⟨b', hb, h'⟩ := Bits.take_of_extends h ha
    rw [bitField, bitField, ha, hb]
    exact .ok _ h'

/-! ### Reading symbols -/

theorem walk_follows (symbols : Array ℕ) (counts : List ℕ) (word first index : ℕ)
    (h : a.Extends b) :
    Follows (Code.walk symbols counts word first index a)
      (Code.walk symbols counts word first index b) := by
  induction counts generalizing word first index a b with
  | nil => exact .corrupt
  | cons count counts ih =>
    cases ha : a.next with
    | none =>
      rw [Code.walk, ha]
      exact .incomplete _
    | some found =>
      obtain ⟨bit, a'⟩ := found
      obtain ⟨b', hb, h'⟩ := Bits.next_of_extends h ha
      rw [Code.walk, Code.walk, ha, hb]
      refine .ite ?_ (.ite .corrupt (ih _ _ _ h'))
      split
      · exact .ok _ h'
      · exact .corrupt

theorem read_follows (code : Code) (h : a.Extends b) : Follows (code.read a) (code.read b) :=
  walk_follows _ _ _ _ _ h

theorem extended_follows (table : Array (ℕ × ℕ)) (symbol : ℕ) (h : a.Extends b) :
    Follows (extended table symbol a) (extended table symbol b) := by
  unfold extended
  cases table[symbol]? with
  | none => exact .corrupt
  | some found => exact (bitField_follows _ h).bind fun _ _ _ h => .ok _ h

theorem item_follows (literals distances : Code) (h : a.Extends b) :
    Follows (item literals distances a) (item literals distances b) := by
  refine (read_follows literals h).bind fun symbol a b h => ?_
  refine .ite (.ok _ h) (.ite (.ok _ h) ?_)
  refine (extended_follows _ _ h).bind fun length a b h => ?_
  refine Follows.bind ?_ fun _ _ _ h => .ok _ h
  exact (read_follows distances h).bind fun _ _ _ h => extended_follows _ _ h

/-! ### Reading codes -/

theorem triples_follows (count : ℕ) (h : a.Extends b) :
    Follows (triples count a) (triples count b) := by
  induction count generalizing a b with
  | zero => exact .ok _ h
  | succ count ih =>
    refine (bitField_follows 3 h).bind fun value a b h => ?_
    exact (ih h).bind fun _ _ _ h => .ok _ h

theorem wordLengths_follows (code : Code) (wanted rounds : ℕ) (found : List ℕ)
    (h : a.Extends b) :
    Follows (wordLengths code wanted rounds found a) (wordLengths code wanted rounds found b) := by
  induction rounds generalizing found a b with
  | zero => exact .incomplete _
  | succ rounds ih =>
    rw [wordLengths, wordLengths]
    split
    · exact .ok _ h
    · refine (read_follows code h).bind fun symbol a b h => ?_
      dsimp only
      split
      · exact ih _ h
      · refine (bitField_follows _ h).bind fun more a b h => ?_
        split
        all_goals exact Follows.same _ fun repeated => .ite .corrupt (ih _ h)

theorem describedCodes_follows (h : a.Extends b) :
    Follows (describedCodes a) (describedCodes b) := by
  refine (bitField_follows 14 h).bind fun header a b h => .ite .corrupt ?_
  refine (triples_follows _ h).bind fun listed a b h => ?_
  dsimp only
  split
  · refine (wordLengths_follows _ _ _ _ h).bind fun found a b h => ?_
    exact .ite .corrupt (.ok _ h)
  · exact .corrupt

/-! ### Output -/

/-- What a block leaves, and what it leaves when there are more bytes behind it. -/
inductive Reaches : Progress → Progress → Prop
  /-- Output up to the end of the data is kept. -/
  | incomplete {output : Array UInt8} {p : Progress} (h : output.toList <+: p.1.toList) :
      Reaches (output, .error .incomplete) p
  /-- A broken rule is met at the same place. -/
  | corrupt (output : Array UInt8) : Reaches (output, .error .corrupt) (output, .error .corrupt)
  /-- A complete block stays the same. -/
  | ok (output : Array UInt8) {a b : Bits} (h : a.Extends b) :
      Reaches (output, .ok a) (output, .ok b)

theorem prefix_push (byte : UInt8) : output.toList <+: (output.push byte).toList := by
  rw [Array.toList_push]
  exact List.prefix_append _ _

theorem prefix_copyBack (distance count : ℕ) :
    output.toList <+: (copyBack distance count output).toList := by
  induction count generalizing output with
  | zero => exact List.prefix_rfl
  | succ count ih => exact (prefix_push _).trans ih

theorem prefix_symbols (literals distances : Code) (rounds : ℕ) (output : Array UInt8)
    (bits : Bits) :
    output.toList <+: (symbols literals distances rounds output bits).1.toList := by
  induction rounds generalizing output bits with
  | zero => exact List.prefix_rfl
  | succ rounds ih =>
    rw [symbols]
    split
    · exact List.prefix_rfl
    · exact List.prefix_rfl
    · exact (prefix_push _).trans (ih _ _)
    · split
      · exact List.prefix_rfl
      · exact (prefix_copyBack _ _).trans (ih _ _)

theorem prefix_storedBlock (output : Array UInt8) (bits : Bits) :
    output.toList <+: (storedBlock output bits).1.toList := by
  have happend (content : Bytes) : output.toList <+: (output ++ content).toList := by
    rw [Array.toList_appendList]
    exact List.prefix_append _ _
  unfold storedBlock
  split
  · dsimp only
    split
    · split
      · exact happend _
      · exact happend _
    · exact List.prefix_rfl
  · exact List.prefix_rfl

theorem prefix_block (kind : ℕ) (output : Array UInt8) (bits : Bits) :
    output.toList <+: (block kind output bits).1.toList := by
  unfold block
  split
  · exact prefix_storedBlock _ _
  · exact prefix_symbols _ _ _ _ _
  · split
    · exact List.prefix_rfl
    · exact prefix_symbols _ _ _ _ _
  · exact List.prefix_rfl

theorem prefix_blocks (rounds : ℕ) (output : Array UInt8) (bits : Bits) :
    output.toList <+: (blocks rounds output bits).1.toList := by
  induction rounds generalizing output bits with
  | zero => exact List.prefix_rfl
  | succ rounds ih =>
    rw [blocks]
    split
    · exact List.prefix_rfl
    · next header bits _ =>
      have hblock := prefix_block (header / 2) output bits
      split
      · next heq => rwa [heq] at hblock
      · next heq =>
        rw [heq] at hblock
        split
        · exact hblock
        · exact hblock.trans (ih _ _)

/-! ### Blocks -/

theorem symbols_reaches (literals distances : Code) {rounds rounds' : ℕ} (h : a.Extends b)
    (hrounds : rounds ≤ rounds') :
    Reaches (symbols literals distances rounds output a)
      (symbols literals distances rounds' output b) := by
  induction rounds generalizing rounds' output a b with
  | zero => exact .incomplete (prefix_symbols _ _ _ _ _)
  | succ rounds ih =>
    obtain ⟨rounds', rfl⟩ : ∃ n, rounds' = n + 1 := ⟨rounds' - 1, by omega⟩
    have hitem := item_follows literals distances h
    have hkept := prefix_symbols literals distances (rounds' + 1) output b
    rw [symbols] at hkept ⊢
    rw [symbols]
    generalize item literals distances a = x at hitem ⊢
    generalize item literals distances b = y at hitem hkept ⊢
    cases hitem with
    | incomplete => exact .incomplete hkept
    | corrupt => exact .corrupt _
    | ok found h =>
      cases found with
      | finish => exact .ok _ h
      | literal byte => exact ih h (by omega)
      | copy length distance =>
        dsimp only
        split
        · exact .corrupt _
        · exact ih h (by omega)

theorem storedBlock_reaches (h : a.Extends b) :
    Reaches (storedBlock output a) (storedBlock output b) := by
  have hkept := prefix_storedBlock output b
  obtain ⟨_, ra⟩ := a
  obtain ⟨_, rb⟩ := b
  obtain ⟨-, tail, rfl⟩ := h
  match ra with
  | [] => exact .incomplete hkept
  | [_] => exact .incomplete hkept
  | [_, _] => exact .incomplete hkept
  | [_, _, _] => exact .incomplete hkept
  | x :: y :: z :: w :: rest =>
    simp only [storedBlock, Bits.align, List.cons_append]
    by_cases hcheck : ByteOrder.little.decode [x, y] + ByteOrder.little.decode [z, w] = 0xFFFF
    · rw [if_pos hcheck, if_pos hcheck]
      generalize ByteOrder.little.decode [x, y] = length
      by_cases hlength : length ≤ rest.length
      · -- The content is all there, so what follows is not looked at.
        have hshort : (rest.take length).length = length := by simp [hlength]
        rw [List.take_append_of_le_length hlength, List.drop_append_of_le_length hlength,
          if_pos hshort, if_pos hshort]
        exact .ok _ ⟨rfl, List.prefix_append _ _⟩
      · have hshort : ¬ (rest.take length).length = length := by
          rw [List.length_take]
          omega
        rw [if_neg hshort]
        refine .incomplete ?_
        have hprefix : output.toList ++ rest.take length
            <+: output.toList ++ (rest ++ tail).take length := by
          rw [List.take_append, ← List.append_assoc]
          exact List.prefix_append _ _
        split
        · simpa using hprefix
        · simpa using hprefix
    · rw [if_neg hcheck, if_neg hcheck]
      exact .corrupt _

theorem Bits.Extends.length_le (h : a.Extends b) : a.length ≤ b.length := by
  have hrest := h.rest.length_le
  rw [Bits.length, Bits.length, h.pending]
  omega

theorem block_reaches (kind : ℕ) (output : Array UInt8) (h : a.Extends b) :
    Reaches (block kind output a) (block kind output b) := by
  have hkept := prefix_block kind output b
  unfold block at hkept ⊢
  split
  · exact storedBlock_reaches h
  · exact symbols_reaches _ _ h (Nat.add_le_add_right h.length_le 1)
  · have hcodes := describedCodes_follows h
    generalize describedCodes a = x at hcodes ⊢
    generalize describedCodes b = y at hcodes hkept ⊢
    cases hcodes with
    | incomplete => exact .incomplete hkept
    | corrupt => exact .corrupt _
    | ok codes h => exact symbols_reaches _ _ h (Nat.add_le_add_right h.length_le 1)
  · exact .corrupt _

theorem blocks_prefix {rounds rounds' : ℕ} (h : a.Extends b) (hrounds : rounds ≤ rounds') :
    (blocks rounds output a).1.toList <+: (blocks rounds' output b).1.toList := by
  induction rounds generalizing rounds' output a b with
  | zero => exact prefix_blocks _ _ _
  | succ rounds ih =>
    obtain ⟨rounds', rfl⟩ : ∃ n, rounds' = n + 1 := ⟨rounds' - 1, by omega⟩
    have hkept := prefix_blocks (rounds' + 1) output b
    have hheader := bitField_follows 3 h
    rw [blocks] at hkept ⊢
    rw [blocks]
    generalize bitField 3 a = x at hheader ⊢
    generalize bitField 3 b = y at hheader hkept ⊢
    cases hheader with
    | incomplete => exact hkept
    | corrupt => exact List.prefix_rfl
    | ok header h =>
      have hblock := block_reaches (header / 2) output h
      dsimp only at hkept ⊢
      generalize block (header / 2) output _ = x at hblock ⊢
      generalize block (header / 2) output _ = y at hblock hkept ⊢
      cases hblock with
      | incomplete hprefix =>
        refine hprefix.trans ?_
        obtain ⟨more, stop | bits⟩ := y
        · exact List.prefix_rfl
        · dsimp only
          split
          · exact List.prefix_rfl
          · exact prefix_blocks _ _ _
      | corrupt => exact List.prefix_rfl
      | ok more h =>
        dsimp only
        split
        · exact List.prefix_rfl
        · exact ih h (by omega)

/-- **Inflating a truncated stream gives a prefix of what the whole stream gives.** -/
theorem inflate_prefix {short long : Bytes} (h : short <+: long) :
    (inflate short).1 <+: (inflate long).1 := by
  have hextends : (Bits.ofBytes short).Extends (Bits.ofBytes long) := ⟨rfl, h⟩
  exact blocks_prefix hextends (Nat.add_le_add_right hextends.length_le 1)

end Deflate

namespace Zlib

/-- The content of a zlib stream is the inflated body, behind a header that allows it. -/
theorem fst_decompress (cmf flg : UInt8) (body : Bytes) :
    (decompress (cmf :: flg :: body)).1 =
      if !isHeader cmf flg || wantsDictionary flg then [] else (Deflate.inflate body).1 := by
  rw [decompress]
  cases isHeader cmf flg
  · rfl
  · cases wantsDictionary flg
    · simp only [Bool.not_true, Bool.or_false, Bool.false_eq_true, if_false]
      split <;> simp [*]
    · rfl

/-- **The same holds of streams with zlib framing.** The header comes first, and the checksum at the
end has no part in the content. -/
theorem decompress_prefix {short long : Bytes} (h : short <+: long) :
    (decompress short).1 <+: (decompress long).1 := by
  obtain ⟨tail, rfl⟩ := h
  match short with
  | [] => exact List.nil_prefix
  | [_] => exact List.nil_prefix
  | cmf :: flg :: body =>
    rw [List.cons_append, List.cons_append, fst_decompress, fst_decompress]
    split
    · exact List.prefix_rfl
    · exact Deflate.inflate_prefix (List.prefix_append body tail)

end Zlib

/-! ### Feeds -/

namespace Feed

variable {f g : Feed}

/-- One of the feeds yields the beginning of what the other yields. -/
def Comparable (f g : Feed) : Prop := f.bytes <+: g.bytes ∨ g.bytes <+: f.bytes

/-- Beginnings of comparable feeds are comparable. -/
theorem Comparable.of_prefix {f' g' : Feed} (h : f.Comparable g) (hf : f'.bytes <+: f.bytes)
    (hg : g'.bytes <+: g.bytes) : f'.Comparable g' := by
  rcases h with h | h
  · exact List.prefix_or_prefix_of_prefix (hf.trans h) hg
  · exact List.prefix_or_prefix_of_prefix hf (hg.trans h)

/-- Whatever turns beginnings into beginnings keeps feeds comparable. -/
theorem Comparable.of_monotone {f' g' : Feed} (h : f.Comparable g) (transform : Bytes → Bytes)
    (hmono : ∀ {a b}, a <+: b → transform a <+: transform b)
    (hf : f'.bytes = transform f.bytes) (hg : g'.bytes = transform g.bytes) :
    f'.Comparable g' := by
  rw [Comparable, hf, hg]
  exact h.imp (fun hle => hmono hle) fun hge => hmono hge

/-- As far as both of them go, comparable feeds yield the same. -/
theorem Comparable.take_eq (h : f.Comparable g) {n : ℕ} (hf : n ≤ f.bytes.length)
    (hg : n ≤ g.bytes.length) : f.bytes.take n = g.bytes.take n := by
  rcases h with ⟨tail, heq⟩ | ⟨tail, heq⟩
  · rw [← heq, List.take_append_of_le_length hf]
  · rw [← heq, List.take_append_of_le_length hg]

theorem prefix_inPieces (f : Feed) : f.inPieces.bytes <+: f.bytes := by
  unfold inPieces
  split
  · exact List.take_prefix _ _
  · exact List.prefix_rfl

theorem bytes_inflate (decompress : Bytes → Bytes × Deflate.Ending) (f : Feed) :
    (f.inflate decompress).bytes = (decompress f.inPieces.bytes).1 := by
  rw [inflate_eq]

theorem Comparable.inflate {decompress : Bytes → Bytes × Deflate.Ending} (h : f.Comparable g)
    (hmono : ∀ {a b}, a <+: b → (decompress a).1 <+: (decompress b).1) :
    (f.inflate decompress).Comparable (g.inflate decompress) :=
  (h.of_prefix f.prefix_inPieces g.prefix_inPieces).of_monotone _ hmono (bytes_inflate _ _)
    (bytes_inflate _ _)

/-- Whether the storage fails or not, a feed yields what it delivers. -/
theorem bytes_ofStream (s : Stream) (size : ℕ) : (ofStream s size).bytes = s.ahead.take size := by
  unfold ofStream
  dsimp only
  split <;> rfl

end Feed

theorem Transform.undo_comparable (transform : Transform) {f g : Feed} (h : f.Comparable g) :
    (transform.undo f).Comparable (transform.undo g) := by
  cases transform with
  | xor key =>
    exact h.of_monotone (fun text => ((Cipher.xor ⟨key, 0⟩).apply text).1)
      (Cipher.apply_prefix _) rfl rfl
  | rc4 key =>
    exact h.of_monotone (fun text => ((Cipher.rc4 (Rc4.ofKey key)).apply text).1)
      (Cipher.apply_prefix _) rfl rfl
  | zlib => exact h.inflate Zlib.decompress_prefix
  | deflate => exact h.inflate Deflate.inflate_prefix

/-- Codecs fail for their keys only, and otherwise keep feeds comparable. -/
theorem Codec.undo_comparable (codec : Codec) {f g : Feed} (h : f.Comparable g) :
    (∃ e, codec.undo f = .error e ∧ codec.undo g = .error e) ∨
      ∃ f' g', codec.undo f = .ok f' ∧ codec.undo g = .ok g' ∧ f'.Comparable g' := by
  induction codec generalizing f g with
  | nil => exact .inr ⟨f, g, rfl, rfl, h⟩
  | cons transform codec ih =>
    rw [undo, undo]
    cases transform.keyError? with
    | some e => exact .inl ⟨e, rfl, rfl⟩
    | none => exact ih (transform.undo_comparable h)

namespace ContentReader

variable {content : Bytes} {e : Error}

/-- What keeps a content from being complete is a failure to read. -/
theorem exists_of_readAll_eq_error {r : ContentReader} (h : r.readAll = .error e) :
    ∃ failure, e = .read failure := by
  rw [readAll] at h
  split at h
  · cases h
  · split at h
    · cases h
      exact ⟨_, rfl⟩
    all_goals
      split at h
      · cases h
        exact ⟨_, rfl⟩
      · cases h

/-- A content is the beginning of what the feed yields, as long as it was declared to be. -/
theorem of_readAll {r : ContentReader} (h : r.readAll = .ok content) :
    content = r.feed.bytes.take r.remaining ∧ r.remaining ≤ r.feed.bytes.length := by
  obtain ⟨-, hle, hcontent⟩ := readAll_eq_ok.mp h
  exact ⟨hcontent, hle⟩

/-- Contents of one declared length, from feeds of which one is the beginning of the other, are the
same. -/
theorem readAll_of_comparable {f g : Feed} {n : ℕ} {content' : Bytes} (h : f.Comparable g)
    (hf : readAll ⟨f, n⟩ = .ok content) (hg : readAll ⟨g, n⟩ = .ok content') :
    content' = content := by
  obtain ⟨rfl, hflen⟩ := of_readAll hf
  obtain ⟨rfl, hglen⟩ := of_readAll hg
  exact (h.take_eq hflen hglen).symm

end ContentReader

end Packfile
