import Telemetry.Proofs.Text.Raw
import Telemetry.Proofs.Text.Sequences
/-!
# Segments of decoded octets

Any octets fall into segments in exactly one way. A segment is either the octets of a character or a
maximal ill-formed subpart: the longest start of the octets that some character begins with but does
not end with, or one octet if there is no such start. Decoding reads off the segments from left to
right, a character giving itself and a subpart one replacement.
-/

namespace Telemetry

namespace Utf8

/-! ### Segmentations -/

/-- Octets that some character begins with and goes on behind. -/
def IsTruncated (octets : List UInt8) : Prop :=
  octets ≠ [] ∧ ∃ c rest, rest ≠ [] ∧ String.utf8EncodeChar c = octets ++ rest

/-- The start of some octets that is replaced as a whole when no character stands there: the longest
  truncated start, or a single octet if no start is truncated. -/
structure IsMaximalSubpart (part octets : List UInt8) : Prop where
  starts : part <+: octets
  illFormed : ∀ c, ¬ String.utf8EncodeChar c <+: octets
  longest :
    (IsTruncated part ∧
      ∀ other, other <+: octets → IsTruncated other → other.length ≤ part.length) ∨
    part.length = 1 ∧ ∀ other, other <+: octets → ¬ IsTruncated other

/-- A segment of octets: the sequence of a character, or a maximal ill-formed subpart. -/
inductive Segment where
  | scalar (c : Char)
  | subpart (part : List UInt8)

namespace Segment

/-- The octets of a segment. -/
def octets : Segment → List UInt8
  | scalar c => String.utf8EncodeChar c
  | subpart part => part

/-- The character that a segment is decoded to. -/
def char : Segment → Char
  | scalar c => c
  | subpart _ => replacement

/-- The segment is the first one of the octets. -/
def Begins : Segment → List UInt8 → Prop
  | scalar c, octets => String.utf8EncodeChar c <+: octets
  | subpart part, octets => IsMaximalSubpart part octets

end Segment

/-- The segments cover the octets from left to right. -/
def Segmented : List Segment → List UInt8 → Prop
  | [], octets => octets = []
  | s :: segments, octets =>
    s.Begins octets ∧ ∃ rest, octets = s.octets ++ rest ∧ Segmented segments rest

/-! ### Maximal subparts -/

variable {b : UInt8} {octets rest : List UInt8} {owed bits : Nat} {least greatest : UInt8}

/-- An octet that starts no sequence is a maximal subpart by itself. -/
theorem isMaximalSubpart_of_stray (h : start b = ([replacement], .ground)) (rest : List UInt8) :
    IsMaximalSubpart [b] (b :: rest) := by
  -- Whatever starts these octets starts with the stray one, with which no character begins.
  have hstarts {other : List UInt8} (hother : other <+: b :: rest) (hne : other ≠ []) (c : Char) :
      ¬ other <+: String.utf8EncodeChar c := by
    intro hc
    have hb : [b] <+: other :=
      List.prefix_of_prefix_length_le ⟨rest, rfl⟩ hother (List.length_pos_of_ne_nil hne)
    exact not_starts_of_stray h c (hb.trans hc)
  refine ⟨⟨rest, rfl⟩, ?_, Or.inr ⟨rfl, ?_⟩⟩
  · intro c hc
    exact hstarts hc (utf8EncodeChar_ne_nil c) c (List.prefix_refl _)
  · rintro other hother ⟨hne, c, tail, -, hc⟩
    exact hstarts hother hne c ⟨tail, hc.symm⟩

namespace Unfinished

variable {read : List UInt8}

/-- What is unfinished is the front of the sequence of a character. -/
theorem isTruncated (h : Unfinished read owed least greatest bits) : IsTruncated read := by
  obtain ⟨octets, c, hne, hfinishes⟩ := State.exists_finishes owed h.least_le_greatest bits
  exact ⟨h.ne_nil, c, octets, hne, h.encode_of_finishes octets c hfinishes⟩

/-- A sequence is given up behind a maximal subpart. -/
theorem isMaximalSubpart (h : Unfinished read owed least greatest bits)
    (hrest : ∀ b ∈ rest.head?, ¬ (least ≤ b ∧ b ≤ greatest)) :
    IsMaximalSubpart read (read ++ rest) where
  starts := List.prefix_append read rest
  illFormed c hc := by
    have hlength := h.length_le hrest hc (List.prefix_refl _)
    have hread := List.prefix_of_prefix_length_le hc (List.prefix_append read rest) hlength
    -- So the character would begin another one.
    obtain ⟨-, d, tail, hne, hd⟩ := h.isTruncated
    obtain rfl := eq_of_utf8EncodeChar_starts (hread.trans ⟨tail, hd.symm⟩)
    rw [hd, List.length_append] at hlength
    exact hne (List.length_eq_zero_iff.1 (by omega))
  longest := by
    refine Or.inl ⟨h.isTruncated, ?_⟩
    rintro other hother ⟨-, c, tail, -, hc⟩
    exact h.length_le hrest hother ⟨tail, hc.symm⟩

end Unfinished

/-! ### Decoding segment by segment -/

/-- From an unfinished sequence on, the octets go on with a segment. -/
theorem Unfinished.exists_segment {read : List UInt8}
    (h : Unfinished read owed least greatest bits) (rest : List UInt8) :
    ∃ s : Segment, s.Begins (read ++ rest) ∧ ∃ tail, read ++ rest = s.octets ++ tail ∧
      decodeFrom (.inside owed least greatest bits) rest = s.char :: decode tail := by
  -- The sequence grows by every awaited octet, and the first other one ends the segment.
  induction rest generalizing read owed least greatest bits with
  | nil => exact ⟨.subpart read, h.isMaximalSubpart (by simp), [], rfl, rfl⟩
  | cons b rest ih =>
    by_cases hb : least ≤ b ∧ b ≤ greatest
    · have hread : read ++ b :: rest = read ++ [b] ++ rest := by simp
      cases owed with
      | zero =>
        rw [hread, ← h.last hb]
        refine ⟨.scalar _, List.prefix_append _ rest, rest, rfl, ?_⟩
        rw [decodeFrom, State.step, if_pos hb]
        rfl
      | succ owed =>
        rw [hread, decodeFrom, State.step, if_pos hb]
        exact ih (h.next hb)
    · refine ⟨.subpart read, h.isMaximalSubpart ?_, b :: rest, rfl,
        decodeFrom_refused hb owed bits rest⟩
      intro d hd
      rwa [← Option.some.inj hd]

/-- Octets are decoded to the character of their first segment and what the rest is decoded to. -/
theorem exists_segment (b : UInt8) (rest : List UInt8) :
    ∃ s : Segment, s.Begins (b :: rest) ∧ ∃ tail, b :: rest = s.octets ++ tail ∧
      decode (b :: rest) = s.char :: decode tail := by
  -- The first octet is a character, or it is stray, or it leaves a sequence unfinished.
  rcases octet_cases b with ⟨hstart, hencode⟩ | hstart | ⟨owed, least, greatest, bits, h⟩
  · refine ⟨.scalar (Char.ofNat b.toNat), ?_, rest, ?_, ?_⟩
    · rw [Segment.Begins, hencode]
      exact ⟨rest, rfl⟩
    · rw [Segment.octets, hencode]
      rfl
    · rw [decode, decodeFrom, State.step, hstart]
      rfl
  · refine ⟨.subpart [b], isMaximalSubpart_of_stray hstart rest, rest, rfl, ?_⟩
    rw [decode, decodeFrom, State.step, hstart]
    rfl
  · obtain ⟨s, hbegins, tail, htail, hdecode⟩ := h.exists_segment rest
    exact ⟨s, hbegins, tail, htail, (h.decode_append rest).trans hdecode⟩

/-- A segment has octets. -/
theorem Segment.Begins.octets_ne_nil {s : Segment} (h : s.Begins octets) : s.octets ≠ [] := by
  cases s with
  | scalar c => exact utf8EncodeChar_ne_nil c
  | subpart part =>
    rcases h.longest with ⟨⟨hne, -⟩, -⟩ | ⟨hlength, -⟩
    · exact hne
    · exact List.ne_nil_of_length_eq_add_one hlength

/-- Decoding reads off a segmentation. -/
theorem exists_segmented (octets : List UInt8) :
    ∃ segments, Segmented segments octets ∧ decode octets = segments.map Segment.char := by
  match octets with
  | [] => exact ⟨[], rfl, rfl⟩
  | b :: rest =>
    obtain ⟨s, hbegins, tail, htail, hdecode⟩ := exists_segment b rest
    have hshorter : tail.length < (b :: rest).length := by
      have hpos := List.length_pos_of_ne_nil hbegins.octets_ne_nil
      rw [htail, List.length_append]
      omega
    obtain ⟨segments, hsegments, hchars⟩ := exists_segmented tail
    exact ⟨s :: segments, ⟨hbegins, tail, htail, hsegments⟩, by rw [hdecode, hchars]; rfl⟩
termination_by octets.length
decreasing_by exact hshorter

/-! ### The only segmentation -/

/-- There is one maximal ill-formed subpart at the front of octets. -/
theorem IsMaximalSubpart.unique {part other : List UInt8} (h : IsMaximalSubpart part octets)
    (hother : IsMaximalSubpart other octets) : part = other := by
  -- Both are starts of the same octets, so their lengths decide.
  have hlength : part.length = other.length := by
    rcases h.longest with ⟨htruncated, hmax⟩ | ⟨hone, hnone⟩
    · rcases hother.longest with ⟨htruncated', hmax'⟩ | ⟨-, hnone'⟩
      · exact Nat.le_antisymm (hmax' _ h.starts htruncated) (hmax _ hother.starts htruncated')
      · exact absurd htruncated (hnone' _ h.starts)
    · rcases hother.longest with ⟨htruncated', -⟩ | ⟨hone', -⟩
      · exact absurd htruncated' (hnone _ hother.starts)
      · rw [hone, hone']
  exact (List.prefix_of_prefix_length_le h.starts hother.starts hlength.le).eq_of_length hlength

/-- The first segment is determined by the octets. -/
theorem Segment.Begins.unique {s t : Segment} (hs : s.Begins octets) (ht : t.Begins octets) :
    s = t := by
  cases s with
  | scalar c =>
    cases t with
    | scalar d =>
      rcases List.prefix_or_prefix_of_prefix hs ht with h | h
      · rw [eq_of_utf8EncodeChar_starts h]
      · rw [eq_of_utf8EncodeChar_starts h]
    | subpart part => exact absurd hs (ht.illFormed c)
  | subpart part =>
    cases t with
    | scalar d => exact absurd ht (hs.illFormed d)
    | subpart other => rw [IsMaximalSubpart.unique hs ht]

/-- Segments do not cover nothing. -/
theorem Segmented.ne_nil {s : Segment} {segments : List Segment}
    (h : Segmented (s :: segments) octets) : octets ≠ [] := by
  obtain ⟨hbegins, rest, rfl, -⟩ := h
  exact List.append_ne_nil_of_left_ne_nil hbegins.octets_ne_nil rest

/-- There is only one way to cut octets into segments. -/
theorem Segmented.unique {segments others : List Segment} (h : Segmented segments octets)
    (hothers : Segmented others octets) : others = segments := by
  induction segments generalizing others octets with
  | nil =>
    cases others with
    | nil => rfl
    | cons t others => exact absurd h hothers.ne_nil
  | cons s segments ih =>
    cases others with
    | nil => exact absurd hothers h.ne_nil
    | cons t others =>
      obtain ⟨hbegins, rest, hrest, hsegments⟩ := h
      obtain ⟨hbegins', rest', hrest', hothers⟩ := hothers
      -- The first segments agree, and so do the octets that are left.
      obtain rfl := hbegins.unique hbegins'
      obtain rfl := List.append_cancel_left (hrest.symm.trans hrest')
      rw [ih hsegments hothers]

/-- The octets of the characters among the segments are octets of the whole. -/
theorem Segmented.mem_of_mem_scalar {segments : List Segment} {c : Char}
    (h : Segmented segments octets) (hc : .scalar c ∈ segments) :
    ∀ b ∈ String.utf8EncodeChar c, b ∈ octets := by
  intro b hb
  induction segments generalizing octets with
  | nil => cases hc
  | cons s segments ih =>
    obtain ⟨-, rest, rfl, hsegments⟩ := h
    rcases List.mem_cons.1 hc with rfl | hc
    · exact List.mem_append_left rest hb
    · exact List.mem_append_right _ (ih hsegments hc)

/-- Decoding brings in no character zero. -/
theorem zero_not_mem_decode (h : 0 ∉ octets) : '\x00' ∉ decode octets := by
  obtain ⟨segments, hsegments, hdecode⟩ := exists_segmented octets
  rw [hdecode]
  intro hmem
  obtain ⟨s, hs, hchar⟩ := List.mem_map.1 hmem
  cases s with
  | scalar c =>
    obtain rfl : c = '\x00' := hchar
    exact h (hsegments.mem_of_mem_scalar hs 0 (by decide))
  | subpart part =>
    have hreplacement : replacement ≠ '\x00' := by decide
    exact hreplacement hchar

end Utf8

/-! ### Main statement -/

open Utf8 (Segment Segmented encode)

/-- The octets before the first zero octet fall into segments in exactly one way, and the text that
  is stored and rendered for them has the characters of the segments in order. Encoding this text
  and decoding it again changes nothing. -/
theorem RawText.decoded_eq_segments (buffer : List UInt8) :
    ∃ segments, (∀ others, Segmented others (buffer.takeWhile (· ≠ 0)) ↔ others = segments) ∧
      let text := String.ofList (segments.map Segment.char)
      (RecordedValue.rawText (ofBytes buffer)).store = .scalar .text text ∧
        (RecordedValue.rawText (ofBytes buffer)).text = text ∧
        (ofBytes (encode text.toList)).decoded = text := by
  obtain ⟨segments, hsegments, hdecode⟩ := Utf8.exists_segmented (ofBytes buffer).bytes
  have hdecoded : (ofBytes buffer).decoded = String.ofList (segments.map Segment.char) :=
    congrArg String.ofList hdecode
  refine ⟨segments, fun others => ⟨hsegments.unique, ?_⟩, ?_, ?_, ?_⟩
  · -- The one segmentation.
    rintro rfl
    exact hsegments
  · -- The stored text and the rendered one.
    exact congrArg (StoredValue.scalar .text) hdecoded
  · exact hdecoded
  · -- Decoding once more.
    apply decoded_ofBytes_encode
    rw [String.toList_ofList, ← hdecode]
    exact Utf8.zero_not_mem_decode (ofBytes buffer).zero_not_mem

/-- A sequence that breaks off is one subpart, while a surrogate and an octet beyond the last plane
  leave every octet by itself. -/
example :
    Utf8.decode [0xf0, 0x9f, 0x98] = [Utf8.replacement] ∧
      Utf8.decode [0xed, 0xa0, 0x80] = List.replicate 3 Utf8.replacement ∧
      Utf8.decode [0xf5, 0x80, 0x80, 0x80] = List.replicate 4 Utf8.replacement := by
  decide

end Telemetry
