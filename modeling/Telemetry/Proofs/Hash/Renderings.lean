import Telemetry.Proofs.Hash.Numbers
/-!
# Renderings that are hashed piece by piece

A scalar is hashed while it is rendered: its text goes into the hash in pieces, and the whole of it
is never formed. The hash is still that of the bytes of the whole text, wherever the text is cut.
What the whole text is can be said without the notations it is put together from. It is the decimal
numeral of an integer or the text of a double with six significant digits, and a scalar has no
other one.
-/

namespace Telemetry

/-! ### General texts -/

namespace Binary64

open Decimal (IsPlain IsScientific signed)

variable {x : Binary64} {text : List Char}

/-- The text of a double with six significant digits. A number other than zero rounds to one
  coefficient of six digits with one exponent, and the exponent decides about the form. Digits of
  the coefficient that are zeros at its end are left out of scientific notation. The minus is that
  of the pattern and stands before zeros, infinities and NaNs as well. -/
inductive IsGeneralText (x : Binary64) : List Char → Prop where
  | nan (h : x.IsNaN) : IsGeneralText x (signed x.negative ['n', 'a', 'n'])
  | infinite (h : x.IsInfinite) : IsGeneralText x (signed x.negative ['i', 'n', 'f'])
  | zero (h : x.IsZero) : IsGeneralText x (signed x.negative ['0'])
  | positional {m : SixDigits} {body : List Char} (hfinite : x.IsFinite) (hzero : ¬ x.IsZero)
      (hrounds : m.Rounds x.magnitude) (hm : m.Middle) (hbody : IsPlain body m.value) :
      IsGeneralText x (signed x.negative body)
  | scientific {m : SixDigits} {n zeros : ℕ} {text : List Char} (hfinite : x.IsFinite)
      (hzero : ¬ x.IsZero) (hrounds : m.Rounds x.magnitude) (hm : ¬ m.Middle)
      (hcoefficient : m.coefficient = n * 10 ^ zeros) (hlast : n % 10 ≠ 0)
      (htext : IsScientific 2 text x.negative n m.exponent) : IsGeneralText x text

/-- The words for infinities and NaNs stand behind the sign. -/
theorem nonFiniteText_eq_signed (x : Binary64) :
    x.nonFiniteText = signed x.negative (if x.IsNaN then ['n', 'a', 'n'] else ['i', 'n', 'f']) :=
  Decimal.sign_append _ _

/-- Infinities and NaNs are written as words. -/
theorem isGeneralText_of_not_isFinite (hx : ¬ x.IsFinite) : x.IsGeneralText x.generalText := by
  rw [generalText_of_not_isFinite hx, nonFiniteText_eq_signed]
  split
  · next hnan => exact .nan hnan
  · next hnan => exact .infinite ⟨hx, hnan⟩

/-- The text that is handed over in chunks is a text with six significant digits. -/
theorem isGeneralText_generalText (x : Binary64) : x.IsGeneralText x.generalText := by
  by_cases hfinite : x.IsFinite
  · by_cases hzero : x.IsZero
    · rw [generalText_of_isZero hzero]
      exact .zero hzero
    · have hrounds := rounds_sixDigits hzero
      by_cases hm : x.sixDigits.Middle
      · obtain ⟨body, htext, hbody⟩ := exists_isPlain_generalText hfinite hm
        rw [htext]
        exact .positional hfinite hzero hrounds hm hbody
      · obtain ⟨n, zeros, hcoefficient, hlast, htext⟩ := exists_isScientific_generalText hfinite hm
        exact .scientific hfinite hzero hrounds hm hcoefficient hlast htext
  · exact isGeneralText_of_not_isFinite hfinite

/-- There is no other text with six significant digits. -/
theorem IsGeneralText.eq_generalText (h : x.IsGeneralText text) : text = x.generalText := by
  cases h with
  | nan hnan =>
    have hfinite : ¬ x.IsFinite := fun h => not_isNaN_of_isFinite h hnan
    rw [generalText_of_not_isFinite hfinite, nonFiniteText_eq_signed, if_pos hnan]
  | infinite hinfinite =>
    rw [generalText_of_not_isFinite hinfinite.1, nonFiniteText_eq_signed, if_neg hinfinite.2]
  | zero hzero => exact (generalText_of_isZero hzero).symm
  | positional hfinite hzero hrounds hm hbody =>
    obtain rfl := hrounds.unique (rounds_sixDigits hzero)
    obtain ⟨body, htext, hplain⟩ := exists_isPlain_generalText hfinite hm
    rw [htext, hbody.text_unique hplain]
  | scientific hfinite hzero hrounds hm hcoefficient hlast htext =>
    obtain rfl := hrounds.unique (rounds_sixDigits hzero)
    have hform := exists_isScientific_generalText hfinite hm
    rw [hcoefficient] at hform
    exact htext.text_unique (by decide) (Decimal.isScientific_of_mul_pow _ hlast hform)

/-- A double has one text with six significant digits. -/
theorem isGeneralText_iff : x.IsGeneralText text ↔ text = x.generalText := by
  constructor
  · exact IsGeneralText.eq_generalText
  · rintro rfl
    exact isGeneralText_generalText x

end Binary64

/-! ### Scalars -/

namespace Scalar

/-- The whole text that is hashed for a scalar: the numeral of an integer or of a truth value, which
  counts as one or zero, the text of a double with six significant digits, or a text itself. -/
inductive Renders : (s : Scalar) → s.Carrier → List Char → Prop where
  | integer {s : Scalar} {x : s.Carrier} {n : ℤ} {text : List Char} (hx : s.integer? x = some n)
      (h : Decimal.IsNumeral text n) : Renders s x text
  | double {x : Binary64} {text : List Char} (h : x.IsGeneralText text) : Renders .double x text
  | text (t : String) : Renders .text t t.toList

variable {s : Scalar} {x : s.Carrier} {text : List Char}

/-- An integer is rendered as its numeral. -/
theorem renders_integer_iff {n : ℤ} (hx : s.integer? x = some n) :
    s.Renders x text ↔ Decimal.IsNumeral text n := by
  constructor
  · intro h
    cases h with
    | integer hx' h =>
      rw [hx, Option.some.injEq] at hx'
      exact hx' ▸ h
    | double | text => cases hx
  · exact Renders.integer hx

/-- A double is rendered as its text with six significant digits. -/
theorem renders_double_iff {x : Binary64} : Renders .double x text ↔ x.IsGeneralText text := by
  constructor
  · intro h
    cases h with
    | integer hx => cases hx
    | double h => exact h
  · exact Renders.double

/-- A text is rendered as itself. -/
theorem renders_text_iff {t : String} : Renders .text t text ↔ text = t.toList := by
  constructor
  · intro h
    cases h with
    | integer hx => cases hx
    | text => rfl
  · rintro rfl
    exact Renders.text t

/-- The chunks in which a scalar is handed over make up its text, and it has no other one. -/
theorem renders_iff : s.Renders x text ↔ text = (s.hashChunks x).flatten := by
  cases s with
  | double => exact renders_double_iff.trans Binary64.isGeneralText_iff
  | text => rw [renders_text_iff, hashChunks, List.flatten_singleton]
  | bool | int32 | uint32 | int64 | uint64 =>
    rw [renders_integer_iff rfl, Decimal.isNumeral_iff, flatten_hashChunks_of_integer? rfl]

end Scalar

/-! ### Main statement -/

namespace Fnv1a

/-- Pieces of text that go into the hash one after another, from the basis on, end in the hash of
  the bytes of the whole text, wherever it is cut and however many of its pieces are empty. So a
  scalar, which is hashed in the chunks of its rendering, has the hash of the bytes of its text. It
  has one text only, and any other pieces of this text are hashed like the chunks. -/
theorem streamed_eq_whole :
    (∀ chunks : List (List Char), chunks.foldl write basis = hash (Utf8.encode chunks.flatten)) ∧
    ∀ (s : Scalar) (x : s.Carrier), ∃ text : List Char, (∀ t, s.Renders x t ↔ t = text) ∧
      (s.hashChunks x).flatten = text ∧ (Datum.scalar s x).hash = hash (Utf8.encode text) ∧
      ∀ chunks : List (List Char), chunks.flatten = text →
        hashChunks chunks = (Datum.scalar s x).hash := by
  refine ⟨hashChunks_eq_hash, fun s x => ?_⟩
  have hhash : (Datum.scalar s x).hash = hash (Utf8.encode (s.hashChunks x).flatten) :=
    hashChunks_eq_hash (s.hashChunks x)
  refine ⟨(s.hashChunks x).flatten, fun _ => Scalar.renders_iff, rfl, hhash, ?_⟩
  intro chunks hchunks
  rw [hashChunks_eq_hash, hchunks, hhash]

/-- A text beyond ASCII, the least integer of 64 bits cut inside its digits, and the double `1e21`
  cut inside its exponent. -/
theorem streamed_eq_whole_of_pieces :
    hashChunks [['é'], [], ['t', 'é']] = hash [0xc3, 0xa9, 0x74, 0xc3, 0xa9] ∧
    Scalar.Renders .int64 Int64.minValue "-9223372036854775808".toList ∧
    ["-9223".toList, [], "372036854775808".toList].flatten = "-9223372036854775808".toList ∧
    hashChunks ["-9223".toList, [], "372036854775808".toList] =
      (Datum.scalar .int64 Int64.minValue).hash ∧
    Scalar.Renders .double (.ofBits 0x444b1ae4d6e2ef50) ['1', 'e', '+', '2', '1'] ∧
    [['1', 'e'], ['+', '2'], [], ['1']].flatten = ['1', 'e', '+', '2', '1'] ∧
    hashChunks [['1', 'e'], ['+', '2'], [], ['1']] =
      (Datum.scalar .double (.ofBits 0x444b1ae4d6e2ef50)).hash := by
  obtain ⟨hpieces, hscalars⟩ := streamed_eq_whole
  obtain ⟨least, hleast, hleastChunks, -, hleastHash⟩ := hscalars .int64 Int64.minValue
  obtain ⟨large, hlarge, hlargeChunks, -, hlargeHash⟩ :=
    hscalars .double (.ofBits 0x444b1ae4d6e2ef50)
  have hleastText : "-9223372036854775808".toList = least :=
    Eq.trans (by decide +kernel) hleastChunks
  have hleastCut : ["-9223".toList, [], "372036854775808".toList].flatten =
      "-9223372036854775808".toList := by decide +kernel
  have hlargeText : ['1', 'e', '+', '2', '1'] = large := Eq.trans (by decide +kernel) hlargeChunks
  have hlargeCut : [['1', 'e'], ['+', '2'], [], ['1']].flatten = ['1', 'e', '+', '2', '1'] := rfl
  exact ⟨hpieces [['é'], [], ['t', 'é']], (hleast _).2 hleastText, hleastCut,
    hleastHash _ (hleastCut.trans hleastText), (hlarge _).2 hlargeText, hlargeCut,
    hlargeHash _ (hlargeCut.trans hlargeText)⟩

end Fnv1a

end Telemetry
