import Telemetry.Proofs.Decimal.Plain
import Telemetry.Proofs.Value.Equality
import Telemetry.Value.Recorded
/-!
# The text of a double

A finite double is written with six decimal places. The text denotes the exact value, rounded to
millionths with ties to even, behind the sign of the pattern, which stands before a zero as well.
-/

namespace Telemetry

/-! ### Fixed notation -/

namespace Decimal

variable {text : List Char} {negative : Bool} {places : ℕ} {v : ℚ}

/-- A text in fixed notation: a minus if it is asked for, the digits of `v` before the point, a
  point, and as many digits as there are places. -/
def IsFixed (text : List Char) (negative : Bool) (places : ℕ) (v : ℚ) : Prop :=
  ∃ whole fraction, HasDigits whole fraction v ∧ fraction.length = places ∧
    text = signed negative (whole ++ '.' :: fraction)

/-- Positional notation with places is fixed notation of its number. -/
theorem isFixed_positional (negative : Bool) (places n : ℕ) :
    IsFixed (sign negative ++ positional (places + 1) n) negative (places + 1)
      (n / 10 ^ (places + 1)) :=
  ⟨_, _, hasDigits_lowDigits (places + 1) n, length_lowDigits _ _, sign_append _ _⟩

/-- A digit stands at the front unless the minus does. -/
theorem IsFixed.head?_eq_minus_iff (h : IsFixed text negative places v) :
    text.head? = some '-' ↔ negative = true := by
  obtain ⟨whole, fraction, ⟨n, hwhole, -, -⟩, -, rfl⟩ := h
  exact head?_signed_eq_minus_iff (hwhole.head?_append_ne_minus Nat.one_pos _)

end Decimal

/-! ### Doubles -/

namespace Binary64

open Decimal (IsFixed RoundsTo)

variable {x : Binary64}

/-- The magnitude of a double is the absolute value of its number. -/
theorem abs_value (x : Binary64) : |x.value| = x.magnitude := by
  rw [value]
  split
  · rw [abs_neg, abs_of_nonneg x.magnitude_nonneg]
  · exact abs_of_nonneg x.magnitude_nonneg

/-- The millionths are those to which the exact value rounds. -/
theorem roundsTo_millionths (x : Binary64) : RoundsTo (|x.value| * 10 ^ 6) x.millionths := by
  rw [abs_value]
  exact_mod_cast Decimal.roundsTo_roundScaled x.numerator x.denominator_pos 6

/-- The text of a finite double is in fixed notation with six places. -/
theorem isFixed_fixedText (hx : x.IsFinite) :
    IsFixed x.fixedText x.negative 6 (x.millionths / 10 ^ 6) := by
  rw [fixedText, if_pos hx]
  exact Decimal.isFixed_positional x.negative 5 x.millionths

/-! ### Main statement -/

/-- The text of a finite double has a minus exactly if the pattern has one, and denotes the number
  of millionths that is nearest to the exact value, of two equally near ones the even one. The text
  is the same whether the double is recorded or stored, and each double of a sequence has it too. -/
theorem text_double_rounds :
    (∀ x : Binary64, x.IsFinite → ∃ (text : List Char) (n : ℕ),
      (RecordedValue.scalar .double x).text = String.ofList text ∧
      (StoredValue.scalar .double x).text = String.ofList text ∧
      (text.head? = some '-' ↔ x.negative = true) ∧
      RoundsTo (|x.value| * 10 ^ 6) n ∧ IsFixed text x.negative 6 (n / 10 ^ 6)) ∧
    ∀ xs : List Binary64,
      (RecordedValue.sequence .double xs).text = String.ofList
        (xs.flatMap fun x => (RecordedValue.scalar .double x).text.toList ++ [' ']) ∧
      (StoredValue.sequence .double xs).text = (RecordedValue.sequence .double xs).text := by
  refine ⟨?_, ?_⟩
  · intro x hx
    have hfixed := isFixed_fixedText hx
    exact ⟨x.fixedText, x.millionths, rfl, rfl, hfixed.head?_eq_minus_iff, x.roundsTo_millionths,
      hfixed⟩
  · intro xs
    refine ⟨?_, rfl⟩
    simp only [RecordedValue.text, String.toList_ofList, RecordedValue.spelling, Datum.spaced,
      List.flatMap_map, Datum.spelling]

/-- The negative of a 128th lies halfway between 7812 and 7813 millionths, and the negative number
  nearest to zero keeps its minus. -/
theorem text_double_rounds_at_tie :
    (ofBits 0xbf80000000000000).IsFinite ∧
    RoundsTo (|(ofBits 0xbf80000000000000).value| * 10 ^ 6) 7812 ∧
    IsFixed ['-', '0', '.', '0', '0', '7', '8', '1', '2'] true 6 (7812 / 10 ^ 6) ∧
    (ofBits 0x8000000000000001).IsFinite ∧
    IsFixed ['-', '0', '.', '0', '0', '0', '0', '0', '0'] true 6 0 := by
  have htie : (ofBits 0xbf80000000000000).IsFinite := by decide
  have hsmall : (ofBits 0x8000000000000001).IsFinite := by decide
  obtain ⟨text, n, htext, -, -, hround, hfixed⟩ := text_double_rounds.1 _ htie
  obtain ⟨text', n', htext', -, -, hround', hfixed'⟩ := text_double_rounds.1 _ hsmall
  have hn : n = 7812 := (hround.unique (roundsTo_millionths _)).trans (by decide +kernel)
  have hn' : n' = 0 := (hround'.unique (roundsTo_millionths _)).trans (by decide +kernel)
  have hchars : ['-', '0', '.', '0', '0', '7', '8', '1', '2'] = text :=
    String.ofList_injective (Eq.trans (by decide +kernel) htext)
  have hchars' : ['-', '0', '.', '0', '0', '0', '0', '0', '0'] = text' :=
    String.ofList_injective (Eq.trans (by decide +kernel) htext')
  rw [hn, ← hchars] at hfixed
  rw [hn', ← hchars', Nat.cast_zero, zero_div] at hfixed'
  rw [hn] at hround
  exact ⟨htie, hround, by exact_mod_cast hfixed, hsmall, hfixed'⟩

end Binary64

end Telemetry
