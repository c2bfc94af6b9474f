import Mathlib.Data.List.Forall2
import Telemetry.Proofs.Decimal.General
import Telemetry.Value.Recorded
/-!
# Texts as grouping keys

Every element of a sequence is followed by a space, the last one too. If no element contains a
space, then the text of the sequence tells where each of them ends. The texts of truth values and
of integers contain none, whatever their width, so such values have one text only if they list the
same items and are both sequences or both not.
-/

namespace Telemetry

/-! ### Items -/

/-- The text of an integer consists of digits and a minus. -/
theorem Decimal.not_mem_integer {c : Char} (hc : c.isDigit = false) (hpoint : c ≠ '.')
    (hminus : c ≠ '-') (n : ℤ) : c ∉ integer n := by
  have h := not_mem_sign_positional hc hpoint hminus (decide (n < 0)) 0 n.natAbs
  rwa [positional_zero] at h

/-- What a truth value or an integer says, whatever its width. -/
inductive Item where
  | truth (b : Bool)
  | integer (n : Int)
deriving DecidableEq, Repr

namespace Item

/-- The text of an item. -/
def spelling : Item → List Char
  | truth b => Scalar.spelling .bool b
  | integer n => Decimal.integer n

/-- No item contains a space. -/
theorem space_not_mem_spelling (i : Item) : ' ' ∉ i.spelling := by
  cases i with
  | truth b => cases b <;> decide
  | integer n => exact Decimal.not_mem_integer rfl (by decide) (by decide) n

theorem spelling_ne_nil (i : Item) : i.spelling ≠ [] := by
  cases i with
  | truth b => cases b <;> decide
  | integer n => exact List.append_ne_nil_of_right_ne_nil _ Nat.toDigits_ne_nil

/-- Items are told apart by their texts. -/
theorem spelling_injective : Function.Injective spelling := by
  -- The words for truth values have a letter, which no numeral has.
  have hword (b : Bool) (n : ℤ) : (truth b).spelling ≠ (integer n).spelling := by
    intro h
    have hletter : 'e' ∈ (truth b).spelling := by cases b <;> decide
    rw [h] at hletter
    exact Decimal.not_mem_integer rfl (by decide) (by decide) n hletter
  intro i j h
  cases i with
  | truth a =>
    cases j with
    | truth b =>
      have hinj : ∀ a b, Scalar.spelling .bool a = Scalar.spelling .bool b → a = b := by decide
      exact congrArg truth (hinj a b h)
    | integer n => exact absurd h (hword a n)
  | integer m =>
    cases j with
    | truth b => exact absurd h.symm (hword b m)
    | integer n => exact congrArg integer (Decimal.integer_inj.1 h)

end Item

/-! ### Spaced texts -/

/-- The text of a sequence has a space behind each element. -/
theorem Datum.spaced_eq_flatMap (data : List Datum) :
    spaced data = (data.map spelling).flatMap fun t => t ++ [' '] := by
  rw [List.flatMap_map]
  rfl

/-- Words that are followed by a space each are found again by splitting at the spaces. -/
theorem splitOn_flatMap_space {texts : List (List Char)} (h : ∀ t ∈ texts, ' ' ∉ t) :
    (texts.flatMap fun t => t ++ [' ']).splitOn ' ' = texts ++ [[]] := by
  induction texts with
  | nil => rfl
  | cons t texts ih =>
    rw [List.flatMap_cons, List.append_assoc, List.singleton_append,
      List.splitOn_append_cons_self_of_not_mem (h t List.mem_cons_self),
      ih fun u hu => h u (List.mem_cons_of_mem _ hu)]
    rfl

/-- Lists of words without spaces are equal if their texts with a space behind each word are. -/
theorem flatMap_space_inj {texts others : List (List Char)} (h : ∀ t ∈ texts, ' ' ∉ t)
    (hothers : ∀ t ∈ others, ' ' ∉ t) :
    ((texts.flatMap fun t => t ++ [' ']) = others.flatMap fun t => t ++ [' ']) ↔
      texts = others := by
  refine ⟨fun heq => ?_, fun heq => by rw [heq]⟩
  -- Splitting at the spaces undoes the text.
  have hsplit := splitOn_flatMap_space h
  rw [heq, splitOn_flatMap_space hothers] at hsplit
  exact (List.append_cancel_right hsplit).symm

/-- A word that stands alone is not the text of any sequence. -/
theorem ne_flatMap_space {word : List Char} (hne : word ≠ []) (hspace : ' ' ∉ word)
    (texts : List (List Char)) : word ≠ texts.flatMap fun t => t ++ [' '] := by
  intro h
  cases texts with
  | nil => exact hne h
  | cons t texts =>
    apply hspace
    rw [h]
    simp

/-! ### Values that list items -/

/-- What a scalar says, if it is a truth value or an integer. -/
def Scalar.item? : (s : Scalar) → s.Carrier → Option Item
  | bool, b => some (.truth b)
  | int32, n => some (.integer n.toInt)
  | uint32, n => some (.integer n.toNat)
  | int64, n => some (.integer n.toInt)
  | uint64, n => some (.integer n.toNat)
  | double, _ => none
  | text, _ => none

/-- What a datum says. That of a byte is its number. -/
def Datum.item? : Datum → Option Item
  | scalar s x => s.item? x
  | byte b => some (.integer b.toNat)

/-- The kinds of truth values, of integers and of bytes, alone or in sequence. -/
def Kind.IsDiscrete : Kind → Prop
  | scalar s => s ≠ .double ∧ s ≠ .text
  | sequence s => s ≠ .double ∧ s ≠ .text
  | bytes => True

/-- A datum is spelled like its item. -/
theorem Datum.spelling_eq_of_item? {d : Datum} {i : Item} (h : d.item? = some i) :
    d.spelling = i.spelling := by
  cases d with
  | byte b =>
    rw [← Option.some.inj h]
    exact (Decimal.integer_natCast b.toNat).symm
  | scalar s x =>
    cases s with
    | bool | int32 | int64 =>
      rw [← Option.some.inj h]
      rfl
    | uint32 | uint64 =>
      rw [← Option.some.inj h]
      exact (Decimal.integer_natCast _).symm
    | double => cases h
    | text => cases h

/-- Scalars of discrete kinds are items. -/
theorem Scalar.exists_item? {s : Scalar} (h : s ≠ .double ∧ s ≠ .text) (x : s.Carrier) :
    ∃ i, s.item? x = some i := by
  cases s with
  | double => exact absurd rfl h.1
  | text => exact absurd rfl h.2
  | bool | int32 | uint32 | int64 | uint64 => exact ⟨_, rfl⟩

/-- All data of a value of a discrete kind are items. -/
theorem StoredValue.exists_item? {v : StoredValue} (h : v.kind.IsDiscrete) :
    ∀ d ∈ v.data, ∃ i, d.item? = some i := by
  cases v with
  | scalar s x => simpa [data, Datum.item?] using Scalar.exists_item? h x
  | sequence s xs => simpa [data, Datum.item?] using fun x _ => Scalar.exists_item? h x
  | bytes bs => simp [data, Datum.item?]

namespace RecordedValue

/-- The value consists of the items, one for each of its data in order. -/
def Lists (v : RecordedValue) (items : List Item) : Prop :=
  List.Forall₂ (fun d i => d.item? = some i) v.store.data items

/-- Every value of a discrete kind lists items. -/
theorem exists_lists {v : RecordedValue} (h : v.store.kind.IsDiscrete) :
    ∃ items, v.Lists items := by
  have hdata (data : List Datum) (hitem : ∀ d ∈ data, ∃ i, d.item? = some i) :
      ∃ items, List.Forall₂ (fun d i => d.item? = some i) data items := by
    induction data with
    | nil => exact ⟨[], .nil⟩
    | cons d data ih =>
      obtain ⟨i, hi⟩ := hitem d List.mem_cons_self
      obtain ⟨items, hitems⟩ := ih fun e he => hitem e (List.mem_cons_of_mem _ he)
      exact ⟨i :: items, .cons hi hitems⟩
  exact hdata _ (StoredValue.exists_item? h)

variable {v w : RecordedValue} {items others : List Item}

/-- The data of a value are spelled like its items. -/
theorem Lists.map_spelling (h : v.Lists items) :
    v.store.data.map Datum.spelling = items.map Item.spelling := by
  unfold Lists at h
  generalize v.store.data = data at h
  induction h with
  | nil => rfl
  | cons hd _ ih => rw [List.map_cons, List.map_cons, ih, Datum.spelling_eq_of_item? hd]

/-- The text of a sequence has every item followed by a space. -/
theorem Lists.spelling_of_isSequence (h : v.Lists items) (hv : v.store.isSequence = true) :
    v.spelling = (items.map Item.spelling).flatMap fun t => t ++ [' '] := by
  rw [← h.map_spelling, ← Datum.spaced_eq_flatMap]
  cases v with
  | scalar | rawText => cases hv
  | sequence | bytes => rfl

/-- The text of a single value is that of its item. -/
theorem Lists.spelling_of_not_isSequence (h : v.Lists items) (hv : ¬ v.store.isSequence = true) :
    ∃ i, items = [i] ∧ v.spelling = i.spelling := by
  cases v with
  | sequence | bytes => exact absurd rfl hv
  | scalar s x =>
    cases h with
    | cons hi hrest =>
      cases hrest
      exact ⟨_, rfl, Datum.spelling_eq_of_item? hi⟩
  | rawText r =>
    cases h with
    | cons hi => cases hi

/-- The texts of items contain no space. -/
theorem space_not_mem_map_spelling (items : List Item) :
    ∀ t ∈ items.map Item.spelling, ' ' ∉ t := by
  intro t ht
  obtain ⟨i, -, rfl⟩ := List.mem_map.1 ht
  exact i.space_not_mem_spelling

/-- Values with one text list the same items and are both sequences or both not. -/
theorem Lists.spelling_eq_iff (h : v.Lists items) (hw : w.Lists others) :
    v.spelling = w.spelling ↔ v.store.isSequence = w.store.isSequence ∧ items = others := by
  -- A sequence ends with a space or is empty, and an item is neither.
  by_cases hv : v.store.isSequence = true
  · by_cases hws : w.store.isSequence = true
    · rw [h.spelling_of_isSequence hv, hw.spelling_of_isSequence hws,
        flatMap_space_inj (space_not_mem_map_spelling items) (space_not_mem_map_spelling others),
        (List.map_injective_iff.2 Item.spelling_injective).eq_iff, hv, hws]
      exact (and_iff_right rfl).symm
    · obtain ⟨j, -, hj⟩ := hw.spelling_of_not_isSequence hws
      rw [h.spelling_of_isSequence hv, hj]
      refine iff_of_false (Ne.symm ?_) fun hsame => hws (hsame.1 ▸ hv)
      exact ne_flatMap_space j.spelling_ne_nil j.space_not_mem_spelling _
  · obtain ⟨i, rfl, hi⟩ := h.spelling_of_not_isSequence hv
    by_cases hws : w.store.isSequence = true
    · rw [hw.spelling_of_isSequence hws, hi]
      refine iff_of_false ?_ fun hsame => hv (hsame.1.symm ▸ hws)
      exact ne_flatMap_space i.spelling_ne_nil i.space_not_mem_spelling _
    · obtain ⟨j, rfl, hj⟩ := hw.spelling_of_not_isSequence hws
      rw [hi, hj, Item.spelling_injective.eq_iff, List.cons.injEq, Bool.eq_false_iff.2 hv,
        Bool.eq_false_iff.2 hws]
      exact (and_iff_right rfl).trans (and_iff_left rfl) |>.symm

/-- Texts are equal if their characters are. -/
theorem text_inj : v.text = w.text ↔ v.spelling = w.spelling :=
  ⟨fun h => String.ofList_injective h, congrArg String.ofList⟩

/-- A value lists items in one way only. -/
theorem Lists.unique (h : v.Lists items) (hothers : v.Lists others) : items = others := by
  unfold Lists at h hothers
  have hright : Relator.RightUnique fun (d : Datum) i => d.item? = some i := by
    intro d i j hi hj
    exact Option.some.inj (hi.symm.trans hj)
  exact hright.forall₂ h hothers

/-- The texts of truth values, integers, bytes and sequences of them are equal exactly if the values
  list the same items and are both sequences or both not. Sequences of texts without spaces have
  equal texts exactly if they are equal. -/
theorem text_eq_iff_items :
    (∀ v w : RecordedValue, v.store.kind.IsDiscrete → w.store.kind.IsDiscrete →
      (v.text = w.text ↔ v.store.isSequence = w.store.isSequence ∧
        ∃ items, v.Lists items ∧ w.Lists items)) ∧
    ∀ xs ys : List String, (∀ x ∈ xs, ' ' ∉ x.toList) → (∀ y ∈ ys, ' ' ∉ y.toList) →
      ((sequence .text xs).text = (sequence .text ys).text ↔ xs = ys) := by
  constructor
  · intro v w hv hw
    obtain ⟨items, hitems⟩ := exists_lists hv
    obtain ⟨others, hothers⟩ := exists_lists hw
    -- A value lists items in one way only, so to share some is to list the same.
    rw [text_inj, hitems.spelling_eq_iff hothers]
    apply and_congr_right
    intro _
    constructor
    · rintro rfl
      exact ⟨items, hitems, hothers⟩
    · rintro ⟨shared, hv', hw'⟩
      exact (hitems.unique hv').trans (hw'.unique hothers)
  · intro xs ys hxs hys
    have hspelling (ts : List String) :
        (sequence .text ts).spelling = (ts.map String.toList).flatMap fun t => t ++ [' '] := by
      rw [spelling, Datum.spaced_eq_flatMap, List.map_map]
      rfl
    have hinjective : Function.Injective String.toList := fun _ _ => String.toList_injective
    rw [text_inj, hspelling, hspelling, flatMap_space_inj (by simpa using hxs) (by simpa using hys),
      (List.map_injective_iff.2 hinjective).eq_iff]

/-- Equal numbers of different widths, a number beside the sequence of it, and empty texts in
  different places. -/
theorem text_eq_iff_items_of_widths :
    (Kind.sequence .int64).IsDiscrete ∧ Kind.bytes.IsDiscrete ∧ (Kind.scalar .uint32).IsDiscrete ∧
    (sequence .int64 [7, 255]).text = (bytes [7, 255]).text ∧
    (scalar .uint32 7).text ≠ (bytes [7]).text ∧
    (∀ x ∈ ["", "a"], ' ' ∉ x.toList) ∧ (∀ y ∈ ["a", ""], ' ' ∉ y.toList) ∧
    (sequence .text ["", "a"]).text ≠ (sequence .text ["a", ""]).text := by
  have hwords : (Kind.sequence .int64).IsDiscrete := ⟨by decide, by decide⟩
  have hnumber : (Kind.scalar .uint32).IsDiscrete := ⟨by decide, by decide⟩
  have hx : ∀ x ∈ ["", "a"], ' ' ∉ x.toList := by decide
  have hy : ∀ y ∈ ["a", ""], ' ' ∉ y.toList := by decide
  refine ⟨hwords, trivial, hnumber, ?_, ?_, hx, hy, ?_⟩
  · refine (text_eq_iff_items.1 (sequence .int64 [7, 255]) (bytes [7, 255]) hwords trivial).2 ⟨rfl, ?_⟩
    exact ⟨[.integer 7, .integer 255], .cons rfl (.cons rfl .nil), .cons rfl (.cons rfl .nil)⟩
  · intro h
    have hsame := ((text_eq_iff_items.1 (scalar .uint32 7) (bytes [7]) hnumber trivial).1 h).1
    cases hsame
  · intro h
    exact absurd ((text_eq_iff_items.2 _ _ hx hy).1 h) (by decide)

end RecordedValue

end Telemetry
