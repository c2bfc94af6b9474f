import Telemetry.Proofs.Hash.Doubles
import Telemetry.Proofs.Value.RoundTrip
/-!
# Equal values

Values are equal when they are of one kind and hold equal data, where doubles count as numbers: a
NaN equals nothing, and the two zeros are equal. Nothing but the sign of a zero is lost in this way,
but that sign is hashed.
-/

namespace Telemetry

/-! ### Doubles -/

namespace Binary64

variable {x y : Binary64}

/-- The number that a finite pattern stands for. -/
def value (x : Binary64) : ℚ := if x.negative = true then -x.magnitude else x.magnitude

/-- Equality of numbers: finite ones with one value, or infinite ones with one sign. -/
def EqualNumbers (x y : Binary64) : Prop :=
  x.IsFinite ∧ y.IsFinite ∧ x.value = y.value ∨
    x.IsInfinite ∧ y.IsInfinite ∧ x.negative = y.negative

/-- A zero and the zero with the other sign. -/
def OppositeZeros (x y : Binary64) : Prop := x.IsZero ∧ y.IsZero ∧ x.negative ≠ y.negative

/-- Doubles of one sign that are equal as numbers are the same. -/
theorem value_eq_iff_of_sign_eq (hsign : x.negative = y.negative) :
    x.value = y.value ↔ x = y := by
  have hindex : x.index = y.index ↔ x = y := ⟨eq_of_index_eq hsign, congrArg index⟩
  rw [← hindex, ← magnitude_eq_iff, value, value, hsign]
  split
  · exact neg_inj
  · exact Iff.rfl

/-- Doubles of different signs are equal as numbers only if both are zero. -/
theorem value_eq_iff_of_sign_ne (hsign : x.negative ≠ y.negative) :
    x.value = y.value ↔ x.IsZero ∧ y.IsZero := by
  have hx := x.magnitude_nonneg
  have hy := y.magnitude_nonneg
  rw [← magnitude_eq_zero_iff, ← magnitude_eq_zero_iff, value, value]
  cases hxn : x.negative <;> cases hyn : y.negative <;> simp only [hxn, hyn, ne_eq, not_true] at hsign
  all_goals
    simp only [if_true, if_false, Bool.false_eq_true]
    constructor
    · intro h
      constructor <;> linarith
    · rintro ⟨hx0, hy0⟩
      rw [hx0, hy0, neg_zero]

/-- Nothing but the sign of a zero is lost when a pattern is taken for a number. -/
theorem value_eq_iff : x.value = y.value ↔ x = y ∨ x.OppositeZeros y := by
  by_cases hsign : x.negative = y.negative
  · rw [value_eq_iff_of_sign_eq hsign]
    exact (or_iff_left fun h => h.2.2 hsign).symm
  · rw [value_eq_iff_of_sign_ne hsign]
    constructor
    · exact fun h => Or.inr ⟨h.1, h.2, hsign⟩
    · rintro (rfl | h)
      · exact absurd rfl hsign
      · exact ⟨h.1, h.2.1⟩

/-- An infinity is determined by its sign. -/
theorem IsInfinite.eq_of_sign_eq (hx : x.IsInfinite) (hy : y.IsInfinite)
    (hsign : x.negative = y.negative) : x = y := by
  have hindex {z : Binary64} (hz : z.IsInfinite) : z.index = infinityIndex := by
    have hexponent := hz.1
    have hfraction := hz.2
    rw [index, infinityIndex]
    omega
  exact eq_of_index_eq hsign ((hindex hx).trans (hindex hy).symm)

/-- Equal numbers are the same double or the two zeros. -/
theorem EqualNumbers.eq_or_oppositeZeros (h : x.EqualNumbers y) : x = y ∨ x.OppositeZeros y := by
  rcases h with ⟨-, -, hvalue⟩ | ⟨hx, hy, hsign⟩
  · exact value_eq_iff.1 hvalue
  · exact Or.inl (hx.eq_of_sign_eq hy hsign)

/-- The two zeros are equal numbers. -/
theorem OppositeZeros.equalNumbers (h : x.OppositeZeros y) : x.EqualNumbers y :=
  Or.inl ⟨isFinite_of_isZero h.1, isFinite_of_isZero h.2.1, value_eq_iff.2 (Or.inr h)⟩

/-- Every pattern but a NaN is equal to itself as a number. -/
theorem equalNumbers_self_iff : x.EqualNumbers x ↔ ¬ x.IsNaN := by
  constructor
  · rintro (⟨hfinite, -⟩ | ⟨hinfinite, -⟩)
    · exact not_isNaN_of_isFinite hfinite
    · exact hinfinite.2
  · intro hnan
    by_cases hfinite : x.IsFinite
    · exact Or.inl ⟨hfinite, hfinite, rfl⟩
    · exact Or.inr ⟨⟨hfinite, hnan⟩, ⟨hfinite, hnan⟩, rfl⟩

theorem EqualNumbers.symm (h : x.EqualNumbers y) : y.EqualNumbers x := by
  rcases h with ⟨hx, hy, hvalue⟩ | ⟨hx, hy, hsign⟩
  · exact Or.inl ⟨hy, hx, hvalue.symm⟩
  · exact Or.inr ⟨hy, hx, hsign.symm⟩

theorem EqualNumbers.trans {z : Binary64} (hxy : x.EqualNumbers y) (hyz : y.EqualNumbers z) :
    x.EqualNumbers z := by
  rcases hxy with ⟨hx, hy, hvalue⟩ | ⟨hx, hy, hsign⟩
  · rcases hyz with ⟨-, hz, hvalue'⟩ | ⟨hy', -⟩
    · exact Or.inl ⟨hx, hz, hvalue.trans hvalue'⟩
    · exact absurd hy hy'.1
  · rcases hyz with ⟨hy', -⟩ | ⟨-, hz, hsign'⟩
    · exact absurd hy' hy.1
    · exact Or.inr ⟨hx, hz, hsign.trans hsign'⟩

/-- The comparison of doubles decides equality of numbers. -/
theorem same_iff : same x y = true ↔ x.EqualNumbers y := by
  rw [same, decide_eq_true_eq]
  constructor
  · rintro ⟨hx, -, rfl | ⟨hzerox, hzeroy⟩⟩
    · exact equalNumbers_self_iff.2 hx
    · by_cases hsign : x.negative = y.negative
      · rw [eq_of_index_eq hsign (hzerox.trans hzeroy.symm)] at hx ⊢
        exact equalNumbers_self_iff.2 hx
      · exact OppositeZeros.equalNumbers ⟨hzerox, hzeroy, hsign⟩
  · intro h
    rcases h.eq_or_oppositeZeros with rfl | hzeros
    · have hnan := equalNumbers_self_iff.1 h
      exact ⟨hnan, hnan, Or.inl rfl⟩
    · exact ⟨not_isNaN_of_isFinite (isFinite_of_isZero hzeros.1),
        not_isNaN_of_isFinite (isFinite_of_isZero hzeros.2.1), Or.inr ⟨hzeros.1, hzeros.2.1⟩⟩

/-- The two zeros have different texts. -/
theorem OppositeZeros.generalText_ne (h : x.OppositeZeros y) : x.generalText ≠ y.generalText :=
  fun htext => h.2.2 (generalText_eq_iff.1 htext).1

end Binary64

/-! ### Data -/

namespace Datum

/-- Equality of data: one kind and equal contents, doubles being compared as numbers. -/
inductive Equal : Datum → Datum → Prop where
  | double {x y : Binary64} (h : x.EqualNumbers y) : Equal (scalar .double x) (scalar .double y)
  | scalar {s : Scalar} (hs : s ≠ .double) (x : s.Carrier) : Equal (scalar s x) (scalar s x)
  | byte (b : UInt8) : Equal (byte b) (byte b)

/-- Two zeros with different signs. -/
def OppositeZeros (d e : Datum) : Prop :=
  ∃ x y : Binary64, d = Datum.scalar .double x ∧ e = Datum.scalar .double y ∧ x.OppositeZeros y

/-- The comparison of scalars decides equality. -/
theorem same_scalar_iff {s : Scalar} {x y : s.Carrier} :
    s.same x y = true ↔ Equal (scalar s x) (scalar s y) := by
  cases s with
  | double =>
    constructor
    · exact fun h => Equal.double (Binary64.same_iff.1 h)
    · intro h
      cases h with
      | double h => exact Binary64.same_iff.2 h
      | scalar hs => exact absurd rfl hs
  | bool | int32 | uint32 | int64 | uint64 | text =>
    constructor
    · intro h
      rw [of_decide_eq_true h]
      exact Equal.scalar (by decide) y
    · intro h
      cases h
      exact decide_eq_true rfl

/-- The comparison of data decides their equality. -/
theorem same_iff {d e : Datum} : d.same e = true ↔ Equal d e := by
  cases d with
  | byte a =>
    cases e with
    | byte b =>
      constructor
      · intro h
        rw [of_decide_eq_true h]
        exact Equal.byte b
      · intro h
        cases h
        exact decide_eq_true rfl
    | scalar t y => exact iff_of_false Bool.false_ne_true fun h => by cases h
  | scalar s x =>
    cases e with
    | byte b => exact iff_of_false Bool.false_ne_true fun h => by cases h
    | scalar t y =>
      by_cases hkind : s = t
      · subst hkind
        rw [same, dif_pos rfl]
        exact same_scalar_iff
      · rw [same, dif_neg hkind]
        refine iff_of_false Bool.false_ne_true fun h => ?_
        cases h with
        | double | scalar => exact hkind rfl

/-- The comparison of lists of data decides equality of each datum. -/
theorem sameAll_iff {data others : List Datum} :
    sameAll data others = true ↔ List.Forall₂ Equal data others := by
  induction data generalizing others with
  | nil => cases others <;> simp [sameAll]
  | cons d data ih => cases others <;> simp [sameAll, same_iff, ih]

/-- A datum equals itself unless it is a NaN. -/
theorem equal_self_iff {d : Datum} :
    Equal d d ↔ ∀ x : Binary64, d = scalar .double x → ¬ x.IsNaN := by
  constructor
  · rintro h x rfl
    cases h with
    | double h => exact Binary64.equalNumbers_self_iff.1 h
    | scalar hs => exact absurd rfl hs
  · intro h
    cases d with
    | byte b => exact Equal.byte b
    | scalar s x =>
      by_cases hs : s = .double
      · subst hs
        exact Equal.double (Binary64.equalNumbers_self_iff.2 (h x rfl))
      · exact Equal.scalar hs x

theorem Equal.symm {d e : Datum} (h : Equal d e) : Equal e d := by
  cases h with
  | double h => exact Equal.double h.symm
  | scalar hs x => exact Equal.scalar hs x
  | byte b => exact Equal.byte b

theorem Equal.trans {d e f : Datum} (hde : Equal d e) (hef : Equal e f) : Equal d f := by
  cases hde with
  | double h =>
    cases hef with
    | double h' => exact Equal.double (h.trans h')
    | scalar hs => exact absurd rfl hs
  | scalar | byte => exact hef

/-- Equal data are the same or two zeros. -/
theorem Equal.eq_or_oppositeZeros {d e : Datum} (h : Equal d e) : d = e ∨ OppositeZeros d e := by
  cases h with
  | double h =>
    rcases h.eq_or_oppositeZeros with rfl | hzeros
    · exact Or.inl rfl
    · exact Or.inr ⟨_, _, rfl, rfl, hzeros⟩
  | scalar | byte => exact Or.inl rfl

/-- Two zeros have different bytes. -/
theorem OppositeZeros.hashedBytes_ne {d e : Datum} (h : OppositeZeros d e) :
    d.hashedBytes ≠ e.hashedBytes := by
  obtain ⟨x, y, rfl, rfl, hzeros⟩ := h
  intro hbytes
  exact hzeros.generalText_ne (Utf8.encode_injective hbytes)

/-- Equal data are hashed alike unless they are two zeros with different signs. -/
theorem Equal.hashedBytes_ne_iff {d e : Datum} (h : Equal d e) :
    d.hashedBytes ≠ e.hashedBytes ↔ OppositeZeros d e := by
  refine ⟨fun hne => ?_, OppositeZeros.hashedBytes_ne⟩
  rcases h.eq_or_oppositeZeros with rfl | hzeros
  · exact absurd rfl hne
  · exact hzeros

end Datum

/-! ### Values -/

namespace StoredValue

/-- Equality of values: one kind, and equal data in the same number and order. -/
def Equal (v w : StoredValue) : Prop :=
  v.kind = w.kind ∧ List.Forall₂ Datum.Equal v.data w.data

/-- The comparison of values decides equality. -/
theorem same_iff {v w : StoredValue} : v.same w = true ↔ v.Equal w := by
  rw [same, Bool.and_eq_true, decide_eq_true_eq, Datum.sameAll_iff, Equal]

/-- The doubles of a value are those among its data. -/
theorem mem_doubles_iff {v : StoredValue} {x : Binary64} :
    x ∈ v.doubles ↔ .scalar .double x ∈ v.data := by
  have hscalar (s : Scalar) (y : s.Carrier) :
      x ∈ s.doubles y ↔ Datum.scalar .double x = .scalar s y := by
    cases s <;> simp [Scalar.doubles]
  cases v with
  | scalar s y => exact (hscalar s y).trans List.mem_singleton.symm
  | sequence s ys => simp [doubles, data, hscalar, eq_comm]
  | bytes bs => simp [doubles, data]

/-- A value equals itself unless it holds a NaN. -/
theorem equal_self_iff {v : StoredValue} : v.Equal v ↔ ∀ x ∈ v.doubles, ¬ x.IsNaN := by
  rw [Equal, List.forall₂_same, and_iff_right rfl]
  simp only [Datum.equal_self_iff, mem_doubles_iff]
  exact ⟨fun h x hx => h _ hx x rfl, fun h d hd x hx => h x (hx ▸ hd)⟩

theorem Equal.symm {v w : StoredValue} (h : v.Equal w) : w.Equal v :=
  ⟨h.1.symm, (h.2.imp fun _ _ => Datum.Equal.symm).flip⟩

theorem Equal.trans {u v w : StoredValue} (huv : u.Equal v) (hvw : v.Equal w) : u.Equal w := by
  refine ⟨huv.1.trans hvw.1, List.forall₂_iff_get.2 ⟨huv.2.length_eq.trans hvw.2.length_eq, ?_⟩⟩
  intro i hi hk
  have hj : i < v.data.length := huv.2.length_eq ▸ hi
  exact ((List.forall₂_iff_get.1 huv.2).2 i hi hj).trans ((List.forall₂_iff_get.1 hvw.2).2 i hj hk)

/-- Equal values have equal data at each position. -/
theorem Equal.getElem? {v w : StoredValue} (h : v.Equal w) {i : Nat} {d e : Datum}
    (hd : v.data[i]? = some d) (he : w.data[i]? = some e) : d.Equal e := by
  obtain ⟨hi, rfl⟩ := List.getElem?_eq_some_iff.1 hd
  obtain ⟨hj, rfl⟩ := List.getElem?_eq_some_iff.1 he
  exact (List.forall₂_iff_get.1 h.2).2 i hi hj

/-- A value is determined by its kind and its data. -/
theorem eq_of_kind_eq_of_data_eq {v w : StoredValue} (hkind : v.kind = w.kind)
    (hdata : v.data = w.data) : v = w := by
  cases v with
  | scalar s x =>
    cases w with
    | scalar t y =>
      cases hkind
      cases hdata
      rfl
    | sequence | bytes => cases hkind
  | sequence s xs =>
    cases w with
    | sequence t ys =>
      cases hkind
      have hinj : Function.Injective (Datum.scalar s) := fun x y h => by cases h; rfl
      exact congrArg (sequence s) (List.map_injective_iff.2 hinj hdata)
    | scalar | bytes => cases hkind
  | bytes bs =>
    cases w with
    | bytes cs =>
      have hinj : Function.Injective Datum.byte := fun a b h => by cases h; rfl
      exact congrArg bytes (List.map_injective_iff.2 hinj hdata)
    | scalar | sequence => cases hkind

/-- Equal values are the same but for the signs of zeros. -/
theorem Equal.eq_of_not_oppositeZeros {v w : StoredValue} (h : v.Equal w)
    (hzeros : ∀ (i : Nat) (d e : Datum), v.data[i]? = some d → w.data[i]? = some e →
      ¬ Datum.OppositeZeros d e) : v = w := by
  refine eq_of_kind_eq_of_data_eq h.1 (List.ext_getElem h.2.length_eq fun i hi hj => ?_)
  have hd := List.getElem?_eq_getElem hi
  have he := List.getElem?_eq_getElem hj
  exact (h.getElem? hd he).eq_or_oppositeZeros.resolve_right (hzeros i _ _ hd he)

end StoredValue

end Telemetry
