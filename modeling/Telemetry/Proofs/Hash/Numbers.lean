import Telemetry.Proofs.Hash.Doubles
/-!
# Numbers that are hashed alike

Numbers are hashed as texts. The text of an integer is its decimal numeral, and that of a truth
value is the numeral of one or zero. So numbers of different kinds are hashed alike if their texts
coincide.
-/

namespace Telemetry

namespace Scalar

/-- The integer for which a scalar stands. A truth value counts as one or zero. -/
def integer? : (s : Scalar) → s.Carrier → Option ℤ
  | bool, b => some (if b = true then 1 else 0)
  | int32, n => some n.toInt
  | uint32, n => some n.toNat
  | int64, n => some n.toInt
  | uint64, n => some n.toNat
  | double, _ => none
  | text, _ => none

/-- The chunks of an integer make up its decimal text. -/
theorem flatten_hashChunks_of_integer? {s : Scalar} {x : s.Carrier} {n : ℤ}
    (h : s.integer? x = some n) : (s.hashChunks x).flatten = Decimal.integer n := by
  cases s with
  | bool =>
    rw [← Option.some.inj h]
    cases x <;> rfl
  | int32 | int64 =>
    rw [← Option.some.inj h]
    simp [hashChunks, integerChunks, Decimal.integer]
  | uint32 | uint64 =>
    rw [← Option.some.inj h, Decimal.integer_natCast]
    exact List.flatten_singleton
  | double => cases h
  | text => cases h

end Scalar

namespace Datum

/-- Numbers that are hashed alike: integers that are equal, doubles that round alike, and an integer
  with a double that rounds to it. -/
inductive Collides : Datum → Datum → Prop where
  | integers {s t : Scalar} {x : s.Carrier} {y : t.Carrier} {n : ℤ} (hx : s.integer? x = some n)
      (hy : t.integer? y = some n) : Collides (scalar s x) (scalar t y)
  | doubles {a b : Binary64} (h : a.RoundsAlike b) :
      Collides (scalar .double a) (scalar .double b)
  | integer_double {s : Scalar} {x : s.Carrier} {n : ℤ} {b : Binary64}
      (hx : s.integer? x = some n) (h : b.RoundsToInteger n) :
      Collides (scalar s x) (scalar .double b)
  | double_integer {t : Scalar} {y : t.Carrier} {n : ℤ} {a : Binary64}
      (h : a.RoundsToInteger n) (hy : t.integer? y = some n) :
      Collides (scalar .double a) (scalar t y)

variable {s t : Scalar} {x : s.Carrier} {y : t.Carrier} {m n : ℤ} {a b : Binary64}

/-- A scalar that is not a text is an integer or a double. -/
theorem exists_integer?_or_double (hs : s ≠ .text) (x : s.Carrier) :
    (∃ n, s.integer? x = some n) ∨ ∃ a, scalar s x = scalar .double a := by
  cases s with
  | text => exact absurd rfl hs
  | double => exact Or.inr ⟨x, rfl⟩
  | _ => exact Or.inl ⟨_, rfl⟩

/-! ### What collides, by the kinds of the two numbers -/

/-- Integers are hashed alike only if they are equal. -/
theorem collides_integers (hx : s.integer? x = some m) (hy : t.integer? y = some n) :
    Collides (scalar s x) (scalar t y) ↔ m = n := by
  constructor
  · intro h
    cases h with
    | integers hx' hy' => exact Option.some.inj (hx.symm.trans (hx'.trans (hy'.symm.trans hy)))
    | doubles | double_integer => cases hx
    | integer_double => cases hy
  · rintro rfl
    exact Collides.integers hx hy

/-- Doubles are hashed alike if they round alike. -/
theorem collides_doubles :
    Collides (scalar .double a) (scalar .double b) ↔ a.RoundsAlike b := by
  constructor
  · intro h
    cases h with
    | doubles h => exact h
    | integers hx | integer_double hx => cases hx
    | double_integer _ hy => cases hy
  · exact Collides.doubles

/-- An integer is hashed like a double that rounds to it. -/
theorem collides_integer_double (hx : s.integer? x = some n) :
    Collides (scalar s x) (scalar .double b) ↔ b.RoundsToInteger n := by
  constructor
  · intro h
    cases h with
    | integer_double hx' h =>
      rw [hx, Option.some.injEq] at hx'
      exact hx' ▸ h
    | doubles => cases hx
    | integers _ hy | double_integer _ hy => cases hy
  · exact Collides.integer_double hx

/-- Being hashed alike goes both ways. -/
theorem collides_comm {d e : Datum} : Collides d e ↔ Collides e d := by
  have hsymm {d e : Datum} (h : Collides d e) : Collides e d := by
    cases h with
    | integers hx hy => exact Collides.integers hy hx
    | doubles h => exact Collides.doubles h.symm
    | integer_double hx h => exact Collides.double_integer h hx
    | double_integer h hy => exact Collides.integer_double hy h
  exact ⟨hsymm, hsymm⟩

/-! ### What is hashed -/

/-- The bytes of an integer are those of its decimal text. -/
theorem hashedBytes_of_integer? (hx : s.integer? x = some n) :
    (scalar s x).hashedBytes = Utf8.encode (Decimal.integer n) :=
  congrArg Utf8.encode (Scalar.flatten_hashChunks_of_integer? hx)

theorem hashedBytes_double (a : Binary64) :
    (scalar .double a).hashedBytes = Utf8.encode a.generalText :=
  rfl

/-- An integer and a double have the same bytes exactly if they are hashed alike. -/
theorem hashedBytes_integer_double (hx : s.integer? x = some n) :
    (scalar s x).hashedBytes = (scalar .double b).hashedBytes ↔
      Collides (scalar s x) (scalar .double b) := by
  rw [hashedBytes_of_integer? hx, hashedBytes_double, Utf8.encode_inj, eq_comm,
    Binary64.generalText_eq_integer_iff, collides_integer_double hx]

/-- Numbers have one byte string exactly if they are equal integers, doubles that round alike, or an
  integer and a double that rounds to it. Then they have one hash. -/
theorem hashedBytes_eq_iff_collides (hs : s ≠ .text) (ht : t ≠ .text) (x : s.Carrier)
    (y : t.Carrier) :
    ((scalar s x).hashedBytes = (scalar t y).hashedBytes ↔
      Collides (scalar s x) (scalar t y)) ∧
    (Collides (scalar s x) (scalar t y) → (scalar s x).hash = (scalar t y).hash) := by
  have hbytes : (scalar s x).hashedBytes = (scalar t y).hashedBytes ↔
      Collides (scalar s x) (scalar t y) := by
    rcases exists_integer?_or_double hs x with ⟨m, hm⟩ | ⟨a, ha⟩
    · rcases exists_integer?_or_double ht y with ⟨n, hn⟩ | ⟨b, hb⟩
      · rw [hashedBytes_of_integer? hm, hashedBytes_of_integer? hn, Utf8.encode_inj,
          Decimal.integer_inj, collides_integers hm hn]
      · rw [hb]
        exact hashedBytes_integer_double hm
    · rcases exists_integer?_or_double ht y with ⟨n, hn⟩ | ⟨b, hb⟩
      · rw [ha, eq_comm, collides_comm]
        exact hashedBytes_integer_double hn
      · rw [ha, hb, hashedBytes_double, hashedBytes_double, Utf8.encode_inj,
          Binary64.generalText_eq_iff, collides_doubles]
  refine ⟨hbytes, fun h => ?_⟩
  rw [hash_eq_hash_hashedBytes, hash_eq_hash_hashedBytes, hbytes.2 h]

/-- The double 0.9999999 rounds to one. A million is written with an exponent only as a double. -/
theorem collides_one_not_million :
    Collides (scalar .bool true) (scalar .double (.ofBits 0x3fefffffca501acb)) ∧
    (scalar .bool true).hash = (scalar .double (.ofBits 0x3fefffffca501acb)).hash ∧
    ¬ Collides (scalar .int32 1000000) (scalar .double (.ofBits 0x412e848000000000)) := by
  have hone := hashedBytes_eq_iff_collides (s := .bool) (t := .double) (by decide) (by decide) true
    (.ofBits 0x3fefffffca501acb)
  have hmillion := hashedBytes_eq_iff_collides (s := .int32) (t := .double) (by decide) (by decide)
    1000000 (.ofBits 0x412e848000000000)
  have hcollides := hone.1.1 (by decide +kernel)
  exact ⟨hcollides, hone.2 hcollides, fun h => absurd (hmillion.1.2 h) (by decide +kernel)⟩

end Datum

end Telemetry
