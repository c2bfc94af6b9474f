import Telemetry.Proofs.Hash.Chunks
/-!
# A changed byte changes the hash

A step of the hash loses nothing. Exclusive or can be undone, and so can the product with the prime,
which is odd and thus has an inverse modulo `2 ^ 64`. So two states that differ are kept apart by
whatever follows, and two byte strings that differ in one byte have different hashes.
-/

namespace Telemetry.Fnv1a

variable {a b : UInt8} {s t : UInt64} {xs ys : List UInt8}

/-! ### Single steps -/

/-- The inverse of the prime modulo `2 ^ 64`. -/
def primeInverse : UInt64 := 14886173955864302971

/-- The prime is odd, so it has an inverse. -/
theorem prime_mul_primeInverse : prime * primeInverse = 1 := by decide

/-- Multiplication by the prime can be undone. -/
theorem mul_prime_inj : s * prime = t * prime ↔ s = t := by
  have hundo (u : UInt64) : u * prime * primeInverse = u := by
    rw [UInt64.mul_assoc, prime_mul_primeInverse, UInt64.mul_one]
  constructor
  · intro h
    rw [← hundo s, h, hundo]
  · exact congrArg (· * prime)

/-- A step keeps different states apart. -/
theorem step_inj (b : UInt8) : step s b = step t b ↔ s = t := by
  rw [step, step, mul_prime_inj, UInt64.xor_left_inj]

/-- From one state, a step keeps different bytes apart. -/
theorem step_byte_inj (s : UInt64) : step s a = step s b ↔ a = b := by
  rw [step, step, mul_prime_inj, UInt64.xor_right_inj, UInt8.toUInt64_inj]

/-! ### Many steps -/

/-- A difference between two states outlasts any bytes that follow. -/
theorem foldl_step_inj (bytes : List UInt8) :
    bytes.foldl step s = bytes.foldl step t ↔ s = t := by
  induction bytes generalizing s t with
  | nil => exact Iff.rfl
  | cons b rest ih => rw [List.foldl_cons, List.foldl_cons, ih, step_inj]

/-- Byte strings that agree around one byte are hashed alike only if they agree in it. -/
theorem hash_around_inj (before after : List UInt8) :
    hash (before ++ [a] ++ after) = hash (before ++ [b] ++ after) ↔ a = b := by
  simp only [hash, List.foldl_append, List.foldl_cons, List.foldl_nil]
  rw [foldl_step_inj, step_byte_inj]

/-! ### Positions -/

/-- Two byte strings of one length that differ in one position and in no other. -/
def DifferOnce (xs ys : List UInt8) : Prop :=
  xs.length = ys.length ∧ ∃ i : Nat, ∀ j : Nat, xs[j]? ≠ ys[j]? ↔ j = i

/-- Byte strings that differ once are the same around that position. -/
theorem DifferOnce.exists_eq_around (h : DifferOnce xs ys) :
    ∃ before a b after, a ≠ b ∧ xs = before ++ [a] ++ after ∧ ys = before ++ [b] ++ after := by
  obtain ⟨hlength, i, hi⟩ := h
  have hne : xs[i]? ≠ ys[i]? := (hi i).2 rfl
  have heq {j : Nat} (hj : j ≠ i) : xs[j]? = ys[j]? := Decidable.not_not.1 fun h => hj ((hi j).1 h)
  -- Behind their ends both byte strings would agree.
  have hlt : i < xs.length := by
    apply Nat.lt_of_not_le
    intro hle
    rw [List.getElem?_eq_none hle, List.getElem?_eq_none (hlength ▸ hle)] at hne
    exact hne rfl
  have hlt' : i < ys.length := hlength ▸ hlt
  -- Position by position, they agree before the difference and behind it.
  have hbefore : xs.take i = ys.take i := by
    apply List.ext_getElem?
    intro j
    by_cases hj : j < i
    · rw [List.getElem?_take_of_lt hj, List.getElem?_take_of_lt hj, heq (Nat.ne_of_lt hj)]
    · rw [List.getElem?_eq_none (by simp; omega), List.getElem?_eq_none (by simp; omega)]
  have hafter : xs.drop (i + 1) = ys.drop (i + 1) := by
    apply List.ext_getElem?
    intro j
    rw [List.getElem?_drop, List.getElem?_drop, heq (by omega)]
  refine ⟨xs.take i, xs[i], ys[i], xs.drop (i + 1), ?_, ?_, ?_⟩
  · intro h
    rw [List.getElem?_eq_getElem hlt, List.getElem?_eq_getElem hlt', h] at hne
    exact hne rfl
  · rw [List.append_assoc, List.singleton_append, ← List.drop_eq_getElem_cons hlt,
      List.take_append_drop]
  · rw [hbefore, hafter, List.append_assoc, List.singleton_append,
      ← List.drop_eq_getElem_cons hlt', List.take_append_drop]

/-! ### Main statement -/

/-- Byte strings of one length that differ in one byte have different hashes, whatever stands before
  and after it, and so do data with such byte strings. -/
theorem hash_ne_of_changed_byte :
    (∀ (before after : List UInt8) (a b : UInt8),
      hash (before ++ [a] ++ after) = hash (before ++ [b] ++ after) ↔ a = b) ∧
    (∀ xs ys : List UInt8, DifferOnce xs ys → hash xs ≠ hash ys) ∧
    ∀ d e : Datum, DifferOnce d.hashedBytes e.hashedBytes → d.hash ≠ e.hash := by
  have honce (xs ys : List UInt8) (h : DifferOnce xs ys) : hash xs ≠ hash ys := by
    obtain ⟨before, a, b, after, hne, rfl, rfl⟩ := h.exists_eq_around
    exact fun heq => hne ((hash_around_inj before after).1 heq)
  refine ⟨fun before after a b => hash_around_inj before after, honce, ?_⟩
  intro d e h
  rw [d.hash_eq_hash_hashedBytes, e.hash_eq_hash_hashedBytes]
  exact honce _ _ h

/-- The numbers 107 and 117 are hashed as texts that differ in their second digit. -/
theorem hash_ne_of_second_digit :
    DifferOnce [0x31, 0x30, 0x37] [0x31, 0x31, 0x37] ∧
      hash [0x31, 0x30, 0x37] ≠ hash [0x31, 0x31, 0x37] ∧
      (Datum.scalar .int32 107).hash ≠ (Datum.scalar .uint64 117).hash := by
  have h : DifferOnce [0x31, 0x30, 0x37] [0x31, 0x31, 0x37] := by
    refine ⟨rfl, 1, fun j => ?_⟩
    match j with
    | 0 | 1 | 2 => decide
    | j + 3 => simp
  exact ⟨h, hash_ne_of_changed_byte.2.1 _ _ h, hash_ne_of_changed_byte.2.2 (.scalar .int32 107)
    (.scalar .uint64 117) h⟩

end Telemetry.Fnv1a
