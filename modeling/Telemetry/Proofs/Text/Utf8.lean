import Mathlib.Tactic.SplitIfs
import Telemetry.Text.Utf8
/-!
# Decoding around well-formed text

The octets that begin a character never go on with a sequence. So a decoder that meets one of them
is done with everything before it: an unfinished sequence gives its replacement there, as it would
at the end of the octets, and what follows is decoded as if it stood alone.
-/

namespace Telemetry.Utf8

/-! ### Continuations -/

/-- The octets that only go on with a sequence. -/
abbrev IsContinuation (b : UInt8) : Prop := 0x80 ≤ b ∧ b ≤ 0xbf

/-- The first octet, if there is one, does not go on with a sequence. -/
def StartsAnew (octets : List UInt8) : Prop := ∀ b ∈ octets.head?, ¬ IsContinuation b

/-- An octet that continues nothing starts anew. -/
theorem startsAnew_cons {b : UInt8} {rest : List UInt8} :
    StartsAnew (b :: rest) ↔ ¬ IsContinuation b := by
  simp [StartsAnew]

/-- Between characters, or inside a sequence in which only continuations are awaited. -/
def State.Proper : State → Prop
  | .ground => True
  | .inside _ least greatest _ => 0x80 ≤ least ∧ greatest ≤ 0xbf

/-- A choice between proper states is proper. -/
theorem proper_ite {c : Prop} [Decidable c] {x y : List Char × State} (hx : x.2.Proper)
    (hy : y.2.Proper) : (if c then x else y).2.Proper := by
  split
  · exact hx
  · exact hy

/-- The first octet leads to a proper state. -/
theorem proper_start (b : UInt8) : (start b).2.Proper := by
  unfold start
  repeat' apply proper_ite
  all_goals trivial

/-- Every octet leads from proper states to proper ones. -/
theorem State.Proper.step {state : State} (h : state.Proper) (b : UInt8) :
    (state.step b).2.Proper := by
  cases state with
  | ground => exact proper_start b
  | inside owed least greatest bits =>
    simp only [State.step]
    split
    · cases owed with
      | zero => trivial
      | succ owed => exact ⟨by decide, by decide⟩
    · exact proper_start b

/-! ### Decoding apart -/

/-- Octets that start anew end whatever was left unfinished. -/
theorem State.Proper.decodeFrom_eq {state : State} (h : state.Proper) {rest : List UInt8}
    (hrest : StartsAnew rest) : decodeFrom state rest = state.finish ++ decode rest := by
  cases state with
  | ground => rfl
  | inside owed least greatest bits =>
    cases rest with
    | nil => rfl
    | cons b rest =>
      -- Only continuations are awaited, and the next octet is none.
      have hb : ¬ (least ≤ b ∧ b ≤ greatest) := by
        intro hb
        exact startsAnew_cons.1 hrest ⟨UInt8.le_trans h.1 hb.1, UInt8.le_trans hb.2 h.2⟩
      simp only [decodeFrom, State.step, if_neg hb]
      rfl

/-- Octets are decoded by themselves if those behind them start anew. -/
theorem State.Proper.decodeFrom_append {state : State} (h : state.Proper) (octets : List UInt8)
    {rest : List UInt8} (hrest : StartsAnew rest) :
    decodeFrom state (octets ++ rest) = decodeFrom state octets ++ decode rest := by
  induction octets generalizing state with
  | nil => exact h.decodeFrom_eq hrest
  | cons b octets ih =>
    simp only [List.cons_append, decodeFrom, ih (h.step b), List.append_assoc]

/-- What starts anew is decoded as if nothing stood before it. -/
theorem decode_append_of_startsAnew (octets : List UInt8) {rest : List UInt8}
    (hrest : StartsAnew rest) : decode (octets ++ rest) = decode octets ++ decode rest := by
  have hground : State.ground.Proper := trivial
  exact hground.decodeFrom_append octets hrest

/-! ### Reading one character -/

/-- The octets of ASCII are characters. -/
theorem start_ascii : ∀ n < 0x80, start (UInt8.ofNat n) = ([Char.ofNat n], .ground) := by
  decide

/-- The first octet of two. -/
theorem start_two :
    ∀ n < 32, 2 ≤ n → start (UInt8.ofNat (n + 192)) = ([], .inside 0 0x80 0xbf n) := by
  decide

/-- The first octet of three, with the range of the second one. -/
theorem start_three :
    ∀ n < 16, start (UInt8.ofNat (n + 224)) =
      ([], .inside 1 (if n = 0 then 0xa0 else 0x80) (if n = 13 then 0x9f else 0xbf) n) := by
  decide

/-- The first octet of four, with the range of the second one. -/
theorem start_four :
    ∀ n < 5, start (UInt8.ofNat (n + 240)) =
      ([], .inside 2 (if n = 0 then 0x90 else 0x80) (if n = 4 then 0x8f else 0xbf) n) := by
  decide

/-- A first octet that yields no character leads on to its state. -/
theorem decode_cons_of_start {b : UInt8} {state : State} (h : start b = ([], state))
    (rest : List UInt8) : decode (b :: rest) = decodeFrom state rest := by
  rw [decode, decodeFrom, State.step, h, List.nil_append]

/-- Reads the octet that carries the last six bits of `n`, if it lies in the awaited range. -/
theorem step_inside {least greatest : UInt8} {n : Nat}
    (h : least.toNat ≤ n % 64 + 128 ∧ n % 64 + 128 ≤ greatest.toNat) (owed bits : Nat) :
    (State.inside owed least greatest bits).step (UInt8.ofNat (n % 64 + 128)) =
      match owed with
      | 0 => ([Char.ofNat (bits * 64 + n % 64)], .ground)
      | owed + 1 => ([], .inside owed 0x80 0xbf (bits * 64 + n % 64)) := by
  have hoctet : (UInt8.ofNat (n % 64 + 128)).toNat = n % 64 + 128 :=
    UInt8.toNat_ofNat_of_lt (show n % 64 + 128 < 256 by omega)
  have hrange : least ≤ UInt8.ofNat (n % 64 + 128) ∧ UInt8.ofNat (n % 64 + 128) ≤ greatest := by
    rw [UInt8.le_iff_toNat_le, UInt8.le_iff_toNat_le, hoctet]
    exact h
  have hbits : (UInt8.ofNat (n % 64 + 128)).toNat - 0x80 = n % 64 := by
    rw [hoctet, Nat.add_sub_cancel]
  cases owed with
  | zero | succ => simp only [State.step, if_pos hrange, hbits]

/-- The last octet of a sequence yields the character. -/
theorem decodeFrom_last {least greatest : UInt8} {n : Nat}
    (h : least.toNat ≤ n % 64 + 128 ∧ n % 64 + 128 ≤ greatest.toNat) (bits : Nat)
    (rest : List UInt8) :
    decodeFrom (.inside 0 least greatest bits) (UInt8.ofNat (n % 64 + 128) :: rest) =
      Char.ofNat (bits * 64 + n % 64) :: decode rest := by
  rw [decodeFrom, step_inside h]
  rfl

/-- An octet of a sequence that is not the last one is collected. -/
theorem decodeFrom_next {least greatest : UInt8} {n : Nat}
    (h : least.toNat ≤ n % 64 + 128 ∧ n % 64 + 128 ≤ greatest.toNat) (owed bits : Nat)
    (rest : List UInt8) :
    decodeFrom (.inside (owed + 1) least greatest bits) (UInt8.ofNat (n % 64 + 128) :: rest) =
      decodeFrom (.inside owed 0x80 0xbf (bits * 64 + n % 64)) rest := by
  rw [decodeFrom, step_inside h]
  rfl

/-- The lowest six bits make up a continuation octet. -/
theorem continuation_range (n : Nat) :
    (0x80 : UInt8).toNat ≤ n % 64 + 128 ∧ n % 64 + 128 ≤ (0xbf : UInt8).toNat := by
  simp
  omega

/-- A character is read back from its octets, whatever follows them. -/
theorem decode_utf8EncodeChar_append (c : Char) (rest : List UInt8) :
    decode (String.utf8EncodeChar c ++ rest) = c :: decode rest := by
  have hvalid : c.val.toNat < 0xd800 ∨ 0xdfff < c.val.toNat ∧ c.val.toNat < 0x110000 := c.valid
  have hchar : Char.ofNat c.val.toNat = c := Char.ofNat_toNat c
  rw [String.utf8EncodeChar]
  generalize c.val.toNat = v at hvalid hchar
  -- The cases are the four lengths of a sequence.
  split_ifs with hone htwo hthree <;> simp only [List.cons_append, List.nil_append]
  · rw [decode, decodeFrom, State.step, start_ascii v (by omega), hchar]
    rfl
  · have hbits : v / 64 % 32 * 64 + v % 64 = v := by omega
    rw [decode_cons_of_start (start_two _ (by omega) (by omega)),
      decodeFrom_last (continuation_range v), hbits, hchar]
  · have hbits : (v / 4096 % 16 * 64 + v / 64 % 64) * 64 + v % 64 = v := by omega
    -- The second octet excludes overlong forms and surrogates.
    rw [decode_cons_of_start (start_three _ (by omega)),
      decodeFrom_next (by split_ifs <;> simp <;> omega),
      decodeFrom_last (continuation_range v), hbits, hchar]
  · have hbits : ((v / 262144 % 8 * 64 + v / 4096 % 64) * 64 + v / 64 % 64) * 64 + v % 64 = v := by
      omega
    -- The second octet excludes overlong forms and what lies beyond the last plane.
    rw [decode_cons_of_start (start_four _ (by omega)),
      decodeFrom_next (by split_ifs <;> simp <;> omega),
      decodeFrom_next (continuation_range _), decodeFrom_last (continuation_range v), hbits, hchar]

/-! ### Encoded text -/

/-- Octets of ASCII and those that start a sequence continue nothing. -/
theorem not_isContinuation_ofNat {n : Nat} (h : n < 0x80 ∨ 0xc0 ≤ n ∧ n < 256) :
    ¬ IsContinuation (UInt8.ofNat n) := by
  have hn : (UInt8.ofNat n).toNat = n := UInt8.toNat_ofNat_of_lt (show n < 256 by omega)
  rw [IsContinuation, UInt8.le_iff_toNat_le, UInt8.le_iff_toNat_le, hn]
  simp
  omega

/-- Sequences start anew. -/
theorem startsAnew_utf8EncodeChar_append (c : Char) (rest : List UInt8) :
    StartsAnew (String.utf8EncodeChar c ++ rest) := by
  rw [String.utf8EncodeChar]
  split_ifs <;> exact startsAnew_cons.2 (not_isContinuation_ofNat (by omega))

/-- Texts start anew. -/
theorem startsAnew_encode_append {text : List Char} (h : text ≠ []) (rest : List UInt8) :
    StartsAnew (encode text ++ rest) := by
  obtain ⟨c, text, rfl⟩ := List.exists_cons_of_ne_nil h
  rw [encode, List.flatMap_cons, List.append_assoc]
  exact startsAnew_utf8EncodeChar_append c _

/-- No number between zero and the range of octets is the zero octet. -/
theorem zero_ne_ofNat {n : Nat} (hpos : 0 < n) (hlt : n < 256) : 0 ≠ UInt8.ofNat n := by
  intro h
  have hn : (UInt8.ofNat n).toNat = n := UInt8.toNat_ofNat_of_lt hlt
  rw [← h] at hn
  exact absurd hn (Nat.ne_of_lt hpos)

/-- Only the character zero has a zero among its octets. -/
theorem zero_not_mem_utf8EncodeChar {c : Char} (h : c ≠ '\x00') :
    0 ∉ String.utf8EncodeChar c := by
  have hpos : 0 < c.val.toNat := by
    apply Nat.pos_of_ne_zero
    intro hzero
    exact h (Char.ext (UInt32.toNat_inj.1 hzero))
  rw [String.utf8EncodeChar]
  split_ifs <;> simp only [List.mem_cons, List.not_mem_nil, or_false, not_or] <;> and_intros
  all_goals exact zero_ne_ofNat (by omega) (by omega)

/-- A text without the zero character has no zero octet. -/
theorem zero_not_mem_encode {text : List Char} (h : '\x00' ∉ text) : 0 ∉ encode text := by
  intro hzero
  obtain ⟨c, hc, hmem⟩ := List.mem_flatMap.1 hzero
  exact zero_not_mem_utf8EncodeChar (fun heq => h (heq ▸ hc)) hmem

/-- Encoded text is read back, whatever follows it. -/
theorem decode_encode_append (text : List Char) (rest : List UInt8) :
    decode (encode text ++ rest) = text ++ decode rest := by
  induction text with
  | nil => rfl
  | cons c text ih =>
    rw [encode, List.flatMap_cons, List.append_assoc, decode_utf8EncodeChar_append, ← encode, ih]
    rfl

/-- Damage before and after encoded text leaves the text alone, and the text leaves alone what is
  made of the damage. -/
theorem decode_append_encode_append (before after : List UInt8) {text : List Char}
    (h : text ≠ []) :
    decode (before ++ (encode text ++ after)) = decode before ++ (text ++ decode after) := by
  rw [decode_append_of_startsAnew before (startsAnew_encode_append h after),
    decode_encode_append]

end Telemetry.Utf8
