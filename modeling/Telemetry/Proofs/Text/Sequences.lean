import Telemetry.Proofs.Text.Utf8
/-!
# Unfinished sequences

A decoder inside a sequence has read octets that begin some character, and knows which octets may
come next: with each of them the octets still begin a character, and with any other one they do not.
-/

namespace Telemetry.Utf8

variable {b : UInt8} {octets rest : List UInt8}

/-! ### Starts of characters -/

/-- A sequence is decoded as its character. -/
theorem decode_utf8EncodeChar (c : Char) : decode (String.utf8EncodeChar c) = [c] := by
  have h := decode_utf8EncodeChar_append c []
  rwa [List.append_nil] at h

/-- No character begins with another one. -/
theorem eq_of_utf8EncodeChar_starts {c d : Char}
    (h : String.utf8EncodeChar c <+: String.utf8EncodeChar d) : c = d := by
  obtain ⟨rest, hrest⟩ := h
  have hdecode := decode_utf8EncodeChar d
  rw [← hrest, decode_utf8EncodeChar_append] at hdecode
  exact (List.cons.inj hdecode).1

theorem utf8EncodeChar_ne_nil (c : Char) : String.utf8EncodeChar c ≠ [] := by
  intro h
  have hdecode := decode_utf8EncodeChar c
  rw [h] at hdecode
  exact List.cons_ne_nil _ _ hdecode.symm

/-! ### Characters of given octets -/

/-- A number that is no surrogate is that of its character. -/
theorem toNat_val_ofNat {n : Nat} (h : n.isValidChar) : (Char.ofNat n).val.toNat = n := by
  rw [Char.ofNat, dif_pos h]
  rfl

/-- An octet is determined by its number. -/
theorem ofNat_eq_of_eq_toNat {n : Nat} (h : n = b.toNat) : UInt8.ofNat n = b := by
  rw [h, UInt8.ofNat_toNat]

/-- Continuation octets are given by their range. -/
theorem isContinuation_iff : IsContinuation b ↔ 0x80 ≤ b.toNat ∧ b.toNat ≤ 0xbf := by
  rw [IsContinuation, UInt8.le_iff_toNat_le, UInt8.le_iff_toNat_le]
  exact Iff.rfl

variable {n : Nat} {b₂ b₃ b₄ : UInt8}

/-- The sequence of one octet. -/
theorem utf8EncodeChar_ofNat_one (hn : n < 0x80) :
    String.utf8EncodeChar (Char.ofNat n) = [UInt8.ofNat n] := by
  rw [String.utf8EncodeChar, toNat_val_ofNat (Or.inl (by omega)), if_pos (by omega)]

/-- The sequence of two octets. -/
theorem utf8EncodeChar_ofNat_two (hn : 2 ≤ n ∧ n < 32) (h₂ : IsContinuation b₂) :
    String.utf8EncodeChar (Char.ofNat (n * 64 + (b₂.toNat - 0x80))) =
      [UInt8.ofNat (n + 192), b₂] := by
  rw [isContinuation_iff] at h₂
  generalize hv : n * 64 + (b₂.toNat - 0x80) = v
  have h₁ : v / 64 % 32 = n := by omega
  have h₂ : UInt8.ofNat (v % 64 + 128) = b₂ := ofNat_eq_of_eq_toNat (by omega)
  rw [String.utf8EncodeChar, toNat_val_ofNat (Or.inl (by omega)), if_neg (by omega),
    if_pos (by omega), h₁, h₂]

/-- The sequence of three octets. -/
theorem utf8EncodeChar_ofNat_three (hn : n < 16) (h₂ : IsContinuation b₂)
    (h₃ : IsContinuation b₃) (hleast : n = 0 → 0xa0 ≤ b₂.toNat)
    (hgreatest : n = 13 → b₂.toNat ≤ 0x9f) :
    String.utf8EncodeChar (Char.ofNat ((n * 64 + (b₂.toNat - 0x80)) * 64 + (b₃.toNat - 0x80))) =
      [UInt8.ofNat (n + 224), b₂, b₃] := by
  rw [isContinuation_iff] at h₂ h₃
  generalize hv : (n * 64 + (b₂.toNat - 0x80)) * 64 + (b₃.toNat - 0x80) = v
  have hvalid : v.isValidChar := by unfold Nat.isValidChar; omega
  have h₁ : v / 4096 % 16 = n := by omega
  have h₂ : UInt8.ofNat (v / 64 % 64 + 128) = b₂ := ofNat_eq_of_eq_toNat (by omega)
  have h₃ : UInt8.ofNat (v % 64 + 128) = b₃ := ofNat_eq_of_eq_toNat (by omega)
  rw [String.utf8EncodeChar, toNat_val_ofNat hvalid, if_neg (by omega), if_neg (by omega),
    if_pos (by omega), h₁, h₂, h₃]

/-- The sequence of four octets. -/
theorem utf8EncodeChar_ofNat_four (hn : n < 5) (h₂ : IsContinuation b₂) (h₃ : IsContinuation b₃)
    (h₄ : IsContinuation b₄) (hleast : n = 0 → 0x90 ≤ b₂.toNat)
    (hgreatest : n = 4 → b₂.toNat ≤ 0x8f) :
    String.utf8EncodeChar (Char.ofNat (((n * 64 + (b₂.toNat - 0x80)) * 64 + (b₃.toNat - 0x80)) * 64 +
      (b₄.toNat - 0x80))) = [UInt8.ofNat (n + 240), b₂, b₃, b₄] := by
  rw [isContinuation_iff] at h₂ h₃ h₄
  generalize hv : ((n * 64 + (b₂.toNat - 0x80)) * 64 + (b₃.toNat - 0x80)) * 64 +
    (b₄.toNat - 0x80) = v
  have hvalid : v.isValidChar := by unfold Nat.isValidChar; omega
  have h₁ : v / 262144 % 8 = n := by omega
  have h₂ : UInt8.ofNat (v / 4096 % 64 + 128) = b₂ := ofNat_eq_of_eq_toNat (by omega)
  have h₃ : UInt8.ofNat (v / 64 % 64 + 128) = b₃ := ofNat_eq_of_eq_toNat (by omega)
  have h₄ : UInt8.ofNat (v % 64 + 128) = b₄ := ofNat_eq_of_eq_toNat (by omega)
  rw [String.utf8EncodeChar, toNat_val_ofNat hvalid, if_neg (by omega), if_neg (by omega),
    if_neg (by omega), h₁, h₂, h₃, h₄]

/-! ### Unfinished sequences -/

variable {owed bits : Nat} {least greatest : UInt8}

/-- Octets that complete an unfinished sequence, with the character that they complete. -/
inductive State.Finishes : State → List UInt8 → Char → Prop where
  | last {least greatest b : UInt8} {bits : Nat} (h : least ≤ b ∧ b ≤ greatest) :
    Finishes (.inside 0 least greatest bits) [b] (Char.ofNat (bits * 64 + (b.toNat - 0x80)))
  | next {owed : Nat} {least greatest b : UInt8} {bits : Nat} {octets : List UInt8} {c : Char}
    (h : least ≤ b ∧ b ≤ greatest)
    (hrest : Finishes (.inside owed 0x80 0xbf (bits * 64 + (b.toNat - 0x80))) octets c) :
    Finishes (.inside (owed + 1) least greatest bits) (b :: octets) c

/-- Every state inside a sequence can be finished. -/
theorem State.exists_finishes (owed : Nat) (h : least ≤ greatest) (bits : Nat) :
    ∃ octets c, octets ≠ [] ∧ (State.inside owed least greatest bits).Finishes octets c := by
  induction owed generalizing least greatest bits with
  | zero => exact ⟨[least], _, List.cons_ne_nil _ _, .last ⟨UInt8.le_refl _, h⟩⟩
  | succ owed ih =>
    have hle : (0x80 : UInt8) ≤ 0xbf := by decide
    obtain ⟨octets, c, -, hfinishes⟩ := ih hle (bits * 64 + (least.toNat - 0x80))
    exact ⟨least :: octets, c, List.cons_ne_nil _ _, .next ⟨UInt8.le_refl _, h⟩ hfinishes⟩

/-- The octets lead a decoder into the state, and whatever completes the sequence makes the octets
  of a character. -/
structure Unfinished (read : List UInt8) (owed : Nat) (least greatest : UInt8) (bits : Nat) :
    Prop where
  ne_nil : read ≠ []
  decode_append : ∀ rest, decode (read ++ rest) = decodeFrom (.inside owed least greatest bits) rest
  least_le_greatest : least ≤ greatest
  encode_of_finishes : ∀ octets c, (State.inside owed least greatest bits).Finishes octets c →
    String.utf8EncodeChar c = read ++ octets

/-- The first octet of two is unfinished. -/
theorem unfinished_two (hn : 2 ≤ n ∧ n < 32) :
    Unfinished [UInt8.ofNat (n + 192)] 0 0x80 0xbf n where
  ne_nil := List.cons_ne_nil _ _
  decode_append := decode_cons_of_start (start_two n hn.2 hn.1)
  least_le_greatest := by decide
  encode_of_finishes octets c h := by
    cases h with
    | last h₂ => exact utf8EncodeChar_ofNat_two hn h₂

/-- The first octet of three is unfinished. -/
theorem unfinished_three (hn : n < 16) :
    Unfinished [UInt8.ofNat (n + 224)] 1 (if n = 0 then 0xa0 else 0x80)
      (if n = 13 then 0x9f else 0xbf) n where
  ne_nil := List.cons_ne_nil _ _
  decode_append := decode_cons_of_start (start_three n hn)
  least_le_greatest := by
    have hle : ∀ n < 16, (if n = 0 then 0xa0 else 0x80 : UInt8) ≤
        if n = 13 then 0x9f else 0xbf := by decide
    exact hle n hn
  encode_of_finishes octets c h := by
    cases h with
    | next h₂ hrest =>
      cases hrest with
      | last h₃ =>
        rw [UInt8.le_iff_toNat_le, UInt8.le_iff_toNat_le] at h₂
        refine utf8EncodeChar_ofNat_three hn (isContinuation_iff.2 ?_) h₃ ?_ ?_
        all_goals split_ifs at h₂ <;> simp at h₂ <;> omega

/-- The first octet of four is unfinished. -/
theorem unfinished_four (hn : n < 5) :
    Unfinished [UInt8.ofNat (n + 240)] 2 (if n = 0 then 0x90 else 0x80)
      (if n = 4 then 0x8f else 0xbf) n where
  ne_nil := List.cons_ne_nil _ _
  decode_append := decode_cons_of_start (start_four n hn)
  least_le_greatest := by
    have hle : ∀ n < 5, (if n = 0 then 0x90 else 0x80 : UInt8) ≤
        if n = 4 then 0x8f else 0xbf := by decide
    exact hle n hn
  encode_of_finishes octets c h := by
    cases h with
    | next h₂ hrest =>
      cases hrest with
      | next h₃ hrest =>
        cases hrest with
        | last h₄ =>
          rw [UInt8.le_iff_toNat_le, UInt8.le_iff_toNat_le] at h₂
          refine utf8EncodeChar_ofNat_four hn (isContinuation_iff.2 ?_) h₃ h₄ ?_ ?_
          all_goals split_ifs at h₂ <;> simp at h₂ <;> omega

/-- A continuation octet starts nothing. -/
theorem start_continuation :
    ∀ n < 66, start (UInt8.ofNat (n + 128)) = ([replacement], .ground) := by
  decide

/-- An octet beyond those of sequences starts nothing. -/
theorem start_beyond :
    ∀ n < 11, start (UInt8.ofNat (n + 245)) = ([replacement], .ground) := by
  decide

/-- An octet makes a character of its own, starts nothing, or leaves a sequence unfinished. -/
theorem octet_cases (b : UInt8) :
    (start b = ([Char.ofNat b.toNat], .ground) ∧
      String.utf8EncodeChar (Char.ofNat b.toNat) = [b]) ∨
    start b = ([replacement], .ground) ∨
    ∃ owed least greatest bits, Unfinished [b] owed least greatest bits := by
  have hlt := b.toNat_lt
  rcases Nat.lt_or_ge b.toNat 0x80 with hone | hone
  · refine Or.inl ⟨?_, ?_⟩
    · rw [← start_ascii _ hone, UInt8.ofNat_toNat]
    · rw [utf8EncodeChar_ofNat_one hone, UInt8.ofNat_toNat]
  -- The other octets are counted from the first one of their range.
  rcases Nat.lt_or_ge b.toNat 0xc2 with hstray | htwo
  · have h := start_continuation (b.toNat - 128) (by omega)
    rw [ofNat_eq_of_eq_toNat (b := b) (by omega)] at h
    exact Or.inr (Or.inl h)
  rcases Nat.lt_or_ge b.toNat 0xf5 with hlead | hbeyond
  · refine Or.inr (Or.inr ?_)
    rcases Nat.lt_or_ge b.toNat 0xe0 with htwo' | hthree
    · have h := unfinished_two (n := b.toNat - 192) (by omega)
      rw [ofNat_eq_of_eq_toNat (b := b) (by omega)] at h
      exact ⟨_, _, _, _, h⟩
    rcases Nat.lt_or_ge b.toNat 0xf0 with hthree' | hfour
    · have h := unfinished_three (n := b.toNat - 224) (by omega)
      rw [ofNat_eq_of_eq_toNat (b := b) (by omega)] at h
      exact ⟨_, _, _, _, h⟩
    · have h := unfinished_four (n := b.toNat - 240) (by omega)
      rw [ofNat_eq_of_eq_toNat (b := b) (by omega)] at h
      exact ⟨_, _, _, _, h⟩
  · have h := start_beyond (b.toNat - 245) (by omega)
    rw [ofNat_eq_of_eq_toNat (b := b) (by omega)] at h
    exact Or.inr (Or.inl h)

/-! ### Sequences that are given up -/

/-- An unfinished sequence gives at least one character, whatever follows. -/
theorem decodeFrom_inside_ne_nil (owed : Nat) (least greatest : UInt8) (bits : Nat)
    (octets : List UInt8) : decodeFrom (.inside owed least greatest bits) octets ≠ [] := by
  induction octets generalizing owed least greatest bits with
  | nil => exact List.cons_ne_nil _ _
  | cons b rest ih =>
    rw [decodeFrom, State.step]
    split
    · cases owed with
      | zero => exact List.cons_ne_nil _ _
      | succ owed => exact ih owed _ _ _
    · exact List.cons_ne_nil _ _

/-- Whatever octets there are, a character is decoded from them. -/
theorem decode_cons_ne_nil (b : UInt8) (rest : List UInt8) : decode (b :: rest) ≠ [] := by
  rcases octet_cases b with ⟨h, -⟩ | h | ⟨owed, least, greatest, bits, h⟩
  · rw [decode, decodeFrom, State.step, h]
    exact List.cons_ne_nil _ _
  · rw [decode, decodeFrom, State.step, h]
    exact List.cons_ne_nil _ _
  · rw [← List.singleton_append, h.decode_append]
    exact decodeFrom_inside_ne_nil owed least greatest bits rest

/-- A refused octet abandons a sequence and is read again. -/
theorem decodeFrom_refused (h : ¬ (least ≤ b ∧ b ≤ greatest)) (owed bits : Nat)
    (rest : List UInt8) :
    decodeFrom (.inside owed least greatest bits) (b :: rest) =
      replacement :: decode (b :: rest) := by
  simp only [decodeFrom, State.step, if_neg h]
  rfl

/-- No character begins with an octet that is replaced by itself. -/
theorem not_starts_of_stray (h : start b = ([replacement], .ground)) (c : Char) :
    ¬ [b] <+: String.utf8EncodeChar c := by
  rintro ⟨rest, hrest⟩
  have hdecode : replacement :: decode rest = [c] := by
    rw [← decode_utf8EncodeChar c, ← hrest, List.singleton_append, decode, decode, decodeFrom,
      State.step, h]
    rfl
  obtain ⟨hc, hnil⟩ := List.cons.inj hdecode
  cases rest with
  | nil =>
    -- The replacement character itself has three octets.
    have hlength : (String.utf8EncodeChar replacement).length = 3 := by decide
    rw [hc, ← hrest] at hlength
    exact absurd hlength (by simp)
  | cons d rest => exact decode_cons_ne_nil d rest hnil

namespace Unfinished

variable {read : List UInt8}

/-- An octet in the awaited range that is not the last one leaves the sequence unfinished. -/
theorem next (h : Unfinished read (owed + 1) least greatest bits)
    (hb : least ≤ b ∧ b ≤ greatest) :
    Unfinished (read ++ [b]) owed 0x80 0xbf (bits * 64 + (b.toNat - 0x80)) where
  ne_nil := List.append_ne_nil_of_left_ne_nil h.ne_nil _
  decode_append rest := by
    rw [List.append_assoc, List.singleton_append, h.decode_append, decodeFrom, State.step,
      if_pos hb]
    rfl
  least_le_greatest := by decide
  encode_of_finishes octets c hfinishes := by
    rw [List.append_assoc, List.singleton_append]
    exact h.encode_of_finishes _ c (.next hb hfinishes)

/-- The last octet completes the octets of a character. -/
theorem last (h : Unfinished read 0 least greatest bits) (hb : least ≤ b ∧ b ≤ greatest) :
    String.utf8EncodeChar (Char.ofNat (bits * 64 + (b.toNat - 0x80))) = read ++ [b] :=
  h.encode_of_finishes [b] _ (.last hb)

/-- No character begins with the sequence and an octet outside the awaited range. -/
theorem not_starts (h : Unfinished read owed least greatest bits)
    (hb : ¬ (least ≤ b ∧ b ≤ greatest)) (c : Char) :
    ¬ read ++ [b] <+: String.utf8EncodeChar c := by
  rintro ⟨rest, hrest⟩
  have hdecode := decode_utf8EncodeChar c
  rw [← hrest, List.append_assoc, List.singleton_append, h.decode_append,
    decodeFrom_refused hb] at hdecode
  exact decode_cons_ne_nil b rest (List.cons.inj hdecode).2

/-- Where a sequence is given up, no longer start of the octets begins a character. -/
theorem length_le (h : Unfinished read owed least greatest bits)
    (hrest : ∀ b ∈ rest.head?, ¬ (least ≤ b ∧ b ≤ greatest)) {other : List UInt8} {c : Char}
    (hother : other <+: read ++ rest) (hc : other <+: String.utf8EncodeChar c) :
    other.length ≤ read.length := by
  cases rest with
  | nil => simpa using hother.length_le
  | cons b rest =>
    apply Nat.le_of_not_lt
    intro hlt
    have hread : read ++ [b] <+: read ++ b :: rest := ⟨rest, by simp⟩
    have hlength : (read ++ [b]).length ≤ other.length := by rwa [List.length_append]
    exact h.not_starts (hrest b rfl) c
      ((List.prefix_of_prefix_length_le hread hother hlength).trans hc)

end Unfinished

end Telemetry.Utf8
