import Telemetry.Fingerprint
import Telemetry.Proofs.Map.Writes
/-!
# Filtered fingerprints

The filtered fingerprint of a source folds pairs as they come and builds no map. It agrees with the
fingerprint of the ordered map of the accepted pairs whenever these come in key order, which a
sorted source always guarantees.
-/

namespace Telemetry.Source

open SortedMap AttributeMap

variable {σ : Type}

/-! ### Accepted pairs -/

/-- The pairs whose key a predicate accepts when it is asked once for each of them, in order. -/
def accepted (accepts : σ → String → σ × Bool) (state : σ) : List Pair → List Pair
  | [] => []
  | p :: rest =>
    let answer := accepts state p.1
    if answer.2 = true then p :: accepted accepts answer.1 rest
    else accepted accepts answer.1 rest

/-- The predicate is asked about the first key, and about all others in the state behind its
  answer. -/
theorem accepted_cons (accepts : σ → String → σ × Bool) (state : σ) (p : Pair)
    (rest : List Pair) :
    accepted accepts state (p :: rest) =
      if (accepts state p.1).2 = true then p :: accepted accepts (accepts state p.1).1 rest
      else accepted accepts (accepts state p.1).1 rest := rfl

/-- Accepted pairs keep their order. -/
theorem accepted_sublist (accepts : σ → String → σ × Bool) (state : σ) (pairs : List Pair) :
    (accepted accepts state pairs).Sublist pairs := by
  induction pairs generalizing state with
  | nil => exact List.Sublist.slnil
  | cons p rest ih =>
    rw [accepted_cons]
    split
    · exact (ih _).cons_cons p
    · exact (ih _).cons p

/-- Without a state, accepting is filtering. -/
theorem accepted_eq_filter (p : String → Bool) (state : σ) (pairs : List Pair) :
    accepted (fun state key => (state, p key)) state pairs = pairs.filter fun e => p e.1 := by
  induction pairs with
  | nil => rfl
  | cons e rest ih =>
    rw [accepted_cons, List.filter_cons]
    exact ite_congr rfl (fun _ => congrArg _ ih) fun _ => ih

/-! ### The fold -/

/-- The seed behind pairs that are folded as they come. -/
def foldPairs (seed : UInt64) (pairs : List Pair) : UInt64 :=
  pairs.foldl (fun seed p => Seed.combineEntry seed p.1 p.2.store) seed

/-- The visitor of a filtered fingerprint folds the accepted pairs and nothing else. -/
theorem seed_visitAll_foldAccepted (accepts : σ → String → σ × Bool) (f : Filtering σ)
    (pairs : List Pair) :
    (visitAll (foldAccepted accepts) f pairs).1.seed =
      foldPairs f.seed (accepted accepts f.state pairs) := by
  induction pairs generalizing f with
  | nil => rfl
  | cons p rest ih =>
    -- The visitor takes the answer that the list of accepted pairs takes.
    rw [accepted_cons]
    by_cases h : (accepts f.state p.1).2 = true
    · have hstep : foldAccepted accepts f p = ({ f with
          seed := Seed.combineEntry f.seed p.1 p.2.store, state := (accepts f.state p.1).1 },
          true) := if_pos h
      simp only [visitAll, hstep, if_true, if_pos h, ih]
      rfl
    · have hstep : foldAccepted accepts f p = ({ f with
          state := (accepts f.state p.1).1, rejected := p.1 :: f.rejected }, true) := if_neg h
      simp only [visitAll, hstep, if_true, if_neg h, ih]

/-- A filtered fingerprint is the fold over the accepted pairs. -/
theorem seed_fingerprint (source : Source) (accepts : σ → String → σ × Bool) (state : σ) :
    (source.fingerprint accepts state).value.1 =
      foldPairs 0 (accepted accepts state source.pairs) :=
  seed_visitAll_foldAccepted accepts ⟨0, state, []⟩ source.pairs

/-- The fingerprint of the ordered map of pairs in key order folds these very pairs. -/
theorem fingerprint_collect_of_inOrder {pairs : List Pair} (h : InOrder pairs) :
    (collect pairs : AttributeMap .ordered).fingerprint = foldPairs 0 pairs := by
  have hwrites : InOrder (pairs.map (writeOf (k := .ordered))) := List.pairwise_map.2 h
  rw [collect_eq_ofList, AttributeMap.fingerprint, entries_ofList_of_inOrder hwrites,
    List.foldl_map]
  rfl

/-! ### Choosing before and after sorting -/

/-- The pairs of a sorted source whose keys are chosen fill the same map as the chosen pairs of the
  list that the source is made from. -/
theorem collect_filter_entries_ofList {k : MapKind} (pairs : List Pair) (p : String → Bool) :
    (collect ((SortedMap.ofList pairs).entries.filter fun e => p e.1) : AttributeMap k) =
      collect (pairs.filter fun e => p e.1) := by
  have hget (chosen : List Pair) (key : String) :
      (collect (chosen.filter fun e => p e.1) : AttributeMap k).get? key =
        (if p key = true then lastWrite chosen key else none).map k.hold := by
    rw [collect_eq_ofList, get?_ofList, ← lastWrite_filter]
    exact lastWrite_map k.hold _ key
  apply eq_of_get?_eq
  intro key
  rw [hget, hget, lastWrite_entries, get?_ofList]

/-! ### Main statement -/

/-- The filtered fingerprint of a source is that of the ordered map of the accepted pairs if these
  come in strict key order. Those of a sorted source always do. If moreover the predicate keeps no
  state, then pairs may be chosen before a sorted source is made of them. -/
theorem filtered_fingerprint_eq_fingerprint :
    (∀ (σ : Type) (source : Source) (accepts : σ → String → σ × Bool) (state : σ),
      InOrder (accepted accepts state source.pairs) →
        (source.fingerprint accepts state).value.1 =
          (collect (accepted accepts state source.pairs) : AttributeMap .ordered).fingerprint) ∧
    (∀ (σ : Type) (m : SortedMap RecordedValue) (accepts : σ → String → σ × Bool) (state : σ),
      ((sorted m).fingerprint accepts state).value.1 =
        (collect (accepted accepts state m.entries) : AttributeMap .ordered).fingerprint) ∧
    ∀ (σ : Type) (pairs : List Pair) (p : String → Bool) (state : σ),
      ((sorted (SortedMap.ofList pairs)).fingerprint (fun state key => (state, p key))
          state).value.1 =
        (collect (pairs.filter fun e => p e.1) : AttributeMap .ordered).fingerprint := by
  have hfold (σ : Type) (source : Source) (accepts : σ → String → σ × Bool) (state : σ)
      (h : InOrder (accepted accepts state source.pairs)) :
      (source.fingerprint accepts state).value.1 =
        (collect (accepted accepts state source.pairs) : AttributeMap .ordered).fingerprint := by
    rw [seed_fingerprint, fingerprint_collect_of_inOrder h]
  have hsorted (σ : Type) (m : SortedMap RecordedValue) (accepts : σ → String → σ × Bool)
      (state : σ) : InOrder (accepted accepts state m.entries) :=
    m.inOrder.sublist (accepted_sublist accepts state m.entries)
  -- Whatever is accepted of a sorted source comes in its order.
  refine ⟨hfold, ?_, ?_⟩
  · intro σ m accepts state
    exact hfold σ (sorted m) accepts state (hsorted ..)
  · intro σ pairs p state
    rw [hfold σ (sorted (SortedMap.ofList pairs)) _ state (hsorted ..), accepted_eq_filter]
    exact congrArg _ (collect_filter_entries_ofList pairs p)

/-- The second question is answered with no, so the key that is out of order is refused. The keys
  that are left are in order. -/
theorem filtered_fingerprint_refusing_second :
    let pairs : List Pair := [("a", .scalar .bool true), ("Z", .scalar .text ""),
      ("b", .sequence .int32 [1, -1]), ("é", .bytes [0xff])]
    let accepts : Nat → String → Nat × Bool := fun asked _ => (asked + 1, decide (asked ≠ 1))
    (accepted accepts 0 (custom pairs 7).pairs).map Prod.fst = ["a", "b", "é"] ∧
      InOrder (accepted accepts 0 (custom pairs 7).pairs) ∧
      ((custom pairs 7).fingerprint accepts 0).value.1 =
        (collect (accepted accepts 0 (custom pairs 7).pairs) :
          AttributeMap .ordered).fingerprint := by
  intro pairs accepts
  have hkeys : (accepted accepts 0 (custom pairs 7).pairs).map Prod.fst = ["a", "b", "é"] := rfl
  have h : InOrder (accepted accepts 0 (custom pairs 7).pairs) := by decide +kernel
  exact ⟨hkeys, h, filtered_fingerprint_eq_fingerprint.1 Nat (custom pairs 7) accepts 0 h⟩

end Telemetry.Source
