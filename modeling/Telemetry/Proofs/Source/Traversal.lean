import Telemetry.Proofs.Map.LastWrite
import Telemetry.Source
/-!
# Traversals of sources

A traversal hands the pairs of a source to a visitor, one after another, up to and including the
first one that the visitor refuses. The visitor is a machine with a state of its own, so whether it
refuses a pair may depend on all pairs before. What a traversal comes to is said by a relation that
knows nothing of the loop, and the calls of a visitor are those that it notes in its state.
-/

namespace Telemetry.Source

variable {σ : Type} {visit : σ → Pair → σ × Bool} {state final : σ} {pairs called : List Pair}
  {completed : Bool}

/-! ### Runs of a visitor -/

/-- A visitor takes pairs one after another, from one state to another, and refuses none. -/
inductive Accepts (visit : σ → Pair → σ × Bool) : σ → List Pair → σ → Prop
  | nil (state : σ) : Accepts visit state [] state
  | cons {state next final : σ} {p : Pair} {rest : List Pair} (hp : visit state p = (next, true))
    (hrest : Accepts visit next rest final) : Accepts visit state (p :: rest) final

/-- A traversal of pairs calls the visitor with all of them if it accepts all of them, and with
  those up to the first one that it refuses otherwise. -/
inductive Ends (visit : σ → Pair → σ × Bool) (state : σ) (pairs : List Pair) :
    List Pair → σ → Bool → Prop
  | all {final : σ} (haccepts : Accepts visit state pairs final) :
    Ends visit state pairs pairs final true
  | refused {before after : List Pair} {p : Pair} {last final : σ}
    (hpairs : pairs = before ++ p :: after) (hbefore : Accepts visit state before last)
    (hp : visit last p = (final, false)) : Ends visit state pairs (before ++ [p]) final false

/-- A pair that is accepted is the first one of a traversal of the others. -/
theorem Ends.cons {next : σ} {p : Pair} (hp : visit state p = (next, true))
    (h : Ends visit next pairs called final completed) :
    Ends visit state (p :: pairs) (p :: called) final completed := by
  cases h with
  | all haccepts => exact .all (.cons hp haccepts)
  | @refused before after q last final hpairs hbefore hlast =>
    have hpairs' : p :: pairs = (p :: before) ++ q :: after := congrArg (p :: ·) hpairs
    exact .refused hpairs' (.cons hp hbefore) hlast

/-- Every traversal ends in some way. -/
theorem exists_ends (visit : σ → Pair → σ × Bool) (state : σ) (pairs : List Pair) :
    ∃ called final completed, Ends visit state pairs called final completed := by
  induction pairs generalizing state with
  | nil => exact ⟨[], state, true, .all (.nil state)⟩
  | cons p rest ih =>
    by_cases hp : (visit state p).2 = true
    · obtain ⟨called, final, completed, hrest⟩ := ih (visit state p).1
      exact ⟨p :: called, final, completed, hrest.cons (Prod.ext rfl hp)⟩
    · have hpairs : p :: rest = [] ++ p :: rest := rfl
      exact ⟨[p], (visit state p).1, false,
        .refused hpairs (.nil state) (Prod.ext rfl (eq_false_of_ne_true hp))⟩

/-- The first pair is visited, and the others are unless it was refused. -/
theorem visitAll_cons (visit : σ → Pair → σ × Bool) (state : σ) (p : Pair) (rest : List Pair) :
    visitAll visit state (p :: rest) =
      if (visit state p).2 = true then visitAll visit (visit state p).1 rest
      else visit state p := rfl

/-- Accepted pairs lead on to the rest. -/
theorem Accepts.visitAll_append {last : σ} (h : Accepts visit state called last)
    (rest : List Pair) :
    visitAll visit state (called ++ rest) = visitAll visit last rest := by
  induction h with
  | nil => rfl
  | cons hp _ ih => rw [List.cons_append, visitAll_cons, hp, if_pos rfl, ih]

/-- What a traversal comes to is how it ends. -/
theorem Ends.visitAll_eq (h : Ends visit state pairs called final completed) :
    visitAll visit state pairs = (final, completed) := by
  cases h with
  | all haccepts =>
    have hvisit := haccepts.visitAll_append []
    rwa [List.append_nil] at hvisit
  | refused hpairs hbefore hp =>
    rw [hpairs, hbefore.visitAll_append, visitAll_cons, hp, if_neg Bool.false_ne_true]

/-! ### Noted calls -/

/-- The visitor with a state that also keeps the pairs with which it was called, in order. -/
def noting (visit : σ → Pair → σ × Bool) (s : σ × List Pair) (p : Pair) :
    (σ × List Pair) × Bool :=
  let answer := visit s.1 p
  ((answer.1, s.2 ++ [p]), answer.2)

/-- Noting a pair does not change the answer. -/
theorem noting_of_visit {next : σ} {p : Pair} {accepted : Bool}
    (hp : visit state p = (next, accepted)) (noted : List Pair) :
    noting visit (state, noted) p = ((next, noted ++ [p]), accepted) := by
  rw [noting, hp]

/-- Noting the pairs does not change which ones are accepted. -/
theorem Accepts.noted {last : σ} (h : Accepts visit state called last) (noted : List Pair) :
    Accepts (noting visit) (state, noted) called (last, noted ++ called) := by
  induction h generalizing noted with
  | nil state =>
    rw [List.append_nil]
    exact .nil _
  | @cons state next final p rest hp _ ih =>
    have hrest := ih (noted ++ [p])
    rw [List.append_assoc, List.singleton_append] at hrest
    exact .cons (noting_of_visit hp noted) hrest

/-- Noting the pairs does not change how a traversal ends, and those that were visited are noted. -/
theorem Ends.noted (h : Ends visit state pairs called final completed) (noted : List Pair) :
    Ends (noting visit) (state, noted) pairs called (final, noted ++ called) completed := by
  cases h with
  | all haccepts => exact .all (haccepts.noted noted)
  | @refused before after p last final hpairs hbefore hp =>
    have hlast := noting_of_visit hp (noted ++ before)
    rw [List.append_assoc] at hlast
    exact .refused hpairs (hbefore.noted noted) hlast

/-- A traversal notes some calls exactly if it ends with them. -/
theorem visitAll_noting_eq_iff :
    visitAll (noting visit) (state, []) pairs = ((final, called), completed) ↔
      Ends visit state pairs called final completed := by
  constructor
  · intro h
    obtain ⟨called', final', completed', hends⟩ := exists_ends visit state pairs
    rw [(hends.noted []).visitAll_eq, List.nil_append, Prod.mk.injEq, Prod.mk.injEq] at h
    obtain ⟨⟨rfl, rfl⟩, rfl⟩ := h
    exact hends
  · intro h
    exact (h.noted []).visitAll_eq

/-! ### The pairs of a source -/

/-- The size of the source is the number of its pairs, and no choice of its own. -/
def CountsPairs : Source → Prop
  | list _ | array _ | sorted _ => True
  | custom .. => False

/-- A source without a choice of its own advertises as many pairs as it enumerates. -/
theorem size_eq_length_of_countsPairs {source : Source} (h : source.CountsPairs) :
    source.size = source.pairs.length := by
  cases source with
  | list | array | sorted => rfl
  | custom => exact h.elim

/-- A sorted source that is made from a list has each key of the list once, with the value that
  stands behind the key for the last time. -/
theorem mem_pairs_sorted_ofList_iff (given : List Pair) (key : String) (value : RecordedValue) :
    (key, value) ∈ (sorted (SortedMap.ofList given)).pairs ↔
      ∃ before after, given = before ++ (key, value) :: after ∧ key ∉ after.map Prod.fst := by
  rw [← SortedMap.lastWrite_eq_some_iff]
  exact (SortedMap.answers_ofList given).entries key value

/-- A sorted source enumerates every given key once. -/
theorem count_keys_sorted_ofList (given : List Pair) (key : String) :
    ((sorted (SortedMap.ofList given)).pairs.map Prod.fst).count key =
      if key ∈ given.map Prod.fst then 1 else 0 := by
  change (SortedMap.ofList given).keys.count key = _
  rw [(SortedMap.ofList given).nodup_keys.count]
  refine if_congr ?_ rfl rfl
  rw [SortedMap.mem_keys_iff, SortedMap.get?_ofList, SortedMap.lastWrite_isSome_iff]

/-! ### Main statement -/

/-- Every source calls a visitor with its pairs in order, up to and including the first one that is
  refused, and answers whether none was refused. The pairs of a source are those that it was given;
  a sorted source has them in strict key order, each key once and with its last value. The size of
  a source that does not choose it is the number of calls of a visitor that refuses no pair. -/
theorem traverse_until_refused :
    (∀ (σ : Type) (source : Source) (visit : σ → Pair → σ × Bool) (state final : σ)
      (called : List Pair) (completed : Bool),
      (source.traverse (noting visit) (state, []) = ((final, called), completed) ↔
        Ends visit state source.pairs called final completed) ∧
      (Ends visit state source.pairs called final completed →
        source.traverse visit state = (final, completed) ∧
        (source.CountsPairs → completed = true → called.length = source.size))) ∧
    (∀ given : List Pair, (list given).pairs = given ∧ (array given.toArray).pairs = given ∧
      ∀ advertised, (custom given advertised).pairs = given) ∧
    ∀ given : List Pair,
      SortedMap.InOrder (sorted (SortedMap.ofList given)).pairs ∧
      (∀ key, ((sorted (SortedMap.ofList given)).pairs.map Prod.fst).count key =
        if key ∈ given.map Prod.fst then 1 else 0) ∧
      ∀ key value, (key, value) ∈ (sorted (SortedMap.ofList given)).pairs ↔
        ∃ before after, given = before ++ (key, value) :: after ∧ key ∉ after.map Prod.fst := by
  refine ⟨?_, ?_, ?_⟩
  · -- The calls of a traversal.
    intro σ source visit state final called completed
    refine ⟨visitAll_noting_eq_iff, fun hends => ⟨hends.visitAll_eq, ?_⟩⟩
    rintro hcounts rfl
    cases hends with
    | all => exact (size_eq_length_of_countsPairs hcounts).symm
  · -- Sources that keep the order of their pairs.
    intro given
    exact ⟨rfl, rfl, fun _ => rfl⟩
  · -- A sorted source.
    intro given
    exact ⟨(SortedMap.ofList given).inOrder, count_keys_sorted_ofList given,
      mem_pairs_sorted_ofList_iff given⟩

/-- A sorted source with two keys, one of which was given twice. A visitor that counts its calls
  refuses the second one, and one that refuses none is called as often as the size says. -/
theorem traverse_until_refused_second :
    let source := sorted (SortedMap.ofList
      [("b", .scalar .bool true), ("a", .scalar .text ""), ("b", .scalar .bool false)])
    let visit (limit calls : Nat) (_ : Pair) : Nat × Bool := (calls + 1, decide (calls + 1 < limit))
    let called : List Pair := [("a", .scalar .text ""), ("b", .scalar .bool false)]
    (Ends (visit 2) 0 source.pairs called 2 false ∧
      source.traverse (visit 2) 0 = (2, false)) ∧
    Ends (visit 3) 0 source.pairs called 2 true ∧ source.CountsPairs ∧ source.size = 2 := by
  intro source visit called
  have hstops := traverse_until_refused.1 Nat source (visit 2) 0 2 called false
  have hruns := traverse_until_refused.1 Nat source (visit 3) 0 2 called true
  have hstopped := hstops.1.1 (by decide +kernel)
  have hcompleted := hruns.1.1 (by decide +kernel)
  exact ⟨⟨hstopped, (hstops.2 hstopped).1⟩, hcompleted, trivial,
    ((hruns.2 hcompleted).2 trivial rfl).symm⟩

end Telemetry.Source
