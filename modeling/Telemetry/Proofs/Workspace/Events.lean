import Telemetry.Proofs.Fingerprint.Filtered
import Telemetry.Proofs.Workspace.Ledger
/-!
# Events account for every pair

A run reports each population of a map from a source, with the pairs that the source enumerates and
the size that it advertises. The size is reported and has no other effect: two runs whose sources
differ in nothing but their sizes have the same results. A filtered fingerprint reports each pair
that its predicate rejects, and folds all others.
-/

namespace Telemetry

/-! ### The size of a map -/

namespace SortedMap

variable {α : Type}

/-- A map has no more entries than there were writes. -/
theorem size_ofList_le (writes : List (String × α)) : (ofList writes).size ≤ writes.length := by
  rw [(answers_ofList writes).size, ← List.length_map Prod.fst]
  exact (List.dedup_sublist _).length_le

/-- A map has as many entries as it has writes exactly if no key is written twice. -/
theorem size_ofList_eq_iff (writes : List (String × α)) :
    (ofList writes).size = writes.length ↔ (writes.map Prod.fst).Nodup := by
  rw [(answers_ofList writes).size, ← List.length_map Prod.fst, ← List.dedup_eq_self]
  exact ⟨(List.dedup_sublist _).eq_of_length, congrArg List.length⟩

end SortedMap

open AttributeMap SortedMap

/-! ### Populations -/

/-- The event of a map that is populated from a source. -/
def Source.population (source : Source) : Event :=
  .populated source.pairs.length source.size

variable {k : MapKind}

/-- A population is reported once. -/
theorem AttributeMap.events_ofSource (source : Source) :
    (ofSource source : Traced (AttributeMap k)).events = [source.population] := by
  simp only [ofSource, Source.traverse, visitAll_writePair, Nat.zero_add]
  rfl

namespace Workspace

namespace Action

/-- The source from which an action populates a map, if it does so. -/
def source? : Action → Option Source
  | .ofSource source => some source
  | .ofOptional source => source
  | .new | .collect _ | .extend _ | .set .. | .get _ | .contains _ | .entries | .keys | .encode
  | .decode _ | .clone _ | .compare _ => none

/-- The action with a list of the same pairs in place of its source. -/
def plain : Action → Action
  | .ofSource source => .ofSource (.list source.pairs)
  | .ofOptional source => .ofOptional (source.map fun source => .list source.pairs)
  | a => a

end Action

/-! ### Events of runs -/

/-- An action reports the population that it carries out, and nothing else. -/
theorem events_perform (w : Workspace k) (r : Register) (a : Action) :
    (w.perform r a).events = (a.source?.map Source.population).toList := by
  cases a with
  | ofSource source =>
    change (AttributeMap.ofSource source).events ++ [] = _
    rw [events_ofSource]
    rfl
  | ofOptional source =>
    cases source with
    | none => rfl
    | some source =>
      change (AttributeMap.ofSource source).events ++ [] = _
      rw [events_ofSource]
      rfl
  | decode text =>
    cases hd : decode? (k := k) text with
    | none => rw [perform_decode_of_eq_none w r hd]; rfl
    | some m => rw [perform_decode_of_eq_some w r hd]; rfl
  | new | collect | extend | set | get | contains | entries | keys | encode | clone | compare => rfl

/-- The events of a run are those of its populations, in the order of its actions. -/
theorem events_run (w : Workspace k) (steps : List (Register × Action)) :
    (w.run steps).events = steps.filterMap fun s => s.2.source?.map Source.population := by
  induction steps generalizing w with
  | nil => rfl
  | cons s rest ih =>
    change (w.perform s.1 s.2).events ++ ((((w.perform s.1 s.2).value.2).run rest).events ++ []) = _
    rw [events_perform, ih, List.append_nil, List.filterMap_cons]
    cases s.2.source? <;> rfl

/-! ### Populated maps -/

/-- Behind a population, the register holds the map of its source. -/
theorem get_perform_of_source? (w : Workspace k) (r : Register) {a : Action} {source : Source}
    (h : a.source? = some source) :
    (w.perform r a).value.2.get r = ofList (source.pairs.map writeOf) := by
  have hput : (w.put r (AttributeMap.ofSource source).value).get r =
      ofList (source.pairs.map writeOf) := by
    rw [get_put, Function.update_self, value_ofSource]
  cases a with
  | ofSource other =>
    obtain rfl : other = source := Option.some.inj h
    exact hput
  | ofOptional other =>
    obtain rfl : other = some source := h
    exact hput
  | new | collect | extend | set | get | contains | entries | keys | encode | decode | clone
  | compare => exact absurd h (by simp [Action.source?])

/-- A step of a run that populates a register is observed with the map of its source. -/
theorem observation_of_source? (w : Workspace k) {steps : List (Register × Action)} {n : Nat}
    {s : Register × Action} {source : Source} (hs : steps[n]? = some s)
    (hsource : s.2.source? = some source) :
    ∃ o : Observation k, (w.run steps).value.1[n]? = some o ∧
      o.map = ofList (source.pairs.map writeOf) := by
  -- The place of the step counts down while the workspace moves on.
  induction steps generalizing w n with
  | nil => exact absurd hs (by simp)
  | cons first rest ih =>
    cases n with
    | zero =>
      obtain rfl : first = s := Option.some.inj hs
      exact ⟨_, rfl, get_perform_of_source? w first.1 hsource⟩
    | succ n => exact ih (w.perform first.1 first.2).value.2 hs

/-! ### Sizes have no effect -/

/-- The advertised size has no effect on the result of an action. -/
theorem value_perform_plain (w : Workspace k) (r : Register) (a : Action) :
    (w.perform r a.plain).value = (w.perform r a).value := by
  have hsource (source : Source) :
      (AttributeMap.ofSource (.list source.pairs) : Traced (AttributeMap k)).value =
        (AttributeMap.ofSource source).value := by
    rw [value_ofSource, value_ofSource]
    rfl
  cases a with
  | ofSource source => exact congrArg (fun m => (Result.done, w.put r m)) (hsource source)
  | ofOptional source =>
    cases source with
    | none => rfl
    | some source => exact congrArg (fun m => (Result.done, w.put r m)) (hsource source)
  | new | collect | extend | set | get | contains | entries | keys | encode | decode | clone
  | compare => rfl

/-- The advertised sizes have no effect on the result of a run. -/
theorem value_run_plain (w : Workspace k) (steps : List (Register × Action)) :
    (w.run (steps.map fun s => (s.1, s.2.plain))).value = (w.run steps).value := by
  induction steps generalizing w with
  | nil => rfl
  | cons s rest ih =>
    simp only [List.map_cons, run, Traced.value_bind, Traced.value_pure, value_perform_plain, ih]

end Workspace

/-! ### Filtered fingerprints -/

namespace Source

variable {σ : Type}

/-- The pairs with the answers of a predicate that is asked once for each of them, in order. -/
def answers (accepts : σ → String → σ × Bool) (state : σ) : List Pair → List (Pair × Bool)
  | [] => []
  | p :: rest => (p, (accepts state p.1).2) :: answers accepts (accepts state p.1).1 rest

/-- There is an answer for each pair. -/
theorem map_fst_answers (accepts : σ → String → σ × Bool) (state : σ) (pairs : List Pair) :
    (answers accepts state pairs).map Prod.fst = pairs := by
  induction pairs generalizing state with
  | nil => rfl
  | cons p rest ih => rw [answers, List.map_cons, ih]

/-- The accepted pairs are those with a positive answer. -/
theorem accepted_eq_map_filter (accepts : σ → String → σ × Bool) (state : σ)
    (pairs : List Pair) :
    accepted accepts state pairs =
      ((answers accepts state pairs).filter fun a => a.2).map Prod.fst := by
  induction pairs generalizing state with
  | nil => rfl
  | cons p rest ih =>
    rw [accepted_cons, answers, List.filter_cons, ih]
    split <;> rfl

/-- The keys that a predicate rejects, each as often as it is rejected. -/
def rejected (accepts : σ → String → σ × Bool) (state : σ) (pairs : List Pair) : List String :=
  ((answers accepts state pairs).filter fun a => !a.2).map fun a => a.1.1

/-- The predicate is asked about the first key, and about all others in the state behind its
  answer. -/
theorem rejected_cons (accepts : σ → String → σ × Bool) (state : σ) (p : Pair)
    (rest : List Pair) :
    rejected accepts state (p :: rest) =
      if (accepts state p.1).2 = true then rejected accepts (accepts state p.1).1 rest
      else p.1 :: rejected accepts (accepts state p.1).1 rest := by
  rw [rejected, answers, List.filter_cons]
  cases (accepts state p.1).2 <;> rfl

/-- Every pair is either accepted or rejected. -/
theorem length_rejected_add_length_accepted (accepts : σ → String → σ × Bool) (state : σ)
    (pairs : List Pair) :
    (rejected accepts state pairs).length + (accepted accepts state pairs).length =
      pairs.length := by
  induction pairs generalizing state with
  | nil => rfl
  | cons p rest ih =>
    have hrest := ih (accepts state p.1).1
    rw [rejected_cons, accepted_cons, List.length_cons]
    split
    · rw [List.length_cons]
      omega
    · rw [List.length_cons]
      omega

/-- The visitor of a filtered fingerprint never stops a traversal. -/
theorem visitAll_foldAccepted_cons (accepts : σ → String → σ × Bool) (f : Filtering σ) (p : Pair)
    (rest : List Pair) :
    visitAll (foldAccepted accepts) f (p :: rest) =
      visitAll (foldAccepted accepts) (foldAccepted accepts f p).1 rest := by
  have hgoes : (foldAccepted accepts f p).2 = true := by
    rw [foldAccepted]
    split <;> rfl
  rw [visitAll, if_pos hgoes]

/-- The visitor of a filtered fingerprint keeps the keys that are rejected, the last one first. -/
theorem rejected_visitAll_foldAccepted (accepts : σ → String → σ × Bool) (f : Filtering σ)
    (pairs : List Pair) :
    (visitAll (foldAccepted accepts) f pairs).1.rejected =
      (rejected accepts f.state pairs).reverse ++ f.rejected := by
  induction pairs generalizing f with
  | nil => rfl
  | cons p rest ih =>
    rw [visitAll_foldAccepted_cons, ih, rejected_cons, foldAccepted]
    by_cases h : (accepts f.state p.1).2 = true
    · rw [if_pos h, if_pos h]
    · rw [if_neg h, if_neg h, List.reverse_cons, List.append_assoc]
      rfl

/-- A filtered fingerprint reports the rejected keys in their order. -/
theorem events_fingerprint (source : Source) (accepts : σ → String → σ × Bool) (state : σ) :
    (source.fingerprint accepts state).events =
      (rejected accepts state source.pairs).map .skipped := by
  have h := rejected_visitAll_foldAccepted accepts ⟨0, state, []⟩ source.pairs
  rw [List.append_nil] at h
  simp only [fingerprint, traverse, h, List.reverse_reverse]

/-! ### Questions to a predicate -/

/-- The predicate that answers like a given one and keeps the keys that it is asked about, the
  newest one first. -/
def logging (accepts : σ → String → σ × Bool) (s : σ × List String) (key : String) :
    (σ × List String) × Bool :=
  (((accepts s.1 key).1, key :: s.2), (accepts s.1 key).2)

/-- The state of a filtered fingerprint together with the keys that were asked about. -/
def Filtering.withLog (f : Filtering σ) (asked : List String) : Filtering (σ × List String) :=
  ⟨f.seed, (f.state, asked), f.rejected⟩

/-- Logging one key changes nothing else. -/
theorem foldAccepted_logging (accepts : σ → String → σ × Bool) (f : Filtering σ)
    (asked : List String) (p : Pair) :
    (foldAccepted (logging accepts) (f.withLog asked) p).1 =
      (foldAccepted accepts f p).1.withLog (p.1 :: asked) := by
  -- The answers of the two predicates are the same, so both visitors take the same branch.
  have hsame : (logging accepts (f.withLog asked).state p.1).2 = (accepts f.state p.1).2 := rfl
  rw [foldAccepted, foldAccepted, hsame]
  by_cases h : (accepts f.state p.1).2 = true
  · rw [if_pos h, if_pos h]
    rfl
  · rw [if_neg h, if_neg h]
    rfl

/-- Logging the keys of a traversal changes nothing else. -/
theorem visitAll_foldAccepted_logging (accepts : σ → String → σ × Bool) (f : Filtering σ)
    (asked : List String) (pairs : List Pair) :
    (visitAll (foldAccepted (logging accepts)) (f.withLog asked) pairs).1 =
      (visitAll (foldAccepted accepts) f pairs).1.withLog
        ((pairs.map Prod.fst).reverse ++ asked) := by
  induction pairs generalizing f asked with
  | nil => rfl
  | cons p rest ih =>
    rw [visitAll_foldAccepted_cons, visitAll_foldAccepted_cons, foldAccepted_logging, ih,
      List.map_cons, List.reverse_cons, List.append_assoc, List.singleton_append]

/-- A predicate is asked about every key once, in the order of the pairs. That it keeps them has no
  effect. -/
theorem fingerprint_logging (source : Source) (accepts : σ → String → σ × Bool) (state : σ) :
    source.fingerprint (logging accepts) (state, []) =
      ⟨((source.fingerprint accepts state).value.1, (source.fingerprint accepts state).value.2,
        (source.pairs.map Prod.fst).reverse), (source.fingerprint accepts state).events⟩ := by
  -- At first no key has been asked about.
  have h := visitAll_foldAccepted_logging accepts ⟨0, state, []⟩ [] source.pairs
  rw [List.append_nil] at h
  change Traced.mk _ _ = _
  simp only [traverse]
  rw [show (⟨0, (state, []), []⟩ : Filtering (σ × List String)) =
    Filtering.withLog ⟨0, state, []⟩ [] from rfl, h]
  rfl

end Source

/-! ### Main statement -/

/-- The events of a run are one for each source that populates a map, in the order of the actions.
  Its first number counts the pairs of the source, which are at least as many as the entries of the
  map and exactly as many if no key repeats. Its second number is the advertised size, on which
  neither the maps nor any fingerprint depends. The events of a filtered fingerprint are the
  rejected keys in the order of the pairs. The predicate is asked once about every pair, and each of
  them is either reported or folded. -/
theorem Workspace.events_account_for_pairs :
    (∀ (k : MapKind) (w : Workspace k) (steps : List (Register × Action)),
      (w.run steps).events =
          steps.filterMap (fun s => s.2.source?.map fun source =>
            .populated source.pairs.length source.size) ∧
        ∀ (n : Nat) (s : Register × Action) (source : Source), steps[n]? = some s →
          s.2.source? = some source →
          ∃ o : Observation k, (w.run steps).value.1[n]? = some o ∧
            o.map.size ≤ source.pairs.length ∧
            (o.map.size = source.pairs.length ↔ (source.pairs.map Prod.fst).Nodup)) ∧
    (∀ (k : MapKind) (w : Workspace k) (first second : List (Register × Action)),
      first.map (fun s => (s.1, s.2.plain)) = second.map (fun s => (s.1, s.2.plain)) →
        (w.run first).value = (w.run second).value) ∧
    (∀ (σ : Type) (source other : Source) (accepts : σ → String → σ × Bool) (state : σ),
      source.pairs = other.pairs →
        source.fingerprint accepts state = other.fingerprint accepts state) ∧
    ∀ (σ : Type) (source : Source) (accepts : σ → String → σ × Bool) (state : σ),
      let run := source.fingerprint accepts state
      let logged := source.fingerprint (Source.logging accepts) (state, [])
      let answers := Source.answers accepts state source.pairs
      let rejected := (answers.filter fun a => !a.2).map Prod.fst
      let folded := (answers.filter fun a => a.2).map Prod.fst
      answers.map Prod.fst = source.pairs ∧
        run.events = rejected.map (fun p => .skipped p.1) ∧
        run.value.1 = Source.foldPairs 0 folded ∧
        logged.events = run.events ∧ logged.value.1 = run.value.1 ∧
        logged.value.2.2.reverse = source.pairs.map Prod.fst ∧
        logged.value.2.2.length = run.events.length + folded.length := by
  refine ⟨?_, ?_, ?_, ?_⟩
  · -- The events of a run and the sizes of its maps.
    intro k w steps
    refine ⟨events_run w steps, ?_⟩
    intro n s source hs hsource
    obtain ⟨o, ho, hmap⟩ := observation_of_source? w hs hsource
    have hkeys : (source.pairs.map (writeOf (k := k))).map Prod.fst = source.pairs.map Prod.fst :=
      List.map_map
    have hle := size_ofList_le (source.pairs.map (writeOf (k := k)))
    have hiff := size_ofList_eq_iff (source.pairs.map (writeOf (k := k)))
    rw [List.length_map, ← hmap] at hle
    rw [List.length_map, ← hmap, hkeys] at hiff
    exact ⟨o, ho, hle, hiff⟩
  · -- Advertised sizes in a run.
    intro k w first second h
    rw [← value_run_plain, h, value_run_plain]
  · -- Advertised sizes of filtered sources.
    intro σ source other accepts state h
    rw [Source.fingerprint, Source.fingerprint, Source.traverse, Source.traverse, h]
  · -- The answers of a predicate: what is rejected is reported, and what is accepted is folded.
    intro σ source accepts state run logged answers rejected folded
    have hpairs : answers.map Prod.fst = source.pairs := Source.map_fst_answers ..
    have hfolded : Source.accepted accepts state source.pairs = folded :=
      Source.accepted_eq_map_filter ..
    have hevents : run.events = rejected.map fun p => .skipped p.1 := by
      rw [Source.events_fingerprint, Source.rejected, List.map_map, List.map_map]
      rfl
    have hseed : run.value.1 = Source.foldPairs 0 folded := by
      rw [← hfolded]
      exact Source.seed_fingerprint source accepts state
    have hlogged : logged = ⟨(run.value.1, run.value.2, (source.pairs.map Prod.fst).reverse),
        run.events⟩ := Source.fingerprint_logging source accepts state
    have hsplit : source.pairs.length = run.events.length + folded.length := by
      rw [Source.events_fingerprint, List.length_map, ← hfolded,
        Source.length_rejected_add_length_accepted]
    rw [hlogged]
    refine ⟨hpairs, hevents, hseed, rfl, rfl, List.reverse_reverse _, ?_⟩
    rw [List.length_reverse, List.length_map, hsplit]

/-- A source that advertises nine pairs and repeats a key, beside one that advertises none, and a
  predicate that accepts only the first key that it is asked about. -/
theorem Workspace.events_account_for_pairs_of_repeated_key :
    let pairs : List Pair :=
      [("a", .scalar .int32 1), ("b", .scalar .text ""), ("a", .scalar .bool true)]
    let first : List (Register × Action) := [(2, .new), (0, .ofSource (.custom pairs 9)),
      (1, .ofOptional none)]
    let second : List (Register × Action) := [(2, .new), (0, .ofSource (.custom pairs 0)),
      (1, .ofOptional none)]
    let accepts : Nat → String → Nat × Bool := fun asked _ => (asked + 1, decide (asked < 1))
    ((empty : Workspace .text).run first).events = [.populated 3 9] ∧
      (∃ o : Observation .text, ((empty : Workspace .text).run first).value.1[1]? = some o ∧
        o.map.size ≤ 3 ∧ o.map.size ≠ 3) ∧
      ((empty : Workspace .text).run first).value = ((empty : Workspace .text).run second).value ∧
      (Source.custom pairs 9).fingerprint accepts 0 = (Source.list pairs).fingerprint accepts 0 ∧
      ((Source.custom pairs 9).fingerprint accepts 0).events = [.skipped "b", .skipped "a"] := by
  intro pairs first second accepts
  obtain ⟨hruns, hsizes, hhints, hfiltered⟩ := events_account_for_pairs
  refine ⟨(hruns .text empty first).1, ?_, hsizes .text empty first second rfl,
    hhints Nat (.custom pairs 9) (.list pairs) accepts 0 rfl,
    (hfiltered Nat (.custom pairs 9) accepts 0).2.1⟩
  obtain ⟨o, ho, hle, hiff⟩ :=
    (hruns .text empty first).2 1 (0, .ofSource (.custom pairs 9)) (.custom pairs 9) rfl rfl
  exact ⟨o, ho, hle, fun heq => absurd (hiff.1 heq) (by decide)⟩

end Telemetry
