import Mathlib.Logic.Function.Basic
import Telemetry.Proofs.Map.Writes
import Telemetry.Workspace
/-!
# Ledgers of workspaces

A ledger keeps, for every register, the writes since the map of the register was last replaced. It
knows nothing of maps: an action that writes appends to a list, one that replaces a map starts a
list anew, and a copy copies a list. The maps of a workspace are those that the ledger fills.
-/

namespace Telemetry

variable {k : MapKind}

open AttributeMap SortedMap

/-! ### Ledgers -/

/-- The writes into every register since its map was last replaced, the latest one last. -/
abbrev Ledger (k : MapKind) := Register → List (String × k.Held)

namespace Ledger

/-- Nothing has been written. -/
def empty : Ledger k := fun _ => []

/-- The ledger behind one action. -/
def record (l : Ledger k) (r : Register) : Workspace.Action → Ledger k
  | .new => Function.update l r []
  | .ofSource source => Function.update l r (source.pairs.map writeOf)
  | .ofOptional none => Function.update l r []
  | .ofOptional (some source) => Function.update l r (source.pairs.map writeOf)
  | .collect pairs => Function.update l r (pairs.map writeOf)
  | .extend pairs => Function.update l r (l r ++ pairs.map writeOf)
  | .set key value => Function.update l r (l r ++ [(key, k.hold value)])
  | .decode text =>
    match writes? text with
    | some writes => Function.update l r writes
    | none => l
  | .clone target => Function.update l target (l r)
  | .get _ | .contains _ | .entries | .keys | .encode | .compare _ => l

/-- The ledger of a run. -/
def of (steps : List (Register × Workspace.Action)) : Ledger k :=
  steps.foldl (fun l s => l.record s.1 s.2) empty

end Ledger

namespace Workspace

/-- The register that an action may write. -/
def Action.target? (r : Register) : Action → Option Register
  | .get _ | .contains _ | .entries | .keys | .encode | .compare _ => none
  | .clone target => some target
  | .new | .ofSource _ | .ofOptional _ | .collect _ | .extend _ | .set .. | .decode _ => some r

/-- The registers after a run. -/
def after (w : Workspace k) (steps : List (Register × Action)) : Workspace k :=
  (w.run steps).value.2

@[simp] theorem after_nil (w : Workspace k) : w.after [] = w := rfl

@[simp] theorem after_cons (w : Workspace k) (s : Register × Action)
    (steps : List (Register × Action)) :
    w.after (s :: steps) = (w.perform s.1 s.2).value.2.after steps := rfl

/-- Putting a map changes one register. -/
theorem get_put (w : Workspace k) (t q : Register) (m : AttributeMap k) :
    (w.put t m).get q = Function.update w.get t m q := by
  show (w.put t m)[q] = Function.update (fun q : Register => w[q]) t m q
  rw [Function.update_apply]
  by_cases hq : q = t
  · subst hq
    simp [put]
  · have hne : t.val ≠ q.val := fun h => hq (Fin.ext h.symm)
    simp [put, hq, hne]

/-- A text that is not read is rejected and changes nothing. -/
theorem perform_decode_of_eq_none (w : Workspace k) (r : Register) {text : String}
    (h : decode? (k := k) text = none) : w.perform r (.decode text) = pure (.rejected, w) := by
  simp only [perform, h]

/-- A text that is read replaces the map. -/
theorem perform_decode_of_eq_some (w : Workspace k) (r : Register) {text : String}
    {m : AttributeMap k} (h : decode? text = some m) :
    w.perform r (.decode text) = pure (.done, w.put r m) := by
  simp only [perform, h]

/-! ### Runs and their ledgers -/

/-- Every register holds the map that its writes fill. -/
def Holds (w : Workspace k) (l : Ledger k) : Prop :=
  ∀ q : Register, w.get q = SortedMap.ofList (l q)

/-- At first all registers hold the map of no writes. -/
theorem holds_empty : (empty : Workspace k).Holds Ledger.empty := by
  intro q
  show (Vector.replicate 4 SortedMap.empty)[q] = SortedMap.ofList []
  simp [SortedMap.ofList, SortedMap.insertMany]

/-- Putting the map of some writes starts them anew in the ledger. -/
theorem Holds.put {w : Workspace k} {l : Ledger k} (h : w.Holds l) (t : Register)
    {m : AttributeMap k} {writes : List (String × k.Held)} (hm : m = SortedMap.ofList writes) :
    (w.put t m).Holds (Function.update l t writes) := by
  intro q
  rw [get_put, Function.update_apply, Function.update_apply]
  split
  · exact hm
  · exact h q

/-- One action keeps the maps of a workspace in step with its ledger. -/
theorem Holds.perform {w : Workspace k} {l : Ledger k} (h : w.Holds l) (r : Register)
    (a : Action) : (w.perform r a).value.2.Holds (l.record r a) := by
  -- What is written into a register goes on from the writes that the register holds.
  have hextend (writes : List (String × k.Held)) :
      (w.get r).insertMany writes = SortedMap.ofList (l r ++ writes) := by
    rw [h r, SortedMap.ofList, SortedMap.ofList, SortedMap.insertMany_append]
  cases a with
  | new => exact h.put r rfl
  | ofSource source => exact h.put r (value_ofSource source)
  | ofOptional source =>
    cases source with
    | none => exact h.put r rfl
    | some source => exact h.put r (value_ofSource source)
  | collect pairs => exact h.put r (collect_eq_ofList pairs)
  | extend pairs =>
    refine h.put r ?_
    rw [extend_eq_insertMany]
    exact hextend _
  | set key value => exact h.put r (hextend [(key, k.hold value)])
  -- The ledger follows the text only if it is read.
  | decode text =>
    have hd := decode?_eq_map_writes? (k := k) text
    simp only [Ledger.record]
    cases hwrites : writes? (k := k) text with
    | none =>
      rw [hwrites] at hd
      rw [perform_decode_of_eq_none w r hd]
      exact h
    | some writes =>
      rw [hwrites] at hd
      rw [perform_decode_of_eq_some w r hd]
      exact h.put r rfl
  | clone target => exact h.put target (h r)
  | get | contains | entries | keys | encode | compare => exact h

/-- After a run the registers hold the maps of the ledger. -/
theorem Holds.after {w : Workspace k} {l : Ledger k} (h : w.Holds l)
    (steps : List (Register × Action)) :
    (w.after steps).Holds (steps.foldl (fun l s => l.record s.1 s.2) l) := by
  induction steps generalizing w l with
  | nil => exact h
  | cons s rest ih => exact ih (h.perform s.1 s.2)

/-- After every run each register holds the map of its writes. -/
theorem after_eq_ofList (steps : List (Register × Action)) (q : Register) :
    ((empty : Workspace k).after steps).get q = SortedMap.ofList (Ledger.of steps q) :=
  holds_empty.after steps q

/-- After every run each register answers like its writes. -/
theorem answers_after (steps : List (Register × Action)) (q : Register) :
    (((empty : Workspace k).after steps).get q).Answers (Ledger.of steps q) := by
  rw [after_eq_ofList]
  exact answers_ofList _

/-! ### What an action leaves alone -/

/-- An action changes no register but its target. -/
theorem get_perform_of_ne_target {w : Workspace k} {r q : Register} {a : Action}
    (h : a.target? r ≠ some q) : (w.perform r a).value.2.get q = w.get q := by
  -- All actions that write put a map into their target.
  have hput {t : Register} {m : AttributeMap k} (ht : some t ≠ some q) :
      (w.put t m).get q = w.get q := by
    rw [get_put, Function.update_of_ne fun hq => ht (congrArg some hq.symm)]
  cases a with
  | new | ofSource | ofOptional | collect | extend | set | clone => exact hput h
  | decode text =>
    cases hd : decode? (k := k) text with
    | none => rw [perform_decode_of_eq_none w r hd, Traced.value_pure]
    | some m =>
      rw [perform_decode_of_eq_some w r hd]
      exact hput h
  | get | contains | entries | keys | encode | compare => rfl

/-- A run that never addresses a register leaves it alone. -/
theorem get_after_of_ne_target {w : Workspace k} {q : Register}
    {steps : List (Register × Action)} (h : ∀ s ∈ steps, s.2.target? s.1 ≠ some q) :
    (w.after steps).get q = w.get q := by
  induction steps generalizing w with
  | nil => rfl
  | cons s rest ih =>
    rw [after_cons, ih fun s hs => h s (List.mem_cons_of_mem _ hs)]
    exact get_perform_of_ne_target (h s List.mem_cons_self)

/-- A copy and its original hold the same map. -/
theorem get_perform_clone (w : Workspace k) (r target : Register) :
    (w.perform r (.clone target)).value.2.get target = w.get r ∧
      (w.perform r (.clone target)).value.2.get r = w.get r := by
  have hput (q : Register) : (w.perform r (.clone target)).value.2.get q =
      Function.update w.get target (w.get r) q := get_put w target q (w.get r)
  rw [hput, hput, Function.update_self, Function.update_apply]
  exact ⟨rfl, by split <;> rfl⟩

/-! ### Observations -/

/-- A read reports what the last writes of a list determine. Nothing is asked of other actions. -/
def Result.Agrees (writes : List (String × k.Held)) : Action → Result k → Prop
  | .get key, result => result = .value (lastWrite writes key)
  | .contains key, result => result = .answer (lastWrite writes key).isSome
  | .entries, result =>
    ∃ entries, result = .entries entries ∧ (entries.map Prod.fst).Nodup ∧
      ∀ key held, (key, held) ∈ entries ↔ lastWrite writes key = some held
  | .keys, result =>
    ∃ keys, result = .keys keys ∧ keys.Nodup ∧ ∀ key, key ∈ keys ↔ (lastWrite writes key).isSome
  | _, _ => True

/-- What an action observes agrees with the last writes. -/
theorem agrees_perform {w : Workspace k} {r : Register} {writes : List (String × k.Held)}
    (h : (w.get r).Answers writes) (a : Action) : (w.perform r a).value.1.Agrees writes a := by
  cases a with
  | get key => exact congrArg Result.value (h.get? key)
  | contains key =>
    refine congrArg Result.answer ?_
    rw [← h.get?]
    exact h.contains key
  | entries => exact ⟨(w.get r).entries, rfl, h.nodup, h.entries⟩
  | keys =>
    refine ⟨(w.get r).keys, rfl, h.nodup, ?_⟩
    intro key
    rw [SortedMap.mem_keys_iff, h.get?]
  | new | ofSource | ofOptional | collect | extend | set | encode | decode | clone | compare =>
    trivial

/-- The observation after each action: its result on the registers before it, and the map of its
  register after it. -/
theorem getElem?_observations (w : Workspace k) (steps : List (Register × Action)) (n : Nat) :
    (w.run steps).value.1[n]? = steps[n]?.map fun s =>
      ⟨((w.after (steps.take n)).perform s.1 s.2).value.1,
        (w.after (steps.take (n + 1))).get s.1⟩ := by
  -- The registers before a step are those after the steps in front of it.
  induction steps generalizing w n with
  | nil => rfl
  | cons s rest ih =>
    cases n with
    | zero => rfl
    | succ n => exact ih (w.perform s.1 s.2).value.2 n

/-! ### Main statements -/

/-- After every run from empty registers, and thus after every action of a longer one, each
  register answers like the last writes since its map was replaced, and so do the reads of the run.
  An action changes its target only, what is done to a copy or to its original later on leaves the
  other one alone, and a rejected text changes nothing. -/
theorem run_answers_lastWrite (k : MapKind) :
    (∀ steps (q : Register),
      (((empty : Workspace k).after steps).get q).Answers (Ledger.of steps q)) ∧
    (∀ (steps : List (Register × Action)) n s, steps[n]? = some s →
      ∃ o : Observation k, ((empty : Workspace k).run steps).value.1[n]? = some o ∧
        o.result.Agrees (Ledger.of (steps.take n) s.1) s.2 ∧
        o.map.Answers (Ledger.of (steps.take (n + 1)) s.1)) ∧
    (∀ (w : Workspace k) r q (a : Action), a.target? r ≠ some q →
      (w.perform r a).value.2.get q = w.get q) ∧
    (∀ (w : Workspace k) r target steps q, q = r ∨ q = target →
      (∀ s ∈ steps, s.2.target? s.1 ≠ some q) →
        ((w.perform r (.clone target)).value.2.after steps).get q = w.get r) ∧
    ∀ (w : Workspace k) r text, decode? (k := k) text = none →
      w.perform r (.decode text) = pure (.rejected, w) := by
  refine ⟨answers_after, ?_, ?_, ?_, ?_⟩
  · -- What a step observes.
    intro steps n s hs
    refine ⟨_, by rw [getElem?_observations, hs]; rfl, ?_, answers_after _ s.1⟩
    exact agrees_perform (answers_after _ s.1) s.2
  · -- What an action leaves alone.
    intro w r q a ha
    exact get_perform_of_ne_target ha
  · -- A copy and its original, of which one may be written to later on.
    intro w r target steps q hq hsteps
    rw [get_after_of_ne_target hsteps]
    rcases hq with rfl | rfl
    · exact (get_perform_clone w q target).2
    · exact (get_perform_clone w r q).1
  · -- A rejected text.
    intro w r text htext
    exact perform_decode_of_eq_none w r htext

/-- A copy that is written to later on leaves its original alone, which a read of the original
  shows, and a text that breaks off is rejected. -/
theorem run_answers_lastWrite_after_clone :
    (∃ o : Observation .ordered,
      (empty.run [(0, .set "a" (.scalar .int32 1)), (0, .clone 1), (1, .set "a" (.scalar .int32 2)),
        (0, .get "a")]).value.1[3]? = some o ∧
      o.result.Agrees [("a", StoredValue.scalar .int32 1)] (.get "a") ∧
      o.map.Answers [("a", StoredValue.scalar .int32 1)]) ∧
    ((empty : Workspace .text).perform 2 (.clone 1)).value.2.get 3 = SortedMap.empty ∧
    (((empty : Workspace .text).perform 2 (.clone 1)).value.2.after
      [(1, .set "a" (.scalar .bool true))]).get 2 = (empty : Workspace .text).get 2 ∧
    (empty : Workspace .unordered).perform 0 (.decode "[") = pure (.rejected, empty) := by
  refine ⟨?_, ?_, ?_, ?_⟩
  · exact (run_answers_lastWrite .ordered).2.1 [(0, .set "a" (.scalar .int32 1)), (0, .clone 1),
      (1, .set "a" (.scalar .int32 2)), (0, .get "a")] 3 (0, .get "a") rfl
  · exact (run_answers_lastWrite .text).2.2.1 empty 2 3 (.clone 1) (by decide)
  · exact (run_answers_lastWrite .text).2.2.2.1 empty 2 1 [(1, .set "a" (.scalar .bool true))] 2
      (Or.inl rfl) (by simp [Action.target?])
  · exact (run_answers_lastWrite .unordered).2.2.2.2 empty 0 "[" rfl

/-- Two histories of ordered maps, over any registers, in which every key has the same last write
  lead to the same entries, which are in strict key order, to the same fingerprint and to the same
  JSON text. -/
theorem ordered_map_eq_of_lastWrite_eq (first second : List (Register × Action)) (q r : Register)
    (h : ∀ key, lastWrite (Ledger.of (k := .ordered) first q) key =
      lastWrite (Ledger.of (k := .ordered) second r) key) :
    let m : AttributeMap .ordered := (empty.after first).get q
    let n : AttributeMap .ordered := (empty.after second).get r
    m.entries = n.entries ∧ SortedMap.InOrder m.entries ∧ m.keys.Nodup ∧
      m.fingerprint = n.fingerprint ∧ m.encode = n.encode := by
  intro m n
  have heq : m = n := by
    apply SortedMap.eq_of_get?_eq
    intro key
    rw [(answers_after first q).get?, (answers_after second r).get?, h key]
  exact ⟨congrArg _ heq, m.inOrder, m.nodup_keys, congrArg _ heq, congrArg _ heq⟩

/-- A key that is written twice between two writes of another one, and the two last writes as a
  list that is collected and copied. -/
theorem ordered_map_eq_of_overwrites :
    let first : List (Register × Action) := [(0, .set "é" (.scalar .int32 1)),
      (0, .set "z" (.scalar .double ⟨true, 0, 0⟩)), (0, .set "é" (.scalar .text "b"))]
    let second : List (Register × Action) := [(1, .collect [("é", .scalar .text "b"),
      ("z", .scalar .double ⟨true, 0, 0⟩)]), (1, .clone 3), (1, .new)]
    (∀ key, lastWrite (Ledger.of (k := .ordered) first 0) key =
      lastWrite (Ledger.of (k := .ordered) second 3) key) ∧
    let m : AttributeMap .ordered := (empty.after first).get 0
    let n : AttributeMap .ordered := (empty.after second).get 3
    m.entries = n.entries ∧ SortedMap.InOrder m.entries ∧ m.keys.Nodup ∧
      m.fingerprint = n.fingerprint ∧ m.encode = n.encode := by
  intro first second
  have h : ∀ key, lastWrite (Ledger.of (k := .ordered) first 0) key =
      lastWrite (Ledger.of (k := .ordered) second 3) key := by
    intro key
    change List.lookup key [("é", _), ("z", _), ("é", _)] = List.lookup key [("z", _), ("é", _)]
    simp only [lookup_cons_eq_ite]
    by_cases hz : key = "z"
    · simp [hz]
    · by_cases he : key = "é" <;> simp [hz, he]
  exact ⟨h, ordered_map_eq_of_lastWrite_eq first second 0 3 h⟩

end Workspace

end Telemetry
