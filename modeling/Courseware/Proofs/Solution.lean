import Courseware.Proofs.Monotone
import Mathlib.Logic.Relation

/-!
# Access as the solution of its equations

What a group has on an item is due to the grants and to what the group has on the wholes of the item:
one equation for every pair, and as no item is part of itself there is only one solution
(`tiersOf_eq_of_solves`). Working out permissions finds it, whatever was stored before, if all pairs
that do not solve their equation are to be recomputed, and it would find it in whatever order the
marks were taken (`Turn`). After that there is nothing left to change (`Calm`).
-/

namespace Courseware

namespace Worklist

variable {κ : Type} [DecidableEq κ] [Key κ]

/-- The worklist without one of its marks. -/
def unmark (w : Worklist κ) (k : κ) (m : Mark) : Worklist κ := w.setMarked m ((w.marked m).erase k)

theorem mem_itself_unmark {w : Worklist κ} {k a : κ} :
    a ∈ Table.keys (w.unmark k .itself).itself ↔ a ∈ Table.keys w.itself ∧ a ≠ k :=
  Table.mem_keys_erase

theorem mem_children_unmark {w : Worklist κ} {k a : κ} :
    a ∈ Table.keys (w.unmark k .children).children ↔ a ∈ Table.keys w.children ∧ a ≠ k :=
  Table.mem_keys_erase

end Worklist

namespace PermissionRun

open Store

variable {P : Store → Pair → Prop} {now : Timestamp} {r t : PermissionRun}

/-! ### Marks in any order -/

/-- One mark is taken: a marked pair is recomputed, or one that changed marks its heirs. -/
inductive Turn (now : Timestamp) : PermissionRun → PermissionRun → Prop where
  | recompute {r : PermissionRun} {pair : Pair} : r.worklist.isMarked pair .itself = true →
      Turn now r (visit now { r with worklist := r.worklist.unmark pair .itself } pair)
  | spread {r : PermissionRun} {pair : Pair} : r.worklist.isMarked pair .children = true →
      Turn now r (spread { r with worklist := r.worklist.unmark pair .children } pair)

theorem Underway.turn (hlaw : PairLaw now P) (h : Underway P r) (hturn : Turn now r t) :
    Underway P t := by
  cases hturn with
  | @recompute pair _ =>
    refine ⟨h.layered.recomputePair pair now, h.filled.recomputePair pair now, fun q => ?_⟩
    by_cases hself : q = pair
    · exact Or.inr (Or.inr (hself ▸ hlaw.visit h.layered h.filled))
    · refine (h.covered q).imp (fun hmem => ?_) fun hq => ?_
      · have hkept := Worklist.mem_itself_unmark.2 ⟨hmem, hself⟩
        rw [visit_worklist]
        split
        · exact hkept
        · exact hkept
      · exact HeirOr.visit (r := { r with worklist := r.worklist.unmark pair .itself }) hlaw
          h.layered h.filled hself hq
  | @spread pair _ =>
    refine ⟨h.layered, h.filled, fun q => ?_⟩
    have hitself : ∀ p, p ∈ Table.keys (PermissionRun.spread
        { r with worklist := r.worklist.unmark pair .children } pair).worklist.itself ↔
          p ∈ heirs r.store pair ∨ p ∈ Table.keys r.worklist.itself := by
      intro p
      rw [PermissionRun.spread, Worklist.extend_itself]
      exact KeySet.mem_keys_addAll
    rcases h.covered q with hmem | ⟨p, hp, hheir⟩ | hP
    · exact Or.inl ((hitself q).2 (Or.inr hmem))
    · by_cases hself : p = pair
      · exact Or.inl ((hitself q).2 (Or.inl (hself ▸ hheir)))
      · refine Or.inr (Or.inl ⟨p, ?_, hheir⟩)
        rw [PermissionRun.spread, Worklist.extend_itself]
        exact Worklist.mem_children_unmark.2 ⟨hp, hself⟩
    · exact Or.inr (Or.inr hP)

/-- In whatever order marks are taken: when none is left, all pairs have the property. -/
theorem Underway.turns (hlaw : PairLaw now P) (h : Underway P r)
    (hturns : Relation.ReflTransGen (Turn now) r t) (hempty : t.worklist.isEmpty = true) (q : Pair) :
    P t.store q := by
  have hend : Underway P t := by
    clear hempty
    induction hturns with
    | refl => exact h
    | tail _ hturn ih => exact ih.turn hlaw hturn
  exact hend.holds hempty q

theorem Turn.frame (h : Turn now r t) : ∃ gen, t.store = { r.store with generated := gen } := by
  cases h with
  | @recompute pair _ => exact recomputePair_frame r.store pair now
  | spread _ => exact ⟨r.store.generated, rfl⟩

theorem turns_frame (h : Relation.ReflTransGen (Turn now) r t) :
    ∃ gen, t.store = { r.store with generated := gen } := by
  induction h with
  | refl => exact ⟨r.store.generated, rfl⟩
  | tail _ hturn ih =>
    obtain ⟨gen, hgen⟩ := hturn.frame
    obtain ⟨old, hold⟩ := ih
    exact ⟨gen, by rw [hgen, hold]⟩

/-! ### Nothing left to change -/

/-- Only pairs that have what they are due are looked at, so none is told as changed. -/
structure Calm (domain : Pair → Prop) (s : Store) (now : Timestamp) (r : PermissionRun) : Prop
    extends Confined domain s r where
  layered : r.store.Layered
  filled : r.store.RowsFilled
  exact : ∀ q, domain q → r.store.PairExact now q
  changed : r.outcome.changed = ∅

variable {domain : Pair → Prop} {s : Store}

theorem Calm.visit {pair : Pair} (hpair : domain pair) (h : Calm domain s now r) :
    Calm domain s now (r.visit now pair) := by
  have hsame : (r.store.recomputePair pair now).1 = false := by
    rw [(recomputePair_spec h.filled pair now).1, decide_eq_false_iff_not, not_not]
    exact (h.exact pair hpair).tiers
  refine { h.toConfined.visit hpair with
    layered := h.layered.recomputePair pair now
    filled := h.filled.recomputePair pair now
    exact := fun q hq => ?_
    changed := ?_ }
  · by_cases hself : q = pair
    · exact hself ▸ (pairLaw_pairExact now).visit h.layered h.filled
    · exact (pairLaw_pairExact now).keep h.layered h.filled hself
        (fun hchanged => absurd hchanged (by simp [hsame])) (h.exact q hq)
  · simp only [PermissionRun.visit, hsame]
    exact h.changed

theorem Calm.visits {pairs : List Pair} (hpairs : ∀ p ∈ pairs, domain p)
    (h : Calm domain s now r) : Calm domain s now (pairs.foldl (PermissionRun.visit now) r) := by
  induction pairs generalizing r with
  | nil => exact h
  | cons pair rest ih =>
    exact ih (fun p hp => hpairs p (List.mem_cons_of_mem _ hp))
      (h.visit (hpairs pair List.mem_cons_self))

theorem Calm.pass (hheirs : ∀ p q, domain p → q ∈ heirs s p → domain q)
    (h : Calm domain s now r) : Calm domain s now (r.pass now) := by
  have hvisited : Calm domain s now ((Table.keys r.worklist.itself).foldl (PermissionRun.visit now)
      { r with worklist := r.worklist.setMarked .itself ∅ }) :=
    Calm.visits h.itself
      { h with itself := fun p hp => absurd hp List.not_mem_nil, children := h.children }
  refine { h.toConfined.pass hheirs with layered := ?_, filled := ?_, exact := ?_, changed := ?_ }
  · rw [pass_store]
    exact hvisited.layered
  · rw [pass_store]
    exact hvisited.filled
  · rw [pass_store]
    exact hvisited.exact
  · rw [pass_outcome]
    exact hvisited.changed

end PermissionRun

namespace Store

variable {s t : Store} {w : Worklist Pair} {now : Timestamp}

/-- The pair is one of a stored group and a stored item. -/
def HasPair (s : Store) (q : Pair) : Prop :=
  s.groups.contains q.1 = true ∧ s.items.contains q.2 = true

theorem HasPair.heir {p q : Pair} (h : s.HasPair p) (hheir : q ∈ PermissionRun.heirs s p) :
    s.HasPair q := by
  obtain ⟨hgroup, -, -, row, -, -, -, hrow⟩ := mem_heirs.1 hheir
  exact ⟨hgroup ▸ h.1, Table.contains_of_get? hrow⟩

/-- There is at most one way for all pairs to have what they are due. -/
theorem tiersOf_eq_of_solves {u : Store} (hlayered : s.Layered)
    (ht : ∃ gen, t = { s with generated := gen }) (hu : ∃ gen, u = { s with generated := gen })
    (htdue : ∀ q, s.HasPair q → t.tiersOf q = t.dueTiers q now)
    (hudue : ∀ q, s.HasPair q → u.tiersOf q = u.dueTiers q now) {q : Pair} (hq : s.HasPair q) :
    u.tiersOf q = t.tiersOf q := by
  obtain ⟨gen, rfl⟩ := ht
  obtain ⟨gen', rfl⟩ := hu
  exact tiersOf_unique_on (K := fun item => s.items.contains item = true)
    (s := { s with generated := gen }) (t := { s with generated := gen' })
    (hlayered.congr rfl rfl) rfl rfl rfl rfl (fun _ _ hlink _ => (hlayered.links _ hlink).1)
    (fun item hitem => htdue (q.1, item) ⟨hq.1, hitem⟩)
    (fun item hitem => hudue (q.1, item) ⟨hq.1, hitem⟩) hq.2

/-- Where all pairs have what they are due, working out permissions changes nothing. -/
theorem changed_propagatePermissions (hlayered : s.Layered) (hfilled : s.RowsFilled)
    (hexact : ∀ q, s.HasPair q → s.PairExact now q)
    (hmarks : ∀ q m, w.isMarked q m = true → s.HasPair q) {r : PermissionRun}
    (hends : PermissionRun.Ends now ⟨s, w, .none⟩ r) : r.outcome.changed = ∅ := by
  have hcalm : PermissionRun.Calm s.HasPair s now ⟨s, w, .none⟩ :=
    { frame := ⟨s.generated, rfl⟩
      itself := fun p hp => hmarks p .itself (Table.mem_keys.1 hp)
      children := fun p hp => hmarks p .children (Table.mem_keys.1 hp)
      same := fun _ _ => rfl
      layered := hlayered
      filled := hfilled
      exact := hexact
      changed := rfl }
  exact (hends.keeps (fun _ hr => hr.pass fun _ _ hp hheir => hp.heir hheir) hcalm).changed

/-- Working out permissions finds the only solution there is, if all pairs that do not have what they
are due are to be recomputed: it comes to an end, all pairs then have what they are due, nothing else
is touched, and any other order of taking the marks ends with the same tiers. Another time, whatever
is marked, no pair changes. -/
theorem propagatePermissions_solves (hlayered : s.Layered) (hfilled : s.RowsFilled)
    (hothers : ∀ q, s.HasPair q → s.Awaits w q ∨ s.PairExact now q) :
    ∃ r, PermissionRun.Ends now ⟨s, w, .none⟩ r ∧
      s.propagatePermissions w now = (r.outcome, r.store) ∧
      (∃ gen, r.store = { s with generated := gen }) ∧
      r.store.AllExact now ∧
      (∀ gen, (∀ q, s.HasPair q → { s with generated := gen }.tiersOf q =
          { s with generated := gen }.dueTiers q now) →
        ∀ q, s.HasPair q → { s with generated := gen }.tiersOf q = r.store.tiersOf q) ∧
      (∀ t, Relation.ReflTransGen (PermissionRun.Turn now) ⟨s, w, .none⟩ t →
        t.worklist.isEmpty = true → ∀ q, s.HasPair q → t.store.tiersOf q = r.store.tiersOf q) ∧
      ∀ w', (∀ q m, w'.isMarked q m = true → s.HasPair q) →
        ∃ r', PermissionRun.Ends now ⟨r.store, w', .none⟩ r' ∧
          r.store.propagatePermissions w' now = (r'.outcome, r'.store) ∧
          r'.outcome.changed = ∅ := by
  have hlaw := (pairLaw_pairExact now).restrict s.HasPair
  have hcovered : ∀ q, s.Awaits w q ∨ (s.HasPair q → s.PairExact now q) := by
    intro q
    by_cases hq : s.HasPair q
    · exact (hothers q hq).imp_right fun h _ => h
    · exact Or.inr fun h => absurd h hq
  obtain ⟨r, hends, heq, hexact⟩ := hlaw.ends hlayered hfilled hcovered
  have hframe : ∃ gen, r.store = { s with generated := gen } := by
    have hstore := propagatePermissions_frame s w now
    rwa [heq] at hstore
  have hrfilled : r.store.RowsFilled := by
    have hstore := hfilled.propagatePermissions w now
    rwa [heq] at hstore
  have hdue : ∀ q, s.HasPair q → r.store.tiersOf q = r.store.dueTiers q now :=
    fun q hq => (hexact q hq).tiers
  have hrlayered : r.store.Layered := by
    obtain ⟨gen, hgen⟩ := hframe
    exact hlayered.congr (by rw [hgen]) (by rw [hgen])
  have hpair : ∀ q, r.store.HasPair q ↔ s.HasPair q := by
    obtain ⟨gen, hgen⟩ := hframe
    intro q
    rw [HasPair, HasPair, hgen]
  refine ⟨r, hends, heq, hframe,
    fun group hgroup item hitem => hexact (group, item) ((hpair _).1 ⟨hgroup, hitem⟩),
    fun gen hgen q hq => tiersOf_eq_of_solves hlayered hframe ⟨gen, rfl⟩ hdue hgen hq,
    fun t hturns hempty q hq => ?_, fun w' hmarks => ?_⟩
  · have hunderway : PermissionRun.Underway (fun s' q => s.HasPair q → s'.PairExact now q)
        ⟨s, w, .none⟩ := by
      refine ⟨hlayered, hfilled, fun q => ?_⟩
      rw [PermissionRun.HeirOr, ← or_assoc]
      simp only [Table.mem_keys]
      exact hcovered q
    exact tiersOf_eq_of_solves hlayered hframe (PermissionRun.turns_frame hturns) hdue
      (fun q hq => (hunderway.turns hlaw hturns hempty q hq).tiers) hq
  · obtain ⟨r', hends', heq', -⟩ := hlaw.ends (w := w') hrlayered hrfilled
      fun q => Or.inr (hexact q)
    exact ⟨r', hends', heq', changed_propagatePermissions hrlayered hrfilled
      (fun q hq => hexact q ((hpair q).1 hq)) (fun q m hm => (hpair q).2 (hmarks q m hm)) hends'⟩

end Store

namespace Session

open Store

/-- What a grant leads to, forgotten. -/
def forgotten : Store :=
  { ((start (.ofList []) .zero .standard).run partialGrant).committed with generated := ∅ }

/-- It is worked out again from the pairs that something is granted to. -/
theorem solves_forgotten :
    (forgotten.propagatePermissions (.ofKeys [(1, 10), (2, 10)]) .zero).2.AllExact .zero ∧
      (forgotten.propagatePermissions (.ofKeys [(1, 10), (2, 10)]) .zero).2.tiersOf (2, 11) ≠ ∅ := by
  have hothers : ∀ group ∈ forgotten.groups.keys, ∀ item ∈ forgotten.items.keys,
      (Worklist.ofKeys [(1, 10), (2, 10)]).isMarked (group, item) .itself = true ∨
        forgotten.PairExact .zero (group, item) := by
    decide +kernel
  have hlayered : forgotten.Layered :=
    ((anchored_run (.ofList []) .zero .standard partialGrant).toCoherent.setGenerated ∅).toLayered
  have hfilled : forgotten.RowsFilled := fun q g hg => absurd hg (by simp [forgotten])
  obtain ⟨r, -, heq, -, hexact, -⟩ := propagatePermissions_solves hlayered hfilled fun q hq =>
    (hothers q.1 (Table.mem_keys.2 hq.1) q.2 (Table.mem_keys.2 hq.2)).imp_left Or.inl
  refine ⟨?_, by decide +kernel⟩
  rw [heq]
  exact hexact

end Session

end Courseware
