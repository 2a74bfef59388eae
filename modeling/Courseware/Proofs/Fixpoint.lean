import Courseware.Proofs.Recompute

/-!
# Working out permissions to the end

What recomputing brings about for a pair, and does not spoil for pairs that it does not concern,
holds of all pairs in the end if it held of the unmarked ones at the beginning
(`PairLaw.propagate`): a pair that may have been spoiled is marked or about to be. The end is always
reached (`Store.ends_propagatePermissions`), since marks move down along links and no item is higher
than there are items.
-/

namespace Courseware

namespace Worklist

variable {κ : Type} [DecidableEq κ] [Key κ]

theorem extend_itself (w : Worklist κ) (keys : List κ) :
    w.extend keys .itself = { w with itself := KeySet.addAll w.itself keys } := by
  induction keys generalizing w with
  | nil => rfl
  | cons k rest ih => exact ih (w.mark k .itself)

theorem mem_itself_ofKeys {keys : List κ} {k : κ} :
    k ∈ Table.keys (ofKeys keys).itself ↔ k ∈ keys := by
  rw [ofKeys, extend_itself]
  exact KeySet.mem_keys_ofKeys

@[simp] theorem children_ofKeys (keys : List κ) : (ofKeys keys).children = ∅ := by
  rw [ofKeys, extend_itself]
  rfl

theorem isEmpty_iff {w : Worklist κ} :
    w.isEmpty = true ↔ (∀ k, k ∉ Table.keys w.itself) ∧ ∀ k, k ∉ Table.keys w.children := by
  rw [isEmpty, Bool.and_eq_true, Table.isEmpty_iff, Table.isEmpty_iff]
  simp only [Table.mem_keys, Bool.not_eq_true]

end Worklist

/-- Recomputing brings a property about for the pair and keeps it for all pairs but the heirs, for
these too if nothing changed. -/
structure PairLaw (now : Timestamp) (P : Store → Pair → Prop) : Prop where
  visit : ∀ {s : Store} {pair : Pair}, s.Layered → s.RowsFilled → P (s.recomputePair pair now).2 pair
  keep : ∀ {s : Store} {pair q : Pair}, s.Layered → s.RowsFilled → q ≠ pair →
    ((s.recomputePair pair now).1 = true → q ∉ PermissionRun.heirs s pair) → P s q →
    P (s.recomputePair pair now).2 q

/-- What a fresh row brings about, and what depends on no more than the row of the pair, what it is
due and who the ancestors are. -/
theorem PairLaw.of_fresh {now : Timestamp} {P : Store → Pair → Prop}
    (hfresh : ∀ s q, s.Fresh now q → P s q)
    (hcongr : ∀ (s t : Store) q, t.generated.get? q = s.generated.get? q →
      (∀ later, t.dueTiers q later = s.dueTiers q later) → t.ancestors = s.ancestors →
      P s q → P t q) : PairLaw now P where
  visit hlayered hfilled := hfresh _ _ (Store.fresh_recomputePair hlayered hfilled _ now)
  keep {s pair q} hlayered hfilled hne hheir h := by
    obtain ⟨gen, hgen⟩ := Store.recomputePair_frame s pair now
    exact hcongr s _ q (Store.get?_recomputePair_ne hne)
      (Store.dueTiers_recomputePair hlayered hfilled hheir) (by rw [hgen]) h

theorem PairLaw.restrict {now : Timestamp} {P : Store → Pair → Prop} (hlaw : PairLaw now P)
    (domain : Pair → Prop) : PairLaw now fun s q => domain q → P s q where
  visit hlayered hfilled _ := hlaw.visit hlayered hfilled
  keep hlayered hfilled hne hheir h hdomain := hlaw.keep hlayered hfilled hne hheir (h hdomain)

/-- A pair is to be recomputed: it is marked for it, or an heir of one that is marked to pass on its
change. -/
def Store.Awaits (s : Store) (w : Worklist Pair) (q : Pair) : Prop :=
  w.isMarked q .itself = true ∨
    ∃ p, w.isMarked p .children = true ∧ q ∈ PermissionRun.heirs s p

namespace PermissionRun

open Store

variable {P : Store → Pair → Prop} {s : Store} {now : Timestamp} {r t : PermissionRun} {q : Pair}

theorem visit_worklist (r : PermissionRun) (pair : Pair) :
    (r.visit now pair).worklist =
      if (r.store.recomputePair pair now).1 then r.worklist.mark pair .children else r.worklist :=
  rfl

theorem visit_store (r : PermissionRun) (pair : Pair) :
    (r.visit now pair).store = (r.store.recomputePair pair now).2 :=
  rfl

theorem mem_children_visit {pair p : Pair} :
    p ∈ Table.keys (r.visit now pair).worklist.children ↔
      ((r.store.recomputePair pair now).1 = true ∧ p = pair) ∨
        p ∈ Table.keys r.worklist.children := by
  rw [visit_worklist]
  cases (r.store.recomputePair pair now).1 with
  | false => simp
  | true =>
    simp only [if_true, true_and]
    exact KeySet.mem_keys_add

/-! ### The marks of a pass -/

theorem visitMarked_frame (now : Timestamp) (r : PermissionRun) :
    ∃ gen, (r.visitMarked now).store = { r.store with generated := gen } := by
  refine visits_keep (P := fun u => ∃ gen, u = { r.store with generated := gen }) ?_ _
    ⟨r.store.generated, rfl⟩
  rintro _ pair ⟨gen, rfl⟩
  obtain ⟨gen', h⟩ := recomputePair_frame { r.store with generated := gen } pair now
  exact ⟨gen', h⟩

theorem heirs_visitMarked (now : Timestamp) (r : PermissionRun) (p : Pair) :
    heirs (r.visitMarked now).store p = heirs r.store p := by
  obtain ⟨gen, hgen⟩ := r.visitMarked_frame now
  rw [hgen]
  exact heirs_congr rfl rfl p

theorem itself_visits (pairs : List Pair) (r : PermissionRun) :
    (pairs.foldl (visit now) r).worklist.itself = r.worklist.itself := by
  induction pairs generalizing r with
  | nil => rfl
  | cons pair rest ih =>
    rw [List.foldl_cons, ih, visit_worklist]
    split
    · rfl
    · rfl

theorem mem_children_visits {pairs : List Pair} {p : Pair}
    (h : p ∈ Table.keys (pairs.foldl (visit now) r).worklist.children) :
    p ∈ pairs ∨ p ∈ Table.keys r.worklist.children := by
  induction pairs generalizing r with
  | nil => exact Or.inr h
  | cons pair rest ih =>
    rcases ih h with hrest | hp
    · exact Or.inl (List.mem_cons_of_mem _ hrest)
    · rcases mem_children_visit.1 hp with ⟨-, rfl⟩ | hp
      · exact Or.inl List.mem_cons_self
      · exact Or.inr hp

theorem spreads_worklist (pairs : List Pair) (r : PermissionRun) :
    (pairs.foldl spread r).worklist =
      { r.worklist with
        itself := pairs.foldl (fun w p => KeySet.addAll w (heirs r.store p)) r.worklist.itself } := by
  induction pairs generalizing r with
  | nil => rfl
  | cons pair rest ih =>
    rw [List.foldl_cons, ih]
    simp only [spread, Worklist.extend_itself, List.foldl_cons]

theorem mem_keys_foldl_addAll {pairs : List Pair} {f : Pair → List Pair} {w : KeySet Pair}
    {q : Pair} :
    q ∈ Table.keys (pairs.foldl (fun w p => KeySet.addAll w (f p)) w) ↔
      (∃ p ∈ pairs, q ∈ f p) ∨ q ∈ Table.keys w := by
  induction pairs generalizing w with
  | nil => simp
  | cons pair rest ih =>
    rw [List.foldl_cons, ih, KeySet.mem_keys_addAll]
    simp only [List.mem_cons, or_and_right, exists_or, exists_eq_left, or_assoc]
    constructor
    · rintro (h | h | h)
      · exact Or.inr (Or.inl h)
      · exact Or.inl h
      · exact Or.inr (Or.inr h)
    · rintro (h | h | h)
      · exact Or.inr (Or.inl h)
      · exact Or.inl h
      · exact Or.inr (Or.inr h)

theorem mem_itself_pass :
    q ∈ Table.keys (r.pass now).worklist.itself ↔
      ∃ p ∈ Table.keys (r.visitMarked now).worklist.children, q ∈ heirs r.store p := by
  have hempty : (r.visitMarked now).worklist.itself = ∅ := itself_visits _ _
  rw [pass_eq, spreadChanged, spreads_worklist, mem_keys_foldl_addAll]
  simp only [Worklist.take, Worklist.marked, Worklist.setMarked, heirs_visitMarked, hempty]
  exact or_iff_left List.not_mem_nil

theorem children_pass (now : Timestamp) (r : PermissionRun) : (r.pass now).worklist.children = ∅ := by
  rw [pass_eq, spreadChanged, spreads_worklist]
  rfl

/-- What is marked after a pass is an heir of what was marked before. -/
theorem exists_of_isMarked_pass {m : Mark} (h : (r.pass now).worklist.isMarked q m = true) :
    ∃ p m', r.worklist.isMarked p m' = true ∧ q ∈ heirs r.store p := by
  have hmem : q ∈ Table.keys ((r.pass now).worklist.marked m) := Table.mem_keys.2 h
  cases m with
  | itself =>
    obtain ⟨p, hp, hheir⟩ := mem_itself_pass.1 hmem
    rcases mem_children_visits hp with hp | hp
    · exact ⟨p, .itself, Table.mem_keys.1 hp, hheir⟩
    · exact ⟨p, .children, Table.mem_keys.1 hp, hheir⟩
  | children =>
    rw [Worklist.marked, children_pass] at hmem
    exact absurd hmem List.not_mem_nil

/-! ### Coming to an end -/

/-- What it means to pass until nothing is marked. -/
inductive Ends (now : Timestamp) : PermissionRun → PermissionRun → Prop where
  | done {r : PermissionRun} : r.worklist.isEmpty = true → Ends now r r
  | pass {r t : PermissionRun} :
      r.worklist.isEmpty = false → Ends now (r.pass now) t → Ends now r t

theorem Ends.keeps {Q : PermissionRun → Prop} (hpass : ∀ r, Q r → Q (r.pass now))
    (h : Ends now r t) (hr : Q r) : Q t := by
  induction h with
  | done => exact hr
  | pass _ _ ih => exact ih (hpass _ hr)

theorem Ends.isEmpty (h : Ends now r t) : t.worklist.isEmpty = true := by
  induction h with
  | done hempty => exact hempty
  | pass _ _ ih => exact ih

/-- Marks are on items that are no higher than so many below the highest there could be. -/
structure Lowered (s : Store) (k : Nat) (r : PermissionRun) : Prop where
  frame : ∃ gen, r.store = { s with generated := gen }
  low : ∀ q m, r.worklist.isMarked q m = true → s.height q.2 + k ≤ s.items.size

/-- A pass moves every mark at least one level down. -/
theorem Lowered.pass {k : Nat} (hheirs : ∀ p q, q ∈ heirs s p → s.height q.2 < s.height p.2)
    (h : Lowered s k r) : Lowered s (k + 1) (r.pass now) := by
  obtain ⟨old, hold⟩ := h.frame
  constructor
  · obtain ⟨gen, hgen⟩ := r.visitMarked_frame now
    rw [pass_store]
    exact ⟨gen, by rw [hgen, hold]⟩
  · intro q m hq
    obtain ⟨p, m', hp, hheir⟩ := exists_of_isMarked_pass hq
    rw [heirs_congr (t := s) (by rw [hold]) (by rw [hold])] at hheir
    have hlow := h.low p m' hp
    have hlt := hheirs p q hheir
    omega

/-- Below the lowest level there are no marks. -/
theorem Lowered.isEmpty {k : Nat} (h : Lowered s k r) (hk : s.items.size < k) :
    r.worklist.isEmpty = true := by
  have hnone : ∀ q m, r.worklist.isMarked q m ≠ true := by
    intro q m hq
    have hlow := h.low q m hq
    omega
  exact Worklist.isEmpty_iff.2
    ⟨fun q hq => hnone q .itself (Table.mem_keys.1 hq),
      fun q hq => hnone q .children (Table.mem_keys.1 hq)⟩

/-- With a pass for every level, all marks are worked off. -/
theorem Lowered.ends {k : Nat} (hheirs : ∀ p q, q ∈ heirs s p → s.height q.2 < s.height p.2)
    (passes : Nat) (h : Lowered s k r) (hpasses : s.items.size + 1 ≤ passes + k) :
    Ends now r (loop now passes r) := by
  induction passes generalizing r k with
  | zero => exact .done (h.isEmpty (by omega))
  | succ passes ih =>
    rw [loop]
    split
    · rename_i hempty
      exact .done hempty
    · rename_i hmarked
      exact .pass (Bool.eq_false_iff.2 hmarked) (ih (h.pass hheirs) (by omega))

end PermissionRun

namespace Store

theorem size_lt_passLimit (s : Store) (w : Worklist Pair) : s.items.size + 1 ≤ s.passLimit w := by
  rw [passLimit]
  have hpos : 0 < s.grants.size + s.generated.size + w.size + 2 := by omega
  have hle := Nat.le_mul_of_pos_right (s.items.size + 2) hpos
  omega

/-- Working out permissions comes to an end of its own if heirs are on lower items. -/
theorem ends_propagatePermissions {s : Store}
    (hheirs : ∀ p q, q ∈ PermissionRun.heirs s p → s.height q.2 < s.height p.2)
    (w : Worklist Pair) (now : Timestamp) :
    ∃ r, PermissionRun.Ends now ⟨s, w, .none⟩ r ∧
      s.propagatePermissions w now = (r.outcome, r.store) := by
  have hlowered : PermissionRun.Lowered s 0 ⟨s, w, .none⟩ :=
    ⟨⟨s.generated, rfl⟩, fun q _ _ => s.height_le q.2⟩
  have hpasses := s.size_lt_passLimit w
  exact ⟨_, hlowered.ends hheirs (s.passLimit w) (by omega), rfl⟩

end Store

/-! ### What holds in the end -/

namespace PermissionRun

open Store

variable {P : Store → Pair → Prop} {now : Timestamp} {r : PermissionRun}

/-- The pair is an heir of one that is marked to pass on its change, or has the property. -/
def HeirOr (P : Store → Pair → Prop) (r : PermissionRun) (q : Pair) : Prop :=
  (∃ p ∈ Table.keys r.worklist.children, q ∈ heirs r.store p) ∨ P r.store q

/-- What recomputing a pair spoils is an heir of it, and then the pair is marked to pass on its
change. -/
theorem HeirOr.visit (hlaw : PairLaw now P) (hlayered : r.store.Layered)
    (hfilled : r.store.RowsFilled) {pair q : Pair} (hne : q ≠ pair) (h : HeirOr P r q) :
    HeirOr P (r.visit now pair) q := by
  obtain ⟨gen, hgen⟩ := recomputePair_frame r.store pair now
  have hheirs : ∀ p, heirs (r.visit now pair).store p = heirs r.store p := fun p =>
    heirs_congr (by rw [visit_store, hgen]) (by rw [visit_store, hgen]) p
  rcases h with ⟨p, hp, hheir⟩ | hP
  · refine Or.inl ⟨p, mem_children_visit.2 (Or.inr hp), ?_⟩
    rw [hheirs]
    exact hheir
  · by_cases hspoiled : (r.store.recomputePair pair now).1 = true ∧ q ∈ heirs r.store pair
    · refine Or.inl ⟨pair, mem_children_visit.2 (Or.inl ⟨hspoiled.1, rfl⟩), ?_⟩
      rw [hheirs]
      exact hspoiled.2
    · exact Or.inr (hlaw.keep hlayered hfilled hne
        (fun hchanged hheir => hspoiled ⟨hchanged, hheir⟩) hP)

/-- While marked pairs are recomputed: every pair is still to come, or an heir of one that changed,
or has the property. -/
structure Visiting (P : Store → Pair → Prop) (rest : List Pair) (r : PermissionRun) : Prop where
  layered : r.store.Layered
  filled : r.store.RowsFilled
  covered : ∀ q, q ∈ rest ∨ HeirOr P r q

theorem Visiting.visit (hlaw : PairLaw now P) {pair : Pair} {rest : List Pair}
    (h : Visiting P (pair :: rest) r) : Visiting P rest (r.visit now pair) := by
  refine ⟨h.layered.recomputePair pair now, h.filled.recomputePair pair now, fun q => ?_⟩
  by_cases hself : q = pair
  · exact Or.inr (Or.inr (hself ▸ hlaw.visit h.layered h.filled))
  · exact (h.covered q).imp (fun hmem => (List.mem_cons.1 hmem).resolve_left hself)
      fun hq => hq.visit hlaw h.layered h.filled hself

theorem Visiting.visits (hlaw : PairLaw now P) {pairs : List Pair} (h : Visiting P pairs r) :
    Visiting P [] (pairs.foldl (PermissionRun.visit now) r) := by
  induction pairs generalizing r with
  | nil => exact h
  | cons pair rest ih => exact ih (h.visit hlaw)

/-- What holds as long as there are marks: every pair is to be recomputed or has the property. -/
structure Underway (P : Store → Pair → Prop) (r : PermissionRun) : Prop where
  layered : r.store.Layered
  filled : r.store.RowsFilled
  covered : ∀ q, q ∈ Table.keys r.worklist.itself ∨ HeirOr P r q

theorem Underway.pass (hlaw : PairLaw now P) (h : Underway P r) : Underway P (r.pass now) := by
  have hvisited : Visiting P [] (r.visitMarked now) :=
    Visiting.visits hlaw ⟨h.layered, h.filled, h.covered⟩
  have hstore := r.pass_store now
  refine ⟨?_, ?_, fun q => ?_⟩
  · rw [hstore]
    exact hvisited.layered
  · rw [hstore]
    exact hvisited.filled
  · rcases (hvisited.covered q).resolve_left List.not_mem_nil with ⟨p, hp, hheir⟩ | hP
    · rw [heirs_visitMarked] at hheir
      exact Or.inl (mem_itself_pass.2 ⟨p, hp, hheir⟩)
    · refine Or.inr (Or.inr ?_)
      rw [hstore]
      exact hP

theorem Underway.holds (h : Underway P r) (hempty : r.worklist.isEmpty = true) (q : Pair) :
    P r.store q := by
  obtain ⟨hitself, hchildren⟩ := Worklist.isEmpty_iff.1 hempty
  rcases h.covered q with hq | ⟨p, hp, -⟩ | hP
  · exact absurd hq (hitself q)
  · exact absurd hp (hchildren p)
  · exact hP

end PermissionRun

/-- Working out permissions comes to an end of its own, and what holds of all pairs that are not to
be recomputed then holds of all pairs. -/
theorem PairLaw.ends {P : Store → Pair → Prop} {now : Timestamp} (hlaw : PairLaw now P)
    {s : Store} (hlayered : s.Layered) (hfilled : s.RowsFilled) {w : Worklist Pair}
    (h : ∀ q, s.Awaits w q ∨ P s q) :
    ∃ r, PermissionRun.Ends now ⟨s, w, .none⟩ r ∧
      s.propagatePermissions w now = (r.outcome, r.store) ∧ ∀ q, P r.store q := by
  have hunderway : PermissionRun.Underway P ⟨s, w, .none⟩ := by
    refine ⟨hlayered, hfilled, fun q => ?_⟩
    rw [PermissionRun.HeirOr, ← or_assoc]
    simp only [Table.mem_keys]
    exact h q
  obtain ⟨r, hends, heq⟩ := Store.ends_propagatePermissions
    (fun _ _ hheir => hlayered.height_heir_lt hheir) w now
  exact ⟨r, hends, heq,
    (hends.keeps (fun _ hr => hr.pass hlaw) hunderway).holds hends.isEmpty⟩

/-- What holds of all unmarked pairs holds of all pairs once permissions are worked out. -/
theorem PairLaw.propagate {P : Store → Pair → Prop} {now : Timestamp} (hlaw : PairLaw now P)
    {s : Store} (hlayered : s.Layered) (hfilled : s.RowsFilled) {pairs : List Pair}
    (h : ∀ q, q ∈ pairs ∨ P s q) (q : Pair) : P (s.propagatePermissions (.ofKeys pairs) now).2 q := by
  obtain ⟨r, -, heq, hP⟩ := hlaw.ends hlayered hfilled fun q =>
    (h q).imp_left fun hq => Or.inl (Table.mem_keys.1 (Worklist.mem_itself_ofKeys.2 hq))
  rw [heq]
  exact hP q

/-! ### Pairs out of reach -/

namespace PermissionRun

open Store

variable {K : Pair → Prop} {s : Store} {now : Timestamp} {r : PermissionRun}

/-- All marks are on pairs of one kind, and rows of pairs of another kind are as they were. -/
structure Confined (K : Pair → Prop) (s : Store) (r : PermissionRun) : Prop where
  frame : ∃ gen, r.store = { s with generated := gen }
  itself : ∀ p ∈ Table.keys r.worklist.itself, K p
  children : ∀ p ∈ Table.keys r.worklist.children, K p
  same : ∀ q, ¬ K q → r.store.generated.get? q = s.generated.get? q

theorem Confined.visit {pair : Pair} (hpair : K pair) (h : Confined K s r) :
    Confined K s (r.visit now pair) := by
  obtain ⟨gen, hgen⟩ := recomputePair_frame r.store pair now
  refine ⟨?_, ?_, fun p hp => ?_, fun q hq => ?_⟩
  · obtain ⟨old, hold⟩ := h.frame
    exact ⟨gen, by rw [visit_store, hgen, hold]⟩
  · rw [visit_worklist]
    split
    · exact h.itself
    · exact h.itself
  · rcases mem_children_visit.1 hp with ⟨-, rfl⟩ | hp
    · exact hpair
    · exact h.children p hp
  · rw [visit_store, get?_recomputePair_ne fun (heq : q = pair) => hq (heq ▸ hpair)]
    exact h.same q hq

theorem Confined.visits {pairs : List Pair} (hpairs : ∀ p ∈ pairs, K p) (h : Confined K s r) :
    Confined K s (pairs.foldl (PermissionRun.visit now) r) := by
  induction pairs generalizing r with
  | nil => exact h
  | cons pair rest ih =>
    exact ih (fun p hp => hpairs p (List.mem_cons_of_mem _ hp))
      (h.visit (hpairs pair List.mem_cons_self))

theorem Confined.pass (hK : ∀ p q, K p → q ∈ heirs s p → K q) (h : Confined K s r) :
    Confined K s (r.pass now) := by
  have hvisited : Confined K s (r.visitMarked now) :=
    Confined.visits h.itself ⟨h.frame, fun p hp => absurd hp List.not_mem_nil, h.children, h.same⟩
  have hstore := r.pass_store now
  refine ⟨?_, fun q hq => ?_, fun p hp => ?_, ?_⟩
  · rw [hstore]
    exact hvisited.frame
  · obtain ⟨p, hp, hheir⟩ := mem_itself_pass.1 hq
    obtain ⟨gen, hgen⟩ := h.frame
    rw [heirs_congr (t := s) (by rw [hgen]) (by rw [hgen])] at hheir
    exact hK p q (hvisited.children p hp) hheir
  · rw [children_pass] at hp
    exact absurd hp List.not_mem_nil
  · rw [hstore]
    exact hvisited.same

end PermissionRun

/-- Rows out of reach of the marked pairs stay as they are. -/
theorem Store.get?_propagatePermissions_of_not {K : Pair → Prop} {s : Store} {now : Timestamp}
    (hK : ∀ p q, K p → q ∈ PermissionRun.heirs s p → K q) {pairs : List Pair}
    (hpairs : ∀ p ∈ pairs, K p) {q : Pair} (hq : ¬ K q) :
    (s.propagatePermissions (.ofKeys pairs) now).2.generated.get? q = s.generated.get? q := by
  have hconfined : PermissionRun.Confined K s ⟨s, .ofKeys pairs, .none⟩ := by
    refine ⟨⟨s.generated, rfl⟩, fun p hp => ?_, fun p hp => ?_, fun _ _ => rfl⟩
    · exact hpairs p (Worklist.mem_itself_ofKeys.1 hp)
    · rw [Worklist.children_ofKeys] at hp
      exact absurd hp List.not_mem_nil
  exact (PermissionRun.loop_induction (fun _ hr => hr.pass hK) _ hconfined).same q hq

/-- Working out permissions leaves every row with a tier. -/
theorem Store.RowsFilled.propagatePermissions {s : Store} (h : s.RowsFilled) (w : Worklist Pair)
    (now : Timestamp) : (s.propagatePermissions w now).2.RowsFilled :=
  propagatePermissions_keeps (fun _ pair hs => hs.recomputePair pair now) h w

end Courseware
