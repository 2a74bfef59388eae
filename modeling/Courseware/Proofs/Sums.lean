import Courseware.Proofs.Consistency

/-!
# Sums that fit in 64 bits

The weights of the parts of an item and the counts of tasks on them are added up in 64 bits. A
budget gives each item a number of tasks, no less than its parts are given together. Where it bounds
the counts of all results, the sums fit (`Budget.Bounds.sumsFit`), and what a result is due is within
the budget again (`Budget.Bounds.dueValues`), whatever is shared below it. If there are few links
there is a budget (`Budget.covers_ofLinks`).
-/

namespace Courseware

/-- Adding up the numbers, none of the sums on the way nor the last one takes more than 64 bits. -/
def SumFits (ns : List Int64) : Prop :=
  ∀ first, first <+: ns →
    -2 ^ 63 ≤ (first.map Int64.toInt).sum ∧ (first.map Int64.toInt).sum < 2 ^ 63

section SumFits

variable {ns : List Int64}

theorem SumFits.of_prefix {first : List Int64} (h : SumFits ns) (hfirst : first <+: ns) :
    SumFits first :=
  fun less hless => h less (hless.trans hfirst)

/-- A sum that fits is the sum of the numbers. -/
theorem SumFits.toInt_foldl (h : SumFits ns) :
    (ns.foldl (· + ·) 0).toInt = (ns.map Int64.toInt).sum := by
  induction ns using List.reverseRecOn with
  | nil => rfl
  | append_singleton first n ih =>
    obtain ⟨hlow, hhigh⟩ := h _ (List.prefix_rfl)
    rw [List.map_append, List.sum_append, List.map_singleton, List.sum_singleton] at hlow hhigh ⊢
    rw [List.foldl_append, List.foldl_cons, List.foldl_nil, Int64.toInt_add,
      ih (h.of_prefix (List.prefix_append _ _))]
    exact Int.bmod_eq_of_le (by omega) (by omega)

theorem natAbs_sum_le (ns : List Int64) :
    (ns.map Int64.toInt).sum.natAbs ≤ (ns.map fun n => n.toInt.natAbs).sum := by
  induction ns with
  | nil => exact Nat.le_refl _
  | cons n rest ih =>
    rw [List.map_cons, List.sum_cons, List.map_cons, List.sum_cons]
    omega

/-- Numbers that are small enough together add up in any order. -/
theorem sumFits_of_natAbs (h : (ns.map fun n => n.toInt.natAbs).sum < 2 ^ 63) : SumFits ns := by
  rintro first ⟨rest, rfl⟩
  rw [List.map_append, List.sum_append] at h
  have hle := natAbs_sum_le first
  constructor <;> omega

end SumFits

/-- A leaf counts as one task at most. -/
theorem toInt_tasksTried_aggregateAnswers (answers : List (Timestamp × Option Score))
    (activity : Timestamp) :
    0 ≤ (aggregateAnswers answers activity).tasksTried.toInt ∧
      (aggregateAnswers answers activity).tasksTried.toInt ≤ 1 := by
  change 0 ≤ (if answers.isEmpty then (0 : Int64) else 1).toInt ∧
    (if answers.isEmpty then (0 : Int64) else 1).toInt ≤ 1
  split <;> decide

namespace Store

/-- An item is linked to each of its parts once. -/
theorem nodup_partsOf (s : Store) (item : ItemId) : ((s.partsOf item).map (·.1)).Nodup := by
  change (((s.partsByPlace item).toList.map (·.2)).map (·.1)).Nodup
  rw [List.map_map]
  have hplaces := List.pairwise_map.1 (Table.nodup_keys (s.partsByPlace item))
  refine List.pairwise_map.2 (hplaces.imp_of_mem fun {a b} ha hb hne heq => hne ?_)
  obtain ⟨hlink, -, hkey⟩ := get?_partsByPlace.1 (Table.mem_entries_iff.1 ha)
  obtain ⟨hlink', -, hkey'⟩ := get?_partsByPlace.1 (Table.mem_entries_iff.1 hb)
  have hpart : a.2.1 = b.2.1 := heq
  rw [hpart] at hlink
  rw [hkey, hkey', hpart, Option.some.inj (hlink.symm.trans hlink')]

/-- The parts of an item that count. -/
def scoredPartsOf (s : Store) (item : ItemId) : List (ItemId × Link × Item) :=
  (s.partsOf item).filter fun p => !p.2.2.unscored

theorem contains_of_mem_scoredPartsOf {s : Store} {item : ItemId} {p : ItemId × Link × Item}
    (h : p ∈ s.scoredPartsOf item) : s.links.contains (item, p.1) = true :=
  Table.contains_of_get? (mem_partsOf.1 (List.mem_filter.1 h).1).1

/-- An item without links has no parts. -/
theorem scoredPartsOf_eq_nil {s : Store} {item : ItemId} (h : ∀ k ∈ s.links.keys, k.1 ≠ item) :
    s.scoredPartsOf item = [] :=
  List.eq_nil_iff_forall_not_mem.2 fun _ hp =>
    h _ (Table.mem_keys.2 (contains_of_mem_scoredPartsOf hp)) rfl

/-- An item has no more parts than there are links from it. -/
theorem length_scoredPartsOf_le {s : Store} {links : List (ItemId × ItemId)}
    (hlinks : ∀ k, s.links.contains k = true → k ∈ links) (item : ItemId) :
    (s.scoredPartsOf item).length ≤ links.countP fun l => decide (l.1 = item) := by
  have hnodup : ((s.scoredPartsOf item).map fun p => (item, p.1)).Nodup :=
    List.pairwise_map.2 (((List.pairwise_map.1 (s.nodup_partsOf item)).filter _).imp
      fun hne heq => hne (Prod.mk.inj heq).2)
  rw [List.countP_eq_length_filter, ← List.length_map fun p => (item, p.1)]
  refine (List.subperm_of_subset hnodup fun l hl => ?_).length_le
  obtain ⟨p, hp, rfl⟩ := List.mem_map.1 hl
  exact List.mem_filter.2 ⟨hlinks _ (contains_of_mem_scoredPartsOf hp), decide_eq_true rfl⟩

/-- The parts that the result under a key adds up, each with its best result. -/
def countedParts (s : Store) (key : ResultKey) : List Part :=
  (s.scoredPartsOf key.item).map (s.partOf key)

/-- What recomputing the result under a key adds up fits in 64 bits: the weights of the parts and
the counts of tasks of their best results. -/
structure SumsFit (s : Store) (key : ResultKey) : Prop where
  weights : SumFits ((s.countedParts key).map (·.weight))
  tried : SumFits (((s.countedParts key).filterMap (·.best)).map (·.tasksTried))

theorem filter_partOf (s : Store) (key : ResultKey) :
    (((s.partsOf key.item).map (s.partOf key)).filter fun p => !p.unscored) =
      s.countedParts key := by
  rw [countedParts, scoredPartsOf, List.filter_map]
  rfl

theorem tasksTried_dueValues (s : Store) (key : ResultKey) (r : Result) :
    (s.dueValues key r).tasksTried = (s.baseValues key r).tasksTried := rfl

/-- The count of tasks that a result on an item with parts is due is the sum of theirs. -/
theorem SumsFit.toInt_tasksTried_dueValues {s : Store} {key : ResultKey} (h : s.SumsFit key)
    {item : Item} (hitem : s.items.get? key.item = some item) (hparts : s.partsOf key.item ≠ [])
    (r : Result) :
    (s.dueValues key r).tasksTried.toInt =
      ((((s.countedParts key).filterMap (·.best)).map (·.tasksTried)).map Int64.toInt).sum := by
  rw [tasksTried_dueValues, baseValues_eq hitem, if_neg (by simpa using hparts), aggregateParts,
    filter_partOf]
  exact h.tried.toInt_foldl

end Store

/-! ### Budgets -/

/-- How many tasks each item may count at most. -/
structure Budget where
  tasks : ItemId → Nat
  pos : ∀ item, 0 < tasks item
  fits : ∀ item, tasks item < 2 ^ 63

namespace Budget

/-- Each item is given no less than its parts together, and their weights are small enough
together. -/
structure Covers (b : Budget) (s : Store) : Prop where
  tasks : ∀ item, ((s.scoredPartsOf item).map fun p => b.tasks p.1).sum ≤ b.tasks item
  weights : ∀ item, ((s.scoredPartsOf item).map fun p => p.2.1.weight.toInt.natAbs).sum < 2 ^ 63

instance (b : Budget) (s : Store) : Decidable (b.Covers s) :=
  decidable_of_iff (∀ k ∈ s.links.keys,
      ((s.scoredPartsOf k.1).map fun p => b.tasks p.1).sum ≤ b.tasks k.1 ∧
        ((s.scoredPartsOf k.1).map fun p => p.2.1.weight.toInt.natAbs).sum < 2 ^ 63) (by
    refine ⟨fun h => ⟨fun item => ?_, fun item => ?_⟩, fun h k _ => ⟨h.tasks k.1, h.weights k.1⟩⟩
    · by_cases hlinked : ∃ k ∈ s.links.keys, k.1 = item
      · obtain ⟨k, hk, rfl⟩ := hlinked
        exact (h k hk).1
      · rw [Store.scoredPartsOf_eq_nil fun k hk heq => hlinked ⟨k, hk, heq⟩]
        exact Nat.zero_le _
    · by_cases hlinked : ∃ k ∈ s.links.keys, k.1 = item
      · obtain ⟨k, hk, rfl⟩ := hlinked
        exact (h k hk).2
      · rw [Store.scoredPartsOf_eq_nil fun k hk heq => hlinked ⟨k, hk, heq⟩]
        exact Nat.two_pow_pos 63)

/-- And no result counts more tasks than its item is given. -/
structure Bounds (b : Budget) (s : Store) : Prop extends b.Covers s where
  tried : ∀ key r, s.results.get? key = some r →
    0 ≤ r.values.tasksTried.toInt ∧ r.values.tasksTried.toInt ≤ b.tasks key.item

variable {b : Budget} {s t : Store} {key : ResultKey}

theorem Covers.congr (h : b.Covers s) (hitems : t.items = s.items) (hlinks : t.links = s.links) :
    b.Covers t := by
  have hparts : ∀ item, t.scoredPartsOf item = s.scoredPartsOf item := fun item => by
    rw [Store.scoredPartsOf, Store.partsOf, hitems, hlinks, Store.scoredPartsOf, Store.partsOf]
  exact ⟨fun item => hparts item ▸ h.tasks item, fun item => hparts item ▸ h.weights item⟩

/-- What is best on a part is within the budget of the part. -/
theorem Bounds.partBest (h : b.Bounds s) {part : ItemId} {a : Aggregate}
    (ha : s.partBest key part = some a) :
    0 ≤ a.tasksTried.toInt ∧ a.tasksTried.toInt ≤ b.tasks part := by
  obtain ⟨⟨src, best⟩, hmem, rfl⟩ := Option.map_eq_some_iff.1 ha
  obtain ⟨hvalues, -, hpart, -⟩ :=
    Store.get?_countedValues.1 (Table.mem_toList_iff.1 (mem_of_bestResult hmem))
  obtain ⟨r, hr, rfl⟩ := Option.map_eq_some_iff.1 hvalues
  exact hpart ▸ h.tried src r hr

/-- What is added up for a result is within the budget of its item. -/
theorem Bounds.sum_tried_le (h : b.Bounds s) (key : ResultKey) :
    ((((s.countedParts key).filterMap (·.best)).map (·.tasksTried)).map
      fun n => n.toInt.natAbs).sum ≤ b.tasks key.item := by
  refine Nat.le_trans ?_ (h.tasks key.item)
  rw [Store.countedParts, List.filterMap_map]
  induction s.scoredPartsOf key.item with
  | nil => exact Nat.le_refl _
  | cons p rest ih =>
    rw [List.filterMap_cons, List.map_cons, List.sum_cons]
    split
    · omega
    · rename_i best hbest
      rw [List.map_cons, List.map_cons, List.sum_cons]
      obtain ⟨hlow, hhigh⟩ := h.partBest hbest
      omega

theorem Bounds.sum_tried_nonneg (h : b.Bounds s) (key : ResultKey) :
    0 ≤ ((((s.countedParts key).filterMap (·.best)).map (·.tasksTried)).map Int64.toInt).sum := by
  refine List.sum_nonneg fun n hn => ?_
  simp only [Store.countedParts, List.mem_map, List.mem_filterMap] at hn
  obtain ⟨_, ⟨a, ⟨_, ⟨p, -, rfl⟩, hbest⟩, rfl⟩, rfl⟩ := hn
  exact (h.partBest hbest).1

theorem Bounds.sumsFit (h : b.Bounds s) (key : ResultKey) : s.SumsFit key where
  weights := by
    refine sumFits_of_natAbs ?_
    rw [Store.countedParts, List.map_map, List.map_map]
    exact h.weights key.item
  tried := sumFits_of_natAbs (Nat.lt_of_le_of_lt (h.sum_tried_le key) (b.fits key.item))

/-- What a result is due is within the budget as well. -/
theorem Bounds.dueValues (h : b.Bounds s) {r : Result} (hr : s.results.get? key = some r) :
    0 ≤ (s.dueValues key r).tasksTried.toInt ∧
      (s.dueValues key r).tasksTried.toInt ≤ b.tasks key.item := by
  have hpos := b.pos key.item
  cases hitem : s.items.get? key.item with
  | none =>
    have hdue : (s.dueValues key r).tasksTried = r.values.tasksTried := by
      rw [Store.tasksTried_dueValues, Store.baseValues, hitem]
    rw [hdue]
    exact h.tried key r hr
  | some item =>
    by_cases hparts : s.partsOf key.item = []
    · rw [Store.tasksTried_dueValues, Store.baseValues_eq hitem, hparts, if_pos List.isEmpty_nil]
      obtain ⟨hlow, hhigh⟩ := toInt_tasksTried_aggregateAnswers
        ((s.gradedAnswers key).map fun a => (a.2.1.submittedAt, a.2.2.map (·.score)))
        r.values.activityAt
      omega
    · rw [(h.sumsFit key).toInt_tasksTried_dueValues hitem hparts]
      have hle := natAbs_sum_le (((s.countedParts key).filterMap (·.best)).map (·.tasksTried))
      have hbudget := h.sum_tried_le key
      have hnonneg := h.sum_tried_nonneg key
      omega

/-! ### Few links -/

theorem countP_add_le {α : Type} {p q r : α → Bool} (hp : ∀ a, p a = true → r a = true)
    (hq : ∀ a, q a = true → r a = true) (hpq : ∀ a, ¬ (p a = true ∧ q a = true)) (l : List α) :
    l.countP p + l.countP q ≤ l.countP r := by
  induction l with
  | nil => exact Nat.le_refl _
  | cons a rest ih =>
    have hone : (if p a = true then 1 else 0) + (if q a = true then 1 else 0) ≤
        if r a = true then 1 else 0 := by
      by_cases hpa : p a = true
      · have hqa : ¬ q a = true := fun hqa => hpq a ⟨hpa, hqa⟩
        rw [if_pos hpa, if_neg hqa, if_pos (hp a hpa)]
      · rw [if_neg hpa]
        by_cases hqa : q a = true
        · rw [if_pos hqa, if_pos (hq a hqa)]
        · rw [if_neg hqa]
          exact Nat.zero_le _
    rw [List.countP_cons, List.countP_cons, List.countP_cons]
    omega

/-- How many links start at a height or below. -/
def linksUpTo (links : List (ItemId × ItemId)) (height : ItemId → Nat) (top : Nat) : Nat :=
  links.countP fun l => decide (height l.1 ≤ top)

/-- If links only lead downwards and there are at most 62 of them, each item may count a task for
every set of links that start at its height or below. -/
def ofLinks (links : List (ItemId × ItemId)) (height : ItemId → Nat) (hfew : links.length ≤ 62) :
    Budget where
  tasks item := 2 ^ linksUpTo links height (height item)
  pos _ := Nat.two_pow_pos _
  fits _ := Nat.pow_lt_pow_right (by decide)
    (Nat.lt_of_le_of_lt (Nat.le_trans List.countP_le_length hfew) (by decide))

/-- The links from an item start above all that start lower. -/
theorem linksUpTo_add_le (links : List (ItemId × ItemId)) {height : ItemId → Nat} {item : ItemId}
    {low : Nat} (hlow : low < height item) :
    linksUpTo links height low + links.countP (fun l => decide (l.1 = item)) ≤
      linksUpTo links height (height item) := by
  refine countP_add_le (fun l hl => ?_) (fun l hl => ?_) (fun l hl => ?_) links
  · simp only [decide_eq_true_eq] at hl ⊢
    omega
  · simp only [decide_eq_true_eq] at hl ⊢
    rw [hl]
  · simp only [decide_eq_true_eq] at hl
    rw [hl.2] at hl
    omega

theorem covers_ofLinks {links : List (ItemId × ItemId)} {height : ItemId → Nat}
    (hfew : links.length ≤ 62) (hdown : ∀ l ∈ links, height l.2 < height l.1)
    (hlinks : ∀ k, s.links.contains k = true → k ∈ links)
    (hweights : ∀ item,
      ((s.scoredPartsOf item).map fun p => p.2.1.weight.toInt.natAbs).sum < 2 ^ 63) :
    (ofLinks links height hfew).Covers s := by
  refine ⟨fun item => ?_, hweights⟩
  have hcount := Store.length_scoredPartsOf_le hlinks item
  have hlevel : (s.scoredPartsOf item).length ≤ linksUpTo links height (height item) :=
    Nat.le_trans hcount (List.countP_mono_left fun l _ hl => by
      simp only [decide_eq_true_eq] at hl ⊢
      rw [hl])
  have hpart : ∀ n ∈ (s.scoredPartsOf item).map fun p => (ofLinks links height hfew).tasks p.1,
      n ≤ 2 ^ (linksUpTo links height (height item) - (s.scoredPartsOf item).length) := by
    intro n hn
    obtain ⟨p, hp, rfl⟩ := List.mem_map.1 hn
    have hlower : height p.1 < height item :=
      hdown _ (hlinks _ (Store.contains_of_mem_scoredPartsOf hp))
    have hadd := linksUpTo_add_le links hlower
    exact Nat.pow_le_pow_right (by decide) (by omega)
  calc ((s.scoredPartsOf item).map fun p => (ofLinks links height hfew).tasks p.1).sum
      ≤ (s.scoredPartsOf item).length *
          2 ^ (linksUpTo links height (height item) - (s.scoredPartsOf item).length) := by
        simpa using List.sum_le_card_nsmul _ _ hpart
    _ ≤ 2 ^ (s.scoredPartsOf item).length *
          2 ^ (linksUpTo links height (height item) - (s.scoredPartsOf item).length) :=
        Nat.mul_le_mul_right _ (Nat.le_of_lt Nat.lt_two_pow_self)
    _ = 2 ^ linksUpTo links height (height item) := by
        rw [← Nat.pow_add, Nat.add_sub_cancel' hlevel]

end Budget

end Courseware
