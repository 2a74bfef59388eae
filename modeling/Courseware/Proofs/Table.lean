import Courseware.Table

/-!
# Tables as finite maps

What the listings of a table say about its look-ups: `any`, `filter` and the lists of keys range
over exactly the stored rows, each key stands once, and a table made from a list holds the rows of
that list. Writing and removing the difference of two tables turns the one into the other
(`Difference.apply`).
-/

namespace Courseware

namespace Table

variable {κ ν : Type} [DecidableEq κ] [Key κ]

theorem contains_eq_isSome (t : Table κ ν) (k : κ) : t.contains k = (t.get? k).isSome := rfl

theorem contains_of_get? {t : Table κ ν} {k : κ} {v : ν} (h : t.get? k = some v) :
    t.contains k = true := by
  rw [contains_eq_isSome, h]
  rfl

theorem get?_eq_none_iff {t : Table κ ν} {k : κ} : t.get? k = none ↔ t.contains k = false := by
  rw [contains_eq_isSome]
  cases t.get? k <;> simp

theorem mem_keys {t : Table κ ν} {k : κ} : k ∈ t.keys ↔ t.contains k = true := by
  rw [mem_keys_iff, contains_iff]

theorem mem_entries_iff {t : Table κ ν} {e : κ × ν} : e ∈ t.toList ↔ t.get? e.1 = some e.2 :=
  mem_toList_iff

omit [DecidableEq κ] in
theorem nodup_keys (t : Table κ ν) : t.keys.Nodup :=
  List.pairwise_map.2 (t.ascending.imp fun h => Key.ne_of_before h)

theorem any_iff {t : Table κ ν} {p : κ → ν → Bool} :
    t.any p = true ↔ ∃ k v, t.get? k = some v ∧ p k v = true := by
  rw [any, List.any_eq_true]
  constructor
  · rintro ⟨e, he, hp⟩
    exact ⟨e.1, e.2, mem_entries_iff.1 he, hp⟩
  · rintro ⟨k, v, hk, hp⟩
    exact ⟨(k, v), mem_toList_iff.2 hk, hp⟩

theorem get?_filter_eq_some {t : Table κ ν} {p : κ → ν → Bool} {k : κ} {v : ν} :
    (t.filter p).get? k = some v ↔ t.get? k = some v ∧ p k v = true := by
  rw [get?_filter, Option.filter_eq_some_iff]

theorem get?_filter_of_forall {t : Table κ ν} {p : κ → ν → Bool} {k : κ}
    (h : ∀ v, p k v = true) : (t.filter p).get? k = t.get? k := by
  refine Option.ext fun v => ?_
  rw [get?_filter_eq_some]
  exact ⟨fun hv => hv.1, fun hv => ⟨hv, h v⟩⟩

theorem contains_filter_iff {t : Table κ ν} {p : κ → ν → Bool} {k : κ} :
    (t.filter p).contains k = true ↔ ∃ v, t.get? k = some v ∧ p k v = true := by
  simp only [contains_iff, get?_filter_eq_some]

theorem contains_erase_iff {t : Table κ ν} {k k' : κ} :
    (t.erase k).contains k' = true ↔ t.contains k' = true ∧ k' ≠ k := by
  rw [contains_eq_isSome, get?_erase, contains_eq_isSome]
  by_cases hk : k = k'
  · simp [hk]
  · simp [hk, Ne.symm hk]

theorem mem_keys_erase {t : Table κ ν} {k k' : κ} :
    k' ∈ (t.erase k).keys ↔ k' ∈ t.keys ∧ k' ≠ k := by
  rw [mem_keys, mem_keys, contains_erase_iff]

theorem erase_of_not_contains {t : Table κ ν} {k : κ} (h : t.contains k = false) :
    t.erase k = t := by
  refine ext_get? fun k' => ?_
  rw [get?_erase]
  split
  · rename_i hk
    rw [← hk, get?_eq_none_iff.2 h]
  · rfl

/-- A row under a new key is none of the stored ones. -/
theorem get?_insert_of_contains {t : Table κ ν} {k k' : κ} (v : ν) (hnew : t.contains k = false)
    (hk : t.contains k' = true) : (t.insert k v).get? k' = t.get? k' := by
  rw [get?_insert, if_neg]
  rintro rfl
  rw [hnew] at hk
  exact absurd hk (by simp)

theorem get?_map_eq_some {μ : Type} {t : Table κ ν} {f : κ → ν → μ} {k : κ} {w : μ} :
    (t.map f).get? k = some w ↔ ∃ v, t.get? k = some v ∧ f k v = w := by
  rw [get?_map, Option.map_eq_some_iff]

@[simp] theorem contains_map {μ : Type} (t : Table κ ν) (f : κ → ν → μ) (k : κ) :
    (t.map f).contains k = t.contains k := by
  simp [contains]

@[simp] theorem contains_modify (t : Table κ ν) (k k' : κ) (f : ν → ν) :
    (t.modify k f).contains k' = t.contains k' :=
  contains_map t _ k'

@[simp] theorem contains_insert (t : Table κ ν) (k k' : κ) (v : ν) :
    (t.insert k v).contains k' = (decide (k = k') || t.contains k') := by
  by_cases hk : k = k' <;> simp [contains, hk]

@[simp] theorem contains_empty (k : κ) : (∅ : Table κ ν).contains k = false := rfl

theorem isEmpty_iff {t : Table κ ν} : t.isEmpty = true ↔ ∀ k, t.contains k = false := by
  rw [isEmpty, List.isEmpty_iff]
  constructor
  · intro h k
    rw [← get?_eq_none_iff, get?, h]
    rfl
  · intro h
    refine List.eq_nil_iff_forall_not_mem.2 fun e he => ?_
    have hget := mem_entries_iff.1 (show e ∈ t.toList from he)
    rw [get?_eq_none_iff.2 (h e.1)] at hget
    exact absurd hget (by simp)

/-- Rows of which no two contradict each other replace those with the same keys. -/
theorem get?_insertAll {rows : List (κ × ν)} {t : Table κ ν}
    (hrows : ∀ k v w, (k, v) ∈ rows → (k, w) ∈ rows → v = w) {k : κ} {v : ν} :
    (t.insertAll rows).get? k = some v ↔
      (k, v) ∈ rows ∨ (t.get? k = some v ∧ ∀ w, (k, w) ∉ rows) := by
  induction rows generalizing t with
  | nil => simp [insertAll]
  | cons e rest ih =>
    rw [insertAll, List.foldl_cons, ← insertAll, ih fun k v w hv hw =>
      hrows k v w (List.mem_cons_of_mem _ hv) (List.mem_cons_of_mem _ hw), get?_insert]
    obtain ⟨k₀, v₀⟩ := e
    simp only [List.mem_cons, Prod.mk.injEq, not_or]
    by_cases hk : k₀ = k
    · subst hk
      simp only [if_true, true_and]
      constructor
      · rintro (hv | ⟨hv, -⟩)
        · exact Or.inl (Or.inr hv)
        · exact Or.inl (Or.inl (Option.some.inj hv).symm)
      · rintro ((rfl | hv) | ⟨-, hv⟩)
        · by_cases hrest : ∃ w, (k₀, w) ∈ rest
          · obtain ⟨w, hw⟩ := hrest
            have hvw := hrows k₀ v w List.mem_cons_self (List.mem_cons_of_mem _ hw)
            exact Or.inl (hvw ▸ hw)
          · exact Or.inr ⟨rfl, fun w hw => hrest ⟨w, hw⟩⟩
        · exact Or.inl hv
        · exact absurd rfl (hv v₀).1
    · simp only [if_neg hk, Ne.symm hk, false_and, false_or, not_false_eq_true, true_and]

/-- A table made from rows of which no two contradict each other holds exactly these rows. -/
theorem get?_ofList {rows : List (κ × ν)}
    (hrows : ∀ k v w, (k, v) ∈ rows → (k, w) ∈ rows → v = w) {k : κ} {v : ν} :
    (ofList rows).get? k = some v ↔ (k, v) ∈ rows := by
  rw [ofList, get?_insertAll hrows]
  simp

/-- All rows of one table put into another. -/
theorem get?_insertAll_toList (t u : Table κ ν) (k : κ) :
    (t.insertAll u.toList).get? k = (u.get? k).or (t.get? k) := by
  refine Option.ext fun v => ?_
  rw [get?_insertAll fun k v w hv hw =>
    Option.some.inj ((mem_toList_iff.1 hv).symm.trans (mem_toList_iff.1 hw)), Option.or_eq_some_iff]
  simp only [mem_toList_iff]
  exact or_congr_right (and_comm.trans (and_congr_left' Option.eq_none_iff_forall_ne_some.symm))

theorem get?_eraseAll (t : Table κ ν) (ks : List κ) (k : κ) :
    (t.eraseAll ks).get? k = if k ∈ ks then none else t.get? k := by
  induction ks generalizing t with
  | nil => rfl
  | cons a rest ih =>
    rw [eraseAll, List.foldl_cons, ← eraseAll, ih, get?_erase]
    by_cases hka : a = k
    · subst hka
      simp
    · simp [hka, Ne.symm hka]

/-- How one table differs from another: `written` are the rows of `new` that are not so in `old`, and
`removed` are the rows of `old` under keys without a row in `new`. -/
structure Difference (old new written removed : Table κ ν) : Prop where
  written_iff : ∀ k v, written.get? k = some v ↔ new.get? k = some v ∧ old.get? k ≠ some v
  removed_iff : ∀ k v, removed.get? k = some v ↔ old.get? k = some v ∧ new.get? k = none

theorem difference_filter [DecidableEq ν] (old new : Table κ ν) :
    Difference old new (new.filter fun k v => old.get? k ≠ some v)
      (old.filter fun k _ => !new.contains k) := by
  constructor
  · intro k v
    rw [get?_filter_eq_some, decide_eq_true_iff]
  · intro k v
    rw [get?_filter_eq_some, Bool.not_eq_true', get?_eq_none_iff]

namespace Difference

variable {old new written removed : Table κ ν}

theorem contains_removed (h : Difference old new written removed) {k : κ} :
    removed.contains k = true ↔ old.contains k = true ∧ new.get? k = none := by
  simp only [contains_iff, h.removed_iff, exists_and_right]

/-- The keys of the rows that are written or removed are those under which the tables differ. -/
theorem touches_iff (h : Difference old new written removed) {k : κ} :
    written.contains k = true ∨ removed.contains k = true ↔ new.get? k ≠ old.get? k := by
  rw [h.contains_removed, contains_iff]
  simp only [h.written_iff]
  cases hnew : new.get? k with
  | some v =>
    simp only [Option.some.injEq, exists_eq_left', reduceCtorEq, and_false, or_false]
    exact ne_comm
  | none =>
    rw [contains_iff]
    cases old.get? k with
    | none => simp
    | some v => simp

/-- Writing the difference to the one table makes it the other. -/
theorem apply (h : Difference old new written removed) :
    (old.insertAll written.toList).eraseAll removed.keys = new := by
  refine ext_get? fun k => ?_
  rw [get?_eraseAll, get?_insertAll_toList]
  split
  · rename_i hremoved
    exact (h.contains_removed.1 (mem_keys.1 hremoved)).2.symm
  · rename_i hkept
    by_cases hsame : new.get? k = old.get? k
    · have hwritten : written.get? k = none := by
        refine Option.eq_none_iff_forall_ne_some.2 fun v hv => ?_
        obtain ⟨hnew, hold⟩ := (h.written_iff k v).1 hv
        exact hold (hsame.symm.trans hnew)
      rw [hwritten, Option.none_or, hsame]
    · obtain ⟨v, hv⟩ := contains_iff.1
        ((h.touches_iff.2 hsame).resolve_right fun hremoved => hkept (mem_keys.2 hremoved))
      rw [hv, Option.some_or, ((h.written_iff k v).1 hv).1]

/-- Equal tables do not differ. -/
theorem eq_empty (h : Difference old old written removed) : written = empty ∧ removed = empty := by
  refine ⟨ext_get? fun k => ?_, ext_get? fun k => ?_⟩
  · refine Option.eq_none_iff_forall_ne_some.2 fun v hv => ?_
    obtain ⟨hnew, hold⟩ := (h.written_iff k v).1 hv
    exact hold hnew
  · refine Option.eq_none_iff_forall_ne_some.2 fun v hv => ?_
    obtain ⟨hold, hnew⟩ := (h.removed_iff k v).1 hv
    rw [hold] at hnew
    exact absurd hnew (by simp)

end Difference

end Table

namespace KeySet

variable {κ : Type} [DecidableEq κ] [Key κ]

theorem mem_keys_addAll {s : KeySet κ} {ks : List κ} {k : κ} :
    k ∈ Table.keys (s.addAll ks) ↔ k ∈ ks ∨ k ∈ Table.keys s := by
  rw [Table.mem_keys, contains_addAll, Table.mem_keys]
  simp

theorem mem_keys_ofKeys {ks : List κ} {k : κ} : k ∈ Table.keys (ofKeys ks) ↔ k ∈ ks := by
  rw [Table.mem_keys, contains_ofKeys, decide_eq_true_eq]

theorem mem_keys_add {s : KeySet κ} {a k : κ} :
    k ∈ Table.keys (s.add a) ↔ k = a ∨ k ∈ Table.keys s := by
  rw [Table.mem_keys, contains_add, Table.mem_keys, Bool.or_eq_true, decide_eq_true_eq,
    eq_comm (a := k)]

theorem contains_union (s t : KeySet κ) (k : κ) :
    Table.contains (s.union t) k = (Table.contains t k || Table.contains s k) := by
  rw [union, contains_addAll]
  congr 1
  rw [Bool.eq_iff_iff, decide_eq_true_eq, Table.mem_keys]

end KeySet

end Courseware
