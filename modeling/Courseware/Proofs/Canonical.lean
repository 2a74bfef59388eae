import Courseware.Proofs.Normal
import Courseware.Proofs.Recompute
import Courseware.Store.TierRows

/-!
# Normal tiers survive being stored

A staircase has each level once, so the rows of normal tiers have different keys and all of them are
inserted; their names are those of components, so reading them back gives the same tiers. With that
the rows stand for what the store keeps whole (`AccessRows.Mirrors.write`).
-/

namespace Courseware

/-- If each element has an outcome, the outcomes are those of the elements. -/
theorem exists_mapM_eq_ok {α β ε : Type} {f : α → Except ε β} {l : List α}
    (h : ∀ a ∈ l, ∃ b, f a = .ok b) :
    ∃ bs, l.mapM f = .ok bs ∧ ∀ b, b ∈ bs ↔ ∃ a ∈ l, f a = .ok b := by
  induction l with
  | nil => exact ⟨[], rfl, by simp⟩
  | cons a rest ih =>
    obtain ⟨b, hb⟩ := h a List.mem_cons_self
    obtain ⟨bs, hbs, hmem⟩ := ih fun a ha => h a (List.mem_cons_of_mem _ ha)
    refine ⟨b :: bs, ?_, fun b' => ?_⟩
    · rw [List.mapM_cons, hb, hbs]
      rfl
    · simp only [List.mem_cons, hmem, exists_eq_or_imp, hb, Except.ok.injEq, @eq_comm β b']

namespace AccessRows

variable {r r' : AccessRows} {s : Store} {pair : Pair} {t : Tiers} {now : Timestamp}

theorem decodeTier_tierKey (pair : Pair) (e : Component × Tier) :
    decodeTier (tierKey pair e, e.2.since) = .ok e := by
  obtain ⟨c, tier⟩ := e
  cases c <;> rfl

/-- The components have different names, and a staircase has each level once. -/
theorem nodup_tierKeys (ht : t.IsNormal) (pair : Pair) : (t.toList.map (tierKey pair)).Nodup := by
  rw [List.Nodup, List.pairwise_map, Tiers.toList, List.pairwise_flatMap]
  constructor
  · intro c _
    rw [List.pairwise_map]
    refine (ht.staircase c).imp fun hlt heq => ?_
    have hlevel : _ = _ := congrArg (·.2.2) heq
    exact absurd hlevel (Nat.ne_of_lt hlt.1)
  · have hnames : (Vocabulary.all : List Component).Pairwise fun c c' =>
        Vocabulary.name c ≠ Vocabulary.name c' := by decide
    refine hnames.imp fun hne e he e' he' heq => hne ?_
    obtain ⟨tier, -, rfl⟩ := List.mem_map.1 he
    obtain ⟨tier', -, rfl⟩ := List.mem_map.1 he'
    exact congrArg (·.2.1) heq

/-! ### Writing -/

theorem insertTier_of_fresh {e : Component × Tier} (hpair : r.levels.contains pair = true)
    (hfresh : r.tiers.contains (tierKey pair e) = false) :
    ∃ r', insertTier pair r e = .ok r' ∧ r'.levels = r.levels ∧
      r'.tiers = r.tiers.insert (tierKey pair e) e.2.since := by
  rw [insertTier, if_neg (by rw [hfresh]; exact Bool.false_ne_true), dif_pos hpair]
  exact ⟨_, rfl, rfl, rfl⟩

/-- Rows with different new keys are all inserted. -/
theorem foldlM_insertTier {es : List (Component × Tier)} (hpair : r.levels.contains pair = true)
    (hfresh : ∀ e ∈ es, r.tiers.contains (tierKey pair e) = false)
    (hnodup : (es.map (tierKey pair)).Nodup) :
    ∃ r', es.foldlM (insertTier pair) r = .ok r' ∧ r'.levels = r.levels ∧
      ∀ key since, r'.tiers.get? key = some since ↔
        r.tiers.get? key = some since ∨ ∃ e ∈ es, tierKey pair e = key ∧ e.2.since = since := by
  induction es generalizing r with
  | nil => exact ⟨r, rfl, rfl, by simp⟩
  | cons e rest ih =>
    obtain ⟨hnew, hrest⟩ := List.nodup_cons.1 hnodup
    have hkey := hfresh e List.mem_cons_self
    obtain ⟨r₁, hinsert, hlevels, htiers⟩ := insertTier_of_fresh hpair hkey
    have hne : ∀ e' ∈ rest, tierKey pair e ≠ tierKey pair e' := fun e' he' heq =>
      hnew (heq ▸ List.mem_map_of_mem he')
    have hfresh' : ∀ e' ∈ rest, r₁.tiers.contains (tierKey pair e') = false := fun e' he' => by
      rw [Table.contains, htiers, Table.get?_insert, if_neg (hne e' he')]
      exact hfresh e' (List.mem_cons_of_mem _ he')
    obtain ⟨r', hfold, hlevels', htiers'⟩ := ih (hlevels ▸ hpair) hfresh' hrest
    refine ⟨r', ?_, hlevels'.trans hlevels, fun key since => ?_⟩
    · rw [List.foldlM_cons, hinsert]
      exact hfold
    · rw [htiers', htiers, Table.get?_insert]
      simp only [List.mem_cons, exists_eq_or_imp]
      split
      · rename_i heq
        have hnone : r.tiers.get? key = none := Table.get?_eq_none_iff.2 (heq ▸ hkey)
        simp only [hnone, heq, Option.some.injEq, reduceCtorEq, true_and, false_or]
      · rename_i heq
        simp only [heq, false_and, false_or]

/-- What writing tiers for a pair leaves: its rows are those of the tiers, all others as before. -/
structure Replaced (r r' : AccessRows) (pair : Pair) (t : Tiers) (now : Timestamp) : Prop where
  levels : ∀ q, r'.levels.get? q =
    if pair = q then if t.isEmpty then none else some (.ofTiers t now, now) else r.levels.get? q
  tiers : ∀ key since, r'.tiers.get? key = some since ↔
    (r.tiers.get? key = some since ∧ key.1 ≠ pair) ∨
      ∃ e ∈ t.toList, tierKey pair e = key ∧ e.2.since = since

theorem get?_tiers_erase (r : AccessRows) (pair : Pair) (key : TierKey) (since : Activation) :
    (r.erase pair).tiers.get? key = some since ↔ r.tiers.get? key = some since ∧ key.1 ≠ pair := by
  rw [erase, Table.get?_filter_eq_some, decide_eq_true_eq]

theorem insertLevels_of_fresh (levels : Levels) (now : Timestamp)
    (hfresh : r.levels.contains pair = false)
    (hknown : (s.groups.contains pair.1 && s.items.contains pair.2) = true) :
    ∃ r', r.insertLevels s pair levels now = .ok r' ∧
      r'.levels = r.levels.insert pair (levels, now) ∧ r'.tiers = r.tiers := by
  rw [insertLevels, if_neg (by rw [hfresh]; exact Bool.false_ne_true), Store.demand, if_pos hknown]
  exact ⟨_, rfl, rfl, rfl⟩

theorem contains_erase_self (r : AccessRows) (pair : Pair) :
    (r.erase pair).levels.contains pair = false := by
  rw [← Table.get?_eq_none_iff, erase, Table.get?_erase, if_pos rfl]

/-- Normal tiers of an existing pair are written; no key is taken. -/
theorem exists_write_eq_ok (r : AccessRows) (ht : t.IsNormal) (now : Timestamp)
    (hknown : (t.isEmpty || (s.groups.contains pair.1 && s.items.contains pair.2)) = true) :
    ∃ r', r.write s pair t now = .ok r' ∧ Replaced r r' pair t now := by
  rw [write]
  split
  · rename_i hempty
    refine ⟨_, rfl, fun q => ?_, fun key since => ?_⟩
    · rw [if_pos hempty]
      exact Table.get?_erase _ _ _
    · obtain rfl := Tiers.isEmpty_iff.1 hempty
      rw [get?_tiers_erase]
      simp [Tiers.mem_toList_iff]
  · rename_i hempty
    have hknown' := ((Bool.or_eq_true_iff ..).1 hknown).resolve_left hempty
    obtain ⟨r₁, hinsert, hlevels, htiers⟩ :=
      insertLevels_of_fresh (.ofTiers t now) now (r.contains_erase_self pair) hknown'
    have hpair : r₁.levels.contains pair = true := by
      rw [hlevels, Table.contains, Table.get?_insert_self]
      rfl
    have hfresh : ∀ e ∈ t.toList, r₁.tiers.contains (tierKey pair e) = false := fun e _ => by
      rw [htiers, Bool.eq_false_iff]
      intro hold
      obtain ⟨since, hsince⟩ := Table.contains_iff.1 hold
      exact ((get?_tiers_erase ..).1 hsince).2 rfl
    obtain ⟨r', hfold, hlevels', htiers'⟩ := foldlM_insertTier hpair hfresh (nodup_tierKeys ht pair)
    refine ⟨r', ?_, fun q => ?_, fun key since => ?_⟩
    · rw [hinsert]
      exact hfold
    · rw [hlevels', hlevels, Table.get?_insert, if_neg hempty]
      split
      · rfl
      · rename_i hne
        exact (Table.get?_erase ..).trans (if_neg hne)
    · rw [htiers', htiers, get?_tiers_erase]

theorem write_of_unknown
    (h : (t.isEmpty || (s.groups.contains pair.1 && s.items.contains pair.2)) = false) :
    r.write s pair t now = .error (.broken .foreignKey) := by
  obtain ⟨hempty, hknown⟩ := Bool.or_eq_false_iff.1 h
  rw [write, hempty, if_neg Bool.false_ne_true, insertLevels, r.contains_erase_self pair,
    if_neg Bool.false_ne_true, hknown]
  rfl

/-! ### Reading -/

/-- Tiers are read from rows that are theirs. -/
theorem read_eq_ok (ht : t.IsNormal)
    (h : ∀ key since, key.1 = pair →
      (r.tiers.get? key = some since ↔ ∃ e ∈ t.toList, tierKey pair e = key ∧ e.2.since = since)) :
    r.read pair = .ok t := by
  have hmem : ∀ row : TierKey × Activation,
      row ∈ r.tiers.toList.filter (fun row => row.1.1 = pair) ↔
        ∃ e ∈ t.toList, (tierKey pair e, e.2.since) = row := by
    rintro ⟨key, since⟩
    rw [List.mem_filter, Table.mem_entries_iff, decide_eq_true_eq]
    constructor
    · rintro ⟨hrow, hpair⟩
      obtain ⟨e, he, rfl, rfl⟩ := (h key since hpair).1 hrow
      exact ⟨e, he, rfl⟩
    · rintro ⟨e, he, heq⟩
      cases heq
      exact ⟨(h _ _ rfl).2 ⟨e, he, rfl, rfl⟩, rfl⟩
  obtain ⟨es, hes, hmem'⟩ := exists_mapM_eq_ok (f := decodeTier) fun row hrow => by
    obtain ⟨e, -, rfl⟩ := (hmem row).1 hrow
    exact ⟨e, decodeTier_tierKey pair e⟩
  rw [read, hes]
  refine congrArg Except.ok (ht.ofList_eq fun e => (hmem' e).trans ?_)
  constructor
  · rintro ⟨row, hrow, hdecode⟩
    obtain ⟨e', he', rfl⟩ := (hmem row).1 hrow
    rw [decodeTier_tierKey, Except.ok.injEq] at hdecode
    exact hdecode ▸ he'
  · intro he
    exact ⟨_, (hmem _).2 ⟨e, he, rfl⟩, decodeTier_tierKey pair e⟩

theorem Replaced.read (h : Replaced r r' pair t now) (ht : t.IsNormal) : r'.read pair = .ok t :=
  read_eq_ok ht fun key since hpair => by
    rw [h.tiers]
    exact ⟨fun hrow => hrow.resolve_left fun hold => hold.2 hpair, Or.inr⟩

/-- The rows of other pairs are left alone. -/
theorem Replaced.read_of_ne (h : Replaced r r' pair t now) {q : Pair} (hne : pair ≠ q) :
    r'.read q = r.read q := by
  have hrows : (r'.tiers.filter fun key _ => key.1 = q) =
      r.tiers.filter fun key _ => key.1 = q := by
    refine Table.ext_get? fun key => Option.ext fun since => ?_
    rw [Table.get?_filter_eq_some, Table.get?_filter_eq_some, decide_eq_true_eq, h.tiers]
    refine and_congr_left fun hq => ⟨?_, fun hold => Or.inl ⟨hold, fun heq => hne (heq ▸ hq)⟩⟩
    rintro (⟨hold, -⟩ | ⟨e, -, rfl, -⟩)
    · exact hold
    · exact absurd hq hne
  rw [AccessRows.read, AccessRows.read]
  exact congrArg (fun rows => (rows.toList.mapM decodeTier).map Tiers.ofList) hrows

/-! ### The rows and the store -/

/-- The rows stand for what the store keeps worked out. -/
structure Mirrors (r : AccessRows) (s : Store) : Prop where
  levels : ∀ q, r.levels.get? q = (s.generated.get? q).map fun g => (g.levels, g.computedAt)
  tiers : ∀ q, r.read q = .ok (s.tiersOf q)

theorem mirrors_empty (h : s.generated = ∅) : empty.Mirrors s where
  levels q := by
    rw [h]
    rfl
  tiers q := by
    rw [Store.tiersOf, h]
    rfl

theorem writeTiers_of_known
    (hknown : (t.isEmpty || (s.groups.contains pair.1 && s.items.contains pair.2)) = true) :
    s.writeTiers pair t now = .ok (s.setTiers pair t now) := by
  rw [Store.writeTiers, hknown]
  rfl

theorem writeTiers_of_unknown
    (h : (t.isEmpty || (s.groups.contains pair.1 && s.items.contains pair.2)) = false) :
    s.writeTiers pair t now = .error (.broken .foreignKey) := by
  rw [Store.writeTiers, h]
  rfl

theorem tiersOf_setTiers (s : Store) (pair : Pair) (t : Tiers) (now : Timestamp) :
    (s.setTiers pair t now).tiersOf pair = t := by
  have hrow := Store.get?_setTiers s pair pair t now
  rw [if_pos rfl] at hrow
  exact Store.tiersOf_freshRow hrow

/-- Rows replaced as they are in the store go on standing for it. -/
theorem Mirrors.setTiers (h : r.Mirrors s) (ht : t.IsNormal)
    (hreplaced : Replaced r r' pair t now) : r'.Mirrors (s.setTiers pair t now) where
  levels q := by
    rw [hreplaced.levels, Store.get?_setTiers, Store.freshRow]
    by_cases hq : pair = q
    · rw [if_pos hq, if_pos hq.symm]
      split <;> rfl
    · rw [if_neg hq, if_neg (Ne.symm hq), h.levels]
  tiers q := by
    by_cases hq : pair = q
    · subst hq
      rw [hreplaced.read ht, tiersOf_setTiers]
    · rw [hreplaced.read_of_ne hq, h.tiers, Store.tiersOf, Store.tiersOf, Store.get?_setTiers,
        if_neg (Ne.symm hq)]

/-- Writing normal tiers does to the rows what it does to the store, and fails for what it fails for
there. -/
theorem Mirrors.write (h : r.Mirrors s) (ht : t.IsNormal) (pair : Pair) (now : Timestamp) :
    (∀ s', s.writeTiers pair t now = .ok s' →
      ∃ r', r.write s pair t now = .ok r' ∧ r'.Mirrors s') ∧
      ∀ fault, s.writeTiers pair t now = .error fault → r.write s pair t now = .error fault := by
  cases hknown : t.isEmpty || (s.groups.contains pair.1 && s.items.contains pair.2) with
  | false =>
    rw [writeTiers_of_unknown hknown, write_of_unknown hknown]
    exact ⟨fun s' hs' => absurd hs' (by simp), fun fault hfault => by cases hfault; rfl⟩
  | true =>
    obtain ⟨r', hwrite, hreplaced⟩ := exists_write_eq_ok r ht now hknown
    rw [writeTiers_of_known hknown]
    refine ⟨fun s' hs' => ⟨r', hwrite, ?_⟩, fun fault hfault => absurd hfault (by simp)⟩
    obtain rfl := Except.ok.inj hs'
    exact h.setTiers ht hreplaced

end AccessRows

/-! ### What normalizing gives -/

/-- However tiers are put together, normalizing them keeps the levels in effect at all times and
leaves staircases, which are normal already. What it leaves is determined by the tiers added,
whatever the order and the grouping, and by the levels in effect at all times, dates at the earliest
point in time aside. No key of its rows is taken, and it is read back as it was written, from the
rows as from the store that they stand for. -/
theorem Assembly.normalize_canonical (a b : Assembly) :
    (∀ c now, a.tiers.normalize.levelAt c now = a.tiers.levelAt c now) ∧
    (∀ c, Tier.IsStaircase (a.tiers.normalize.get c)) ∧
    a.tiers.normalize.normalize = a.tiers.normalize ∧
    ((∀ e, e.2.level ≠ 0 → (e ∈ a.added ↔ e ∈ b.added)) →
      a.tiers.normalize = b.tiers.normalize) ∧
    (a.tiers.normalize.Undated → b.tiers.normalize.Undated →
      (∀ c now, a.tiers.normalize.levelAt c now = b.tiers.normalize.levelAt c now) →
      a.tiers.normalize = b.tiers.normalize) ∧
    ∀ (r : AccessRows) (s : Store) (pair : Pair) (now : Timestamp),
      (∀ violation, r.write s pair a.tiers.normalize now ≠ .error (.duplicateKey violation)) ∧
      (s.groups.contains pair.1 = true → s.items.contains pair.2 = true →
        ∃ r' s', r.write s pair a.tiers.normalize now = .ok r' ∧
          r'.read pair = .ok a.tiers.normalize ∧
          s.writeTiers pair a.tiers.normalize now = .ok s' ∧
          s'.tiersOf pair = a.tiers.normalize ∧ (r.Mirrors s → r'.Mirrors s')) := by
  have ha := a.isNormal_normalize
  have hb := b.isNormal_normalize
  refine ⟨fun c now => Tiers.levelAt_normalize a.tiers c now, ha.staircase, ha.normalize_eq,
    fun hadded => ?_, fun hdated hdated' hlevels => ha.ext_levelAt hb hdated hdated' hlevels,
    fun r s pair now => ⟨fun violation hwrite => ?_, fun hgroup hitem => ?_⟩⟩
  · rw [a.normalize_eq, b.normalize_eq]
    exact Tiers.ofList_congr hadded
  · cases hknown : a.tiers.normalize.isEmpty ||
        (s.groups.contains pair.1 && s.items.contains pair.2) with
    | false => exact absurd ((AccessRows.write_of_unknown hknown).symm.trans hwrite) (by simp)
    | true =>
      obtain ⟨r', hok, -⟩ := AccessRows.exists_write_eq_ok r ha now hknown
      exact absurd (hok.symm.trans hwrite) (by simp)
  · have hknown : (a.tiers.normalize.isEmpty ||
        (s.groups.contains pair.1 && s.items.contains pair.2)) = true := by
      rw [hgroup, hitem, Bool.and_self, Bool.or_true]
    obtain ⟨r', hok, hreplaced⟩ := AccessRows.exists_write_eq_ok r ha now hknown
    exact ⟨r', _, hok, hreplaced.read ha, AccessRows.writeTiers_of_known hknown,
      AccessRows.tiersOf_setTiers .., fun hmirrors => hmirrors.setTiers ha hreplaced⟩

/-- The content from a date on, the solution later, and information when it adds nothing. -/
def Assembly.successive : Assembly :=
  ((empty.add .view 2 (.date ⟨20⟩)).add .view 4 (.date ⟨30⟩)).add .view 1 (.date ⟨40⟩)

/-- The same from two parts, one of them normalized, and with a level 0. -/
def Assembly.inParts : Assembly :=
  ((empty.add .edit 0 .always).add .view 1 (.date ⟨40⟩)).merge
    ((empty.add .view 4 (.date ⟨30⟩)).add .view 2 (.date ⟨20⟩)).normalize

/-- A group and an item to give access to. -/
def Store.onePair : Store :=
  { Store.empty with
    groups := .ofList [(1, ⟨"pupils", .base, false, none, none, none⟩)]
    items := .ofList [(10, .plain)] }

theorem Assembly.normalize_canonical_successive :
    successive.tiers ≠ inParts.tiers ∧ successive.tiers.normalize = inParts.tiers.normalize ∧
      successive.tiers.normalize.Undated ∧ inParts.tiers.normalize.Undated ∧
      Store.onePair.groups.contains 1 = true ∧ Store.onePair.items.contains 10 = true ∧
      ∃ r' s', AccessRows.empty.write .onePair (1, 10) successive.tiers.normalize .zero = .ok r' ∧
        r'.read (1, 10) = .ok successive.tiers.normalize ∧
        Store.onePair.writeTiers (1, 10) successive.tiers.normalize .zero = .ok s' ∧
        r'.Mirrors s' := by
  obtain ⟨-, -, -, hadded, -⟩ := normalize_canonical successive inParts
  have heq : successive.tiers.normalize = inParts.tiers.normalize := hadded fun e hlevel => by
    obtain ⟨c, level, since⟩ := e
    simp only [successive, inParts, added, List.mem_cons, List.mem_append, Prod.mk.injEq,
      Tier.mk.injEq, List.not_mem_nil, or_false]
    constructor
    · rintro (h | h | h)
      · exact Or.inl (Or.inl h)
      · exact Or.inr (Or.inr h)
      · exact Or.inr (Or.inl h)
    · rintro ((h | h) | h | h)
      · exact Or.inl h
      · exact absurd h.2.1 hlevel
      · exact Or.inr (Or.inr h)
      · exact Or.inr (Or.inl h)
  have hdated : successive.tiers.normalize.Undated := by decide
  have hdated' : inParts.tiers.normalize.Undated := by decide
  obtain ⟨-, -, -, -, hlevels, hstored⟩ := normalize_canonical successive inParts
  have hgroup : Store.onePair.groups.contains 1 = true := by decide
  have hitem : Store.onePair.items.contains 10 = true := by decide
  obtain ⟨r', s', hwrite, hread, hstore, -, hmirrors⟩ :=
    (hstored .empty .onePair (1, 10) .zero).2 hgroup hitem
  exact ⟨by decide, hlevels hdated hdated' fun c now => by rw [heq], hdated, hdated', hgroup, hitem,
    r', s', hwrite, hread, hstore, hmirrors (AccessRows.mirrors_empty rfl)⟩

end Courseware
