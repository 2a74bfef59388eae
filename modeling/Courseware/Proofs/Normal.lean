import Courseware.Proofs.Levels

/-!
# Normal tiers

Normal tiers are those that `normalize` leaves as they are. However tiers are put together, what
`normalize` makes of them is a matter of which tiers were added (`Assembly.normalize_eq`), and
normal tiers are known by the levels in effect at all times (`IsNormal.ext_levelAt`). The one
exception is the earliest point in time: a tier from then on and one that always was are in effect
at the same times.

One pass over the tiers from the highest down is enough to normalize (`Tier.sweep_eq_staircase`).
-/

namespace Courseware

namespace Tier

variable {tiers tiers' kept : List Tier} {t x : Tier}

/-- Leaving out only what is covered does not change the staircase. -/
theorem staircase_eq_of_covers (hsub : ∀ x ∈ tiers, x ∈ tiers')
    (hcovers : ∀ y ∈ tiers', ∃ x ∈ tiers, x.covers y = true) :
    staircase tiers = staircase tiers' := by
  refine (isStaircase_staircase tiers).eq_of_mem_iff (isStaircase_staircase tiers') fun x => ?_
  rw [mem_staircase_iff, mem_staircase_iff]
  constructor
  · rintro ⟨hx, hmax⟩
    refine ⟨hsub x hx, fun y hy hyx => ?_⟩
    obtain ⟨z, hz, hzy⟩ := hcovers y hy
    obtain rfl := hmax z hz (covers_trans hzy hyx)
    exact covers_antisymm hyx hzy
  · rintro ⟨hx, hmax⟩
    obtain ⟨z, hz, hzx⟩ := hcovers x hx
    obtain rfl := hmax z (hsub z hz) hzx
    exact ⟨hz, fun y hy => hmax y (hsub y hy)⟩

theorem IsStaircase.staircase_eq (h : IsStaircase tiers) : staircase tiers = tiers := by
  refine (isStaircase_staircase tiers).eq_of_mem_iff h fun t => ?_
  rw [mem_staircase_iff]
  exact ⟨And.left, fun ht => ⟨ht, fun u hu hcovers => h.eq_of_covers hu ht hcovers⟩⟩

/-- On a staircase, whatever is in effect no later is no higher. -/
theorem IsStaircase.level_le (h : IsStaircase tiers) (ht : t ∈ tiers) (hx : x ∈ tiers)
    (hsince : x.since ≤ t.since) : x.level ≤ t.level := by
  by_contra hlevel
  obtain rfl := h.eq_of_covers hx ht (covers_iff.2 ⟨by omega, hsince⟩)
  exact hlevel (Nat.le_refl _)

/-- A staircase has each level once. -/
theorem IsStaircase.eq_of_level (h : IsStaircase tiers) (ht : t ∈ tiers) (hx : x ∈ tiers)
    (hlevel : t.level = x.level) : t = x := by
  rcases le_total t.since x.since with hsince | hsince
  · exact h.eq_of_covers ht hx (covers_iff.2 ⟨by omega, hsince⟩)
  · exact (h.eq_of_covers hx ht (covers_iff.2 ⟨by omega, hsince⟩)).symm

/-! ### One pass from the highest tier down -/

/-- Whether `a` comes before `b` from the highest down; of one level, the earlier comes first. -/
def above (a b : Tier) : Bool :=
  decide (b.level < a.level) || (decide (a.level = b.level) && decide (a.since ≤ b.since))

/-- Keeps a tier under those kept so far, unless the last of them begins no later. -/
def keep (kept : List Tier) (t : Tier) : List Tier :=
  match kept with
  | [] => [t]
  | last :: rest => if last.since ≤ t.since then last :: rest else t :: last :: rest

/-- The tiers kept on one pass from the highest down, in ascending order. -/
def sweep (tiers : List Tier) : List Tier := (tiers.mergeSort above).foldl keep []

theorem above_iff {a b : Tier} :
    a.above b = true ↔ b.level < a.level ∨ a.level = b.level ∧ a.since ≤ b.since := by
  rw [above, Bool.or_eq_true_iff, Bool.and_eq_true_iff, decide_eq_true_eq, decide_eq_true_eq,
    decide_eq_true_eq]

theorem above_trans {a b c : Tier} (hab : a.above b = true) (hbc : b.above c = true) :
    a.above c = true := by
  rw [above_iff] at *
  rcases hab with hab | ⟨hab, hsince⟩
  · exact Or.inl (by omega)
  · rcases hbc with hbc | ⟨hbc, hsince'⟩
    · exact Or.inl (by omega)
    · exact Or.inr ⟨by omega, le_trans hsince hsince'⟩

theorem above_total (a b : Tier) : (a.above b || b.above a) = true := by
  rw [Bool.or_eq_true_iff, above_iff, above_iff]
  rcases Nat.lt_trichotomy a.level b.level with hlt | heq | hgt
  · exact Or.inr (Or.inl hlt)
  · exact (le_total a.since b.since).imp (fun h => Or.inr ⟨heq, h⟩)
      fun h => Or.inr ⟨heq.symm, h⟩
  · exact Or.inl (Or.inl hgt)

theorem mem_of_mem_keep (h : x ∈ keep kept t) : x = t ∨ x ∈ kept := by
  cases kept with
  | nil => exact Or.inl (List.mem_singleton.1 h)
  | cons last rest =>
    rw [keep] at h
    split at h
    · exact Or.inr h
    · exact List.mem_cons.1 h

theorem IsStaircase.keep (h : IsStaircase kept) (habove : ∀ k ∈ kept, k.above t = true) :
    IsStaircase (keep kept t) := by
  cases kept with
  | nil => exact List.pairwise_singleton _ t
  | cons last rest =>
    rw [Tier.keep]
    split
    · exact h
    · rename_i hlater
      have hlt : t.level < last.level :=
        (above_iff.1 (habove last List.mem_cons_self)).resolve_right fun heq => hlater heq.2
      refine List.pairwise_cons.2 ⟨fun k hk => ?_, h⟩
      rcases List.mem_cons.1 hk with rfl | hk
      · exact ⟨hlt, hlater⟩
      · obtain ⟨hlevel, hsince⟩ := (List.pairwise_cons.1 h).1 k hk
        refine ⟨by omega, fun hle => hsince ?_⟩
        exact le_trans hle (le_of_not_ge hlater)

/-- What is not kept is covered by the last one kept, which is no lower. -/
theorem exists_covers_keep (habove : ∀ k ∈ kept, k.above t = true) (h : x = t ∨ x ∈ kept) :
    ∃ y ∈ keep kept t, y.covers x = true := by
  cases kept with
  | nil =>
    obtain rfl := h.resolve_right List.not_mem_nil
    exact ⟨x, List.mem_singleton.2 rfl, covers_refl x⟩
  | cons last rest =>
    rw [keep]
    split
    · rename_i hle
      rcases h with rfl | h
      · refine ⟨last, List.mem_cons_self, covers_iff.2 ⟨?_, hle⟩⟩
        rcases above_iff.1 (habove last List.mem_cons_self) with hlt | ⟨heq, -⟩ <;> omega
      · exact ⟨x, h, covers_refl x⟩
    · exact ⟨x, List.mem_cons.2 h, covers_refl x⟩

/-- What is kept of tiers in descending order, under what has been kept of those above them. -/
theorem staircase_foldl_keep {todo : List Tier} (h : IsStaircase kept)
    (hsorted : todo.Pairwise fun a b => a.above b = true)
    (habove : ∀ k ∈ kept, ∀ t ∈ todo, k.above t = true) :
    IsStaircase (todo.foldl keep kept) ∧
      (∀ x ∈ todo.foldl keep kept, x ∈ kept ∨ x ∈ todo) ∧
      ∀ x, x ∈ kept ∨ x ∈ todo → ∃ y ∈ todo.foldl keep kept, y.covers x = true := by
  induction todo generalizing kept with
  | nil =>
    exact ⟨h, fun x hx => Or.inl hx,
      fun x hx => ⟨x, hx.resolve_right List.not_mem_nil, covers_refl x⟩⟩
  | cons t rest ih =>
    obtain ⟨hhead, htail⟩ := List.pairwise_cons.1 hsorted
    have habove' : ∀ k ∈ kept, k.above t = true := fun k hk => habove k hk t List.mem_cons_self
    obtain ⟨hstair, hsub, hcovers⟩ := ih (h.keep habove') htail fun k hk u hu => by
      rcases mem_of_mem_keep hk with rfl | hk
      · exact hhead u hu
      · exact habove k hk u (List.mem_cons_of_mem _ hu)
    refine ⟨hstair, fun x hx => ?_, fun x hx => ?_⟩
    · rcases hsub x hx with hx | hx
      · rcases mem_of_mem_keep hx with rfl | hx
        · exact Or.inr List.mem_cons_self
        · exact Or.inl hx
      · exact Or.inr (List.mem_cons_of_mem _ hx)
    · rw [List.mem_cons, ← or_assoc, or_comm (a := x ∈ kept)] at hx
      rcases hx with hx | hx
      · obtain ⟨y, hy, hyx⟩ := exists_covers_keep habove' hx
        obtain ⟨z, hz, hzy⟩ := hcovers y (Or.inl hy)
        exact ⟨z, hz, covers_trans hzy hyx⟩
      · exact hcovers x (Or.inr hx)

/-- It is enough to compare each tier with the last one kept. -/
theorem sweep_eq_staircase (tiers : List Tier) : sweep tiers = staircase tiers := by
  have hsorted : (tiers.mergeSort above).Pairwise fun a b => a.above b = true :=
    @List.pairwise_mergeSort Tier above (fun _ _ _ => above_trans) above_total tiers
  have hnil : IsStaircase [] := List.Pairwise.nil
  obtain ⟨hstair, hsub, hcovers⟩ := staircase_foldl_keep hnil hsorted fun _ hk =>
    absurd hk List.not_mem_nil
  rw [sweep, ← hstair.staircase_eq]
  refine staircase_eq_of_covers (fun x hx => ?_) fun x hx => ?_
  · exact List.mem_mergeSort.1 ((hsub x hx).resolve_left List.not_mem_nil)
  · exact hcovers x (Or.inr (List.mem_mergeSort.2 hx))

/-! ### Staircases and the levels in effect -/

/-- A tier in effect from the beginning of another one on begins no later, unless it is dated at the
earliest point in time. -/
theorem since_le_of_isActive {start : Activation} (hdated : x.since ≠ .date .earliest)
    (h : x.isActive (start.toOption.getD .earliest) = true) : x.since ≤ start := by
  cases start with
  | always => exact (Activation.eq_always_of_isActive hdated h).le
  | date start => exact Activation.isActive_iff.1 h

theorem isActive_start (t : Tier) : t.isActive (t.since.toOption.getD .earliest) = true := by
  rw [isActive]
  cases t.since with
  | always => rfl
  | date since => exact Activation.isActive_iff.2 le_rfl

/-- When a tier of a staircase begins, its level is the one in effect. -/
theorem IsStaircase.levelAt_start (h : IsStaircase tiers)
    (hdated : ∀ x ∈ tiers, x.since ≠ .date .earliest) (ht : t ∈ tiers) :
    levelAt tiers (t.since.toOption.getD .earliest) = t.level :=
  Nat.le_antisymm
    (levelAt_le_iff.2 fun x hx hactive =>
      h.level_le ht hx (since_le_of_isActive (hdated x hx) hactive))
    (level_le_levelAt ht t.isActive_start)

/-- A staircase has what another one with the same levels has: the level begins there no later, for
it is in effect when it begins here, and no earlier, for the same reason. -/
theorem IsStaircase.mem_of_levelAt_eq (h : IsStaircase tiers) (h' : IsStaircase tiers')
    (hpos : ∀ x ∈ tiers, x.level ≠ 0) (hdated : ∀ x ∈ tiers, x.since ≠ .date .earliest)
    (hdated' : ∀ x ∈ tiers', x.since ≠ .date .earliest)
    (hlevel : ∀ now, levelAt tiers now = levelAt tiers' now) (ht : t ∈ tiers) : t ∈ tiers' := by
  have hstart := (hlevel _).symm.trans (h.levelAt_start hdated ht)
  obtain ⟨u, hu, hactive, hut⟩ := exists_of_levelAt_ne_zero (hstart ▸ hpos t ht)
  rw [hstart] at hut
  have hsince : u.since ≤ t.since := since_le_of_isActive (hdated' u hu) hactive
  have hstart' := (hlevel _).trans (h'.levelAt_start hdated' hu)
  obtain ⟨v, hv, hactive', hvu⟩ := exists_of_levelAt_ne_zero (hstart' ▸ hut ▸ hpos t ht)
  rw [hstart'] at hvu
  obtain rfl := h.eq_of_level hv ht (hvu.trans hut)
  have hsince' : v.since ≤ u.since := since_le_of_isActive (hdated v hv) hactive'
  exact covers_antisymm (covers_iff.2 ⟨by omega, hsince⟩) (covers_iff.2 ⟨by omega, hsince'⟩) ▸ hu

end Tier

namespace Tiers

variable {t u : Tiers} {es es' : List (Component × Tier)} {c : Component} {tier : Tier}

/-- Tiers as `normalize` leaves them: each component a staircase, without level 0. -/
structure IsNormal (t : Tiers) : Prop where
  staircase : ∀ c, Tier.IsStaircase (t.get c)
  positive : ∀ c, ∀ tier ∈ t.get c, tier.level ≠ 0

/-- No tier begins at the earliest point in time. -/
def Undated (t : Tiers) : Prop := ∀ c, ∀ tier ∈ t.get c, tier.since ≠ .date .earliest

instance : DecidablePred Undated := fun t =>
  decidable_of_iff (∀ e ∈ t.toList, e.2.since ≠ .date .earliest) <| by
    constructor
    · intro h c tier htier
      exact h (c, tier) (List.mem_flatMap.2 ⟨c, by cases c <;> decide, List.mem_map_of_mem htier⟩)
    · intro h e he
      obtain ⟨c, -, he⟩ := List.mem_flatMap.1 he
      obtain ⟨tier, htier, rfl⟩ := List.mem_map.1 he
      exact h c tier htier

theorem IsNormal.normalize_eq (h : t.IsNormal) : t.normalize = t :=
  ext_get fun c => by rw [get_normalize, (h.staircase c).staircase_eq]

theorem IsNormal.normalize (hpos : ∀ c, ∀ tier ∈ t.get c, tier.level ≠ 0) :
    t.normalize.IsNormal where
  staircase c := get_normalize t c ▸ Tier.isStaircase_staircase _
  positive c tier htier := by
    rw [get_normalize] at htier
    exact hpos c tier (Tier.mem_of_mem_staircase htier)

/-- Normal tiers with the same levels at all times are the same. -/
theorem IsNormal.ext_levelAt (ht : t.IsNormal) (hu : u.IsNormal) (hdated : t.Undated)
    (hdated' : u.Undated) (h : ∀ c now, t.levelAt c now = u.levelAt c now) : t = u := by
  refine ext_get fun c => (ht.staircase c).eq_of_mem_iff (hu.staircase c) fun tier => ⟨?_, ?_⟩
  · exact (ht.staircase c).mem_of_levelAt_eq (hu.staircase c) (ht.positive c) (hdated c)
      (hdated' c) (h c)
  · exact (hu.staircase c).mem_of_levelAt_eq (ht.staircase c) (hu.positive c) (hdated' c)
      (hdated c) fun now => (h c now).symm

theorem mem_toList_iff {e : Component × Tier} : e ∈ t.toList ↔ e.2 ∈ t.get e.1 := by
  obtain ⟨c, tier⟩ := e
  rw [toList, List.mem_flatMap]
  constructor
  · rintro ⟨c', -, he⟩
    obtain ⟨tier', htier, heq⟩ := List.mem_map.1 he
    cases heq
    exact htier
  · intro h
    exact ⟨c, by cases c <;> decide, List.mem_map_of_mem h⟩

/-! ### Tiers put together -/

/-- Adds tiers one after another. -/
def addAll (t : Tiers) (es : List (Component × Tier)) : Tiers :=
  es.foldl (fun t e => t.add e.1 e.2.level e.2.since) t

theorem mem_get_addAll :
    tier ∈ (t.addAll es).get c ↔ tier ∈ t.get c ∨ ((c, tier) ∈ es ∧ tier.level ≠ 0) := by
  induction es generalizing t with
  | nil => simp [addAll]
  | cons e rest ih =>
    obtain ⟨c', level, since⟩ := e
    rw [addAll, List.foldl_cons, ← addAll, ih, mem_get_add, List.mem_cons, or_assoc]
    refine or_congr_right ?_
    constructor
    · rintro (⟨rfl, hlevel, rfl⟩ | ⟨hmem, hlevel⟩)
      · exact ⟨Or.inl rfl, hlevel⟩
      · exact ⟨Or.inr hmem, hlevel⟩
    · rintro ⟨heq | hmem, hlevel⟩
      · cases heq
        exact Or.inl ⟨rfl, hlevel, rfl⟩
      · exact Or.inr ⟨hmem, hlevel⟩

theorem ofList_eq (es : List (Component × Tier)) : ofList es = (addAll ∅ es).normalize := rfl

theorem ofList_congr (h : ∀ e, e.2.level ≠ 0 → (e ∈ es ↔ e ∈ es')) : ofList es = ofList es' := by
  rw [ofList_eq, ofList_eq]
  refine normalize_congr fun c tier => ?_
  rw [mem_get_addAll, mem_get_addAll]
  exact or_congr_right (and_congr_left fun hlevel => h (c, tier) hlevel)

/-- Normal tiers are collected as they are. -/
theorem IsNormal.ofList_eq (ht : t.IsNormal) (h : ∀ e, e ∈ es ↔ e ∈ t.toList) : ofList es = t := by
  rw [Tiers.ofList_eq, ← ht.normalize_eq]
  refine normalize_congr fun c tier => ?_
  rw [mem_get_addAll, get_empty, h, mem_toList_iff]
  exact ⟨fun hmem => (hmem.resolve_left List.not_mem_nil).1,
    fun hmem => Or.inr ⟨hmem, ht.positive c tier hmem⟩⟩

end Tiers

/-- The tiers that a grant adds. -/
def Grant.entries (g : Grant) : List (Component × Tier) :=
  [(.view, ⟨Level.rank g.canView, g.since⟩), (.grantView, ⟨Level.rank g.canGrantView, g.since⟩),
    (.watch, ⟨Level.rank g.canWatch, g.since⟩), (.edit, ⟨Level.rank g.canEdit, g.since⟩),
    (.isOwner, ⟨g.isOwner.toNat, g.since⟩)]

theorem Tiers.addGrant_eq (t : Tiers) (g : Grant) : t.addGrant g = t.addAll g.entries := rfl

/-- How tiers are put together. -/
inductive Assembly where
  | empty
  | add (a : Assembly) (c : Component) (level : Nat) (since : Activation)
  | grant (a : Assembly) (g : Grant)
  | merge (a b : Assembly)
  | normalize (a : Assembly)

namespace Assembly

def tiers : Assembly → Tiers
  | empty => ∅
  | add a c level since => a.tiers.add c level since
  | grant a g => a.tiers.addGrant g
  | merge a b => a.tiers.merge b.tiers
  | normalize a => a.tiers.normalize

/-- The tiers added, those of level 0 included. -/
def added : Assembly → List (Component × Tier)
  | empty => []
  | add a c level since => (c, ⟨level, since⟩) :: a.added
  | grant a g => g.entries ++ a.added
  | merge a b => a.added ++ b.added
  | normalize a => a.added

variable {c : Component} {tier : Tier}

/-- Whatever there is has been added. -/
theorem mem_added {a : Assembly} (h : tier ∈ a.tiers.get c) :
    (c, tier) ∈ a.added ∧ tier.level ≠ 0 := by
  induction a with
  | empty => exact absurd (Tiers.get_empty c ▸ h) List.not_mem_nil
  | add a c' level since ih =>
    rcases Tiers.mem_get_add.1 h with h | ⟨rfl, hlevel, rfl⟩
    · exact ⟨List.mem_cons_of_mem _ (ih h).1, (ih h).2⟩
    · exact ⟨List.mem_cons_self, hlevel⟩
  | grant a g ih =>
    rw [tiers, Tiers.addGrant_eq] at h
    rcases Tiers.mem_get_addAll.1 h with h | ⟨h, hlevel⟩
    · exact ⟨List.mem_append_right _ (ih h).1, (ih h).2⟩
    · exact ⟨List.mem_append_left _ h, hlevel⟩
  | merge a b iha ihb =>
    rw [tiers, Tiers.get_merge] at h
    rcases List.mem_append.1 h with h | h
    · exact ⟨List.mem_append_left _ (iha h).1, (iha h).2⟩
    · exact ⟨List.mem_append_right _ (ihb h).1, (ihb h).2⟩
  | normalize a ih =>
    rw [tiers, Tiers.get_normalize] at h
    exact ih (Tier.mem_of_mem_staircase h)

/-- Whatever has been added, level 0 aside, is there or covered. -/
theorem exists_covers {a : Assembly} (h : (c, tier) ∈ a.added) (hlevel : tier.level ≠ 0) :
    ∃ x ∈ a.tiers.get c, x.covers tier = true := by
  induction a with
  | empty => exact absurd h List.not_mem_nil
  | add a c' level since ih =>
    rcases List.mem_cons.1 h with heq | h
    · cases heq
      exact ⟨_, Tiers.mem_get_add.2 (Or.inr ⟨rfl, hlevel, rfl⟩), Tier.covers_refl _⟩
    · obtain ⟨x, hx, hcovers⟩ := ih h
      exact ⟨x, Tiers.mem_get_add.2 (Or.inl hx), hcovers⟩
  | grant a g ih =>
    rw [tiers, Tiers.addGrant_eq]
    rcases List.mem_append.1 h with h | h
    · exact ⟨tier, Tiers.mem_get_addAll.2 (Or.inr ⟨h, hlevel⟩), Tier.covers_refl tier⟩
    · obtain ⟨x, hx, hcovers⟩ := ih h
      exact ⟨x, Tiers.mem_get_addAll.2 (Or.inl hx), hcovers⟩
  | merge a b iha ihb =>
    rw [tiers, Tiers.get_merge]
    rcases List.mem_append.1 h with h | h
    · obtain ⟨x, hx, hcovers⟩ := iha h
      exact ⟨x, List.mem_append_left _ hx, hcovers⟩
    · obtain ⟨x, hx, hcovers⟩ := ihb h
      exact ⟨x, List.mem_append_right _ hx, hcovers⟩
  | normalize a ih =>
    obtain ⟨x, hx, hcovers⟩ := ih h
    obtain ⟨y, hy, hyx⟩ := Tier.exists_covers_staircase hx
    exact ⟨y, Tiers.get_normalize a.tiers c ▸ hy, Tier.covers_trans hyx hcovers⟩

/-- All that matters of how tiers are put together is which were added. -/
theorem normalize_eq (a : Assembly) : a.tiers.normalize = Tiers.ofList a.added := by
  rw [Tiers.ofList_eq]
  refine Tiers.ext_get fun c => ?_
  rw [Tiers.get_normalize, Tiers.get_normalize]
  refine Tier.staircase_eq_of_covers (fun x hx => ?_) fun x hx => ?_
  · exact Tiers.mem_get_addAll.2 (Or.inr (mem_added hx))
  · rw [Tiers.mem_get_addAll, Tiers.get_empty] at hx
    obtain ⟨hadded, hlevel⟩ := hx.resolve_left List.not_mem_nil
    exact exists_covers hadded hlevel

theorem isNormal_normalize (a : Assembly) : a.tiers.normalize.IsNormal :=
  .normalize fun _ _ htier => (mem_added htier).2

end Assembly

end Courseware
