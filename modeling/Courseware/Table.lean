/-!
# Keyed tables

A table holds at most one value per key and lists its rows in key order, so two tables with the
same value under every key are equal (`Table.ext_get?`). Everything else about a table is said
through `get?`: one lemma per operation.
-/

namespace Courseware

/-- A type of table keys: a strict order that compares any two different keys. -/
class Key (κ : Type) where
  before : κ → κ → Bool
  before_irrefl : ∀ a, before a a = false
  before_trans : ∀ {a b c}, before a b = true → before b c = true → before a c = true
  eq_of_not_before : ∀ {a b}, before a b = false → before b a = false → a = b

namespace Key

theorem ne_of_before {κ : Type} [Key κ] {a b : κ} (h : before a b = true) : a ≠ b := by
  rintro rfl
  simp [before_irrefl] at h

theorem before_asymm {κ : Type} [Key κ] {a b : κ} (h : before a b = true) : before b a = false := by
  cases hba : before b a with
  | false => rfl
  | true => simpa [before_irrefl] using before_trans h hba

instance : Key Int where
  before a b := decide (a < b)
  before_irrefl := by simp
  before_trans := by simp only [decide_eq_true_eq]; omega
  eq_of_not_before := by simp only [decide_eq_false_iff_not]; omega

/-- Pairs are ordered by their first half, then by their second. -/
instance {α β : Type} [DecidableEq α] [Key α] [Key β] : Key (α × β) where
  before a b := before a.1 b.1 || (decide (a.1 = b.1) && before a.2 b.2)
  before_irrefl := by simp [before_irrefl]
  before_trans := by
    rintro ⟨a₁, a₂⟩ ⟨b₁, b₂⟩ ⟨c₁, c₂⟩ hab hbc
    simp only [Bool.or_eq_true, Bool.and_eq_true, decide_eq_true_eq] at hab hbc ⊢
    rcases hab with hab | ⟨rfl, hab⟩
    · rcases hbc with hbc | ⟨rfl, _⟩
      · exact Or.inl (before_trans hab hbc)
      · exact Or.inl hab
    · rcases hbc with hbc | ⟨rfl, hbc⟩
      · exact Or.inl hbc
      · exact Or.inr ⟨rfl, before_trans hab hbc⟩
  eq_of_not_before := by
    rintro ⟨a₁, a₂⟩ ⟨b₁, b₂⟩ hab hba
    simp only [Bool.or_eq_false_iff, Bool.and_eq_false_iff, decide_eq_false_iff_not] at hab hba
    obtain rfl := eq_of_not_before hab.1 hba.1
    obtain rfl := eq_of_not_before (hab.2.resolve_left (· rfl)) (hba.2.resolve_left (· rfl))
    rfl

/-- Orders a type by a key that tells its values apart. -/
@[reducible] def lift {α κ : Type} [Key κ] (f : α → κ) (hf : ∀ {a b}, f a = f b → a = b) : Key α where
  before a b := before (f a) (f b)
  before_irrefl a := before_irrefl (f a)
  before_trans := before_trans
  eq_of_not_before hab hba := hf (eq_of_not_before hab hba)

end Key

/-- Rows in strictly ascending key order. -/
structure Table (κ ν : Type) [Key κ] where
  entries : List (κ × ν)
  ascending : entries.Pairwise fun a b => Key.before a.1 b.1 = true
  deriving DecidableEq

namespace Table

variable {κ ν : Type} [DecidableEq κ] [Key κ]

/-- The value under a key in a list of rows. -/
def lookup (k : κ) : List (κ × ν) → Option ν
  | [] => none
  | e :: rest => if e.1 = k then some e.2 else lookup k rest

/-- The rows with one more, put at its place or in place of the row with the same key. -/
def insertRow (k : κ) (v : ν) : List (κ × ν) → List (κ × ν)
  | [] => [(k, v)]
  | e :: rest =>
    if e.1 = k then (k, v) :: rest
    else if Key.before k e.1 then (k, v) :: e :: rest
    else e :: insertRow k v rest

omit [DecidableEq κ] in
theorem ascending_tail {e : κ × ν} {rest : List (κ × ν)}
    (h : (e :: rest).Pairwise fun a b => Key.before a.1 b.1 = true) :
    (∀ r ∈ rest, Key.before e.1 r.1 = true) ∧
      rest.Pairwise fun a b => Key.before a.1 b.1 = true :=
  List.pairwise_cons.1 h

theorem mem_insertRow {k : κ} {v : ν} {r : κ × ν} {rows : List (κ × ν)}
    (h : r ∈ insertRow k v rows) : r = (k, v) ∨ r ∈ rows := by
  induction rows with
  | nil => simpa [insertRow] using h
  | cons e rest ih =>
    simp only [insertRow] at h
    split at h
    · rcases List.mem_cons.1 h with h | h
      · exact Or.inl h
      · exact Or.inr (List.mem_cons_of_mem _ h)
    · split at h
      · rcases List.mem_cons.1 h with h | h
        · exact Or.inl h
        · exact Or.inr h
      · rcases List.mem_cons.1 h with h | h
        · exact Or.inr (h ▸ List.mem_cons_self)
        · exact (ih h).imp_right (List.mem_cons_of_mem _)

theorem ascending_insertRow (k : κ) (v : ν) {rows : List (κ × ν)}
    (h : rows.Pairwise fun a b => Key.before a.1 b.1 = true) :
    (insertRow k v rows).Pairwise fun a b => Key.before a.1 b.1 = true := by
  induction rows with
  | nil => simp [insertRow]
  | cons e rest ih =>
    obtain ⟨hhead, htail⟩ := ascending_tail h
    simp only [insertRow]
    split
    · rename_i hek
      subst hek
      exact List.pairwise_cons.2 ⟨hhead, htail⟩
    · rename_i hek
      split
      · rename_i hbefore
        refine List.pairwise_cons.2 ⟨fun r hr => ?_, h⟩
        rcases List.mem_cons.1 hr with rfl | hr
        · exact hbefore
        · exact Key.before_trans hbefore (hhead r hr)
      · rename_i hbefore
        have hek' : Key.before e.1 k = true := by
          cases hc : Key.before e.1 k with
          | true => rfl
          | false => exact absurd (Key.eq_of_not_before hc (by simpa using hbefore)) hek
        refine List.pairwise_cons.2 ⟨fun r hr => ?_, ih htail⟩
        rcases mem_insertRow hr with rfl | hr
        · exact hek'
        · exact hhead r hr

/-! ### Operations -/

def empty : Table κ ν := ⟨[], List.Pairwise.nil⟩

instance : EmptyCollection (Table κ ν) := ⟨empty⟩
instance : Inhabited (Table κ ν) := ⟨empty⟩

/-- The value under `k`, if there is one. -/
def get? (t : Table κ ν) (k : κ) : Option ν := lookup k t.entries

def contains (t : Table κ ν) (k : κ) : Bool := (t.get? k).isSome

/-- Puts `v` under `k`, in place of what stood there. -/
def insert (t : Table κ ν) (k : κ) (v : ν) : Table κ ν :=
  ⟨insertRow k v t.entries, ascending_insertRow k v t.ascending⟩

/-- Keeps the rows that pass. -/
def filter (t : Table κ ν) (p : κ → ν → Bool) : Table κ ν :=
  ⟨t.entries.filter fun e => p e.1 e.2, t.ascending.filter _⟩

def erase (t : Table κ ν) (k : κ) : Table κ ν := t.filter fun k' _ => decide (k' ≠ k)

/-- Rewrites every value, with its key at hand. -/
def map {μ : Type} (t : Table κ ν) (f : κ → ν → μ) : Table κ μ :=
  ⟨t.entries.map fun e => (e.1, f e.1 e.2), List.pairwise_map.2 t.ascending⟩

/-- Rewrites the value under `k`; without one nothing happens. -/
def modify (t : Table κ ν) (k : κ) (f : ν → ν) : Table κ ν :=
  t.map fun k' v => if k' = k then f v else v

def toList (t : Table κ ν) : List (κ × ν) := t.entries

def keys (t : Table κ ν) : List κ := t.entries.map (·.1)

def size (t : Table κ ν) : Nat := t.entries.length

def isEmpty (t : Table κ ν) : Bool := t.entries.isEmpty

def any (t : Table κ ν) (p : κ → ν → Bool) : Bool := t.entries.any fun e => p e.1 e.2

/-- Puts rows in place of those with the same keys; later ones win over earlier ones. -/
def insertAll (t : Table κ ν) (rows : List (κ × ν)) : Table κ ν :=
  rows.foldl (fun t e => t.insert e.1 e.2) t

def eraseAll (t : Table κ ν) (ks : List κ) : Table κ ν := ks.foldl erase t

def ofList (rows : List (κ × ν)) : Table κ ν := empty.insertAll rows

/-! ### What each operation does to `get?` -/

omit [Key κ] in
theorem lookup_eq_none_of_forall_ne {k : κ} {rows : List (κ × ν)} (h : ∀ e ∈ rows, e.1 ≠ k) :
    lookup k rows = none := by
  induction rows with
  | nil => rfl
  | cons e rest ih =>
    simp only [lookup, if_neg (h e List.mem_cons_self)]
    exact ih fun e' he' => h e' (List.mem_cons_of_mem _ he')

omit [Key κ] in
theorem mem_of_lookup_eq_some {k : κ} {v : ν} {rows : List (κ × ν)} (h : lookup k rows = some v) :
    (k, v) ∈ rows := by
  induction rows with
  | nil => simp [lookup] at h
  | cons e rest ih =>
    simp only [lookup] at h
    split at h
    · rename_i hek
      obtain rfl := Option.some.inj h
      exact hek ▸ List.mem_cons_self
    · exact List.mem_cons_of_mem _ (ih h)

theorem lookup_eq_some_of_mem {k : κ} {v : ν} {rows : List (κ × ν)}
    (hasc : rows.Pairwise fun a b => Key.before a.1 b.1 = true) (h : (k, v) ∈ rows) :
    lookup k rows = some v := by
  induction rows with
  | nil => simp at h
  | cons e rest ih =>
    obtain ⟨hhead, htail⟩ := ascending_tail hasc
    simp only [lookup]
    rcases List.mem_cons.1 h with rfl | h
    · simp
    · rw [if_neg (Key.ne_of_before (hhead _ h)), ih htail h]

theorem mem_toList_iff {t : Table κ ν} {k : κ} {v : ν} : (k, v) ∈ t.toList ↔ t.get? k = some v :=
  ⟨lookup_eq_some_of_mem t.ascending, mem_of_lookup_eq_some⟩

theorem mem_keys_iff {t : Table κ ν} {k : κ} : k ∈ t.keys ↔ ∃ v, t.get? k = some v := by
  simp only [keys, List.mem_map]
  constructor
  · rintro ⟨⟨k', v⟩, h, rfl⟩
    exact ⟨v, mem_toList_iff.1 h⟩
  · rintro ⟨v, h⟩
    exact ⟨(k, v), mem_toList_iff.2 h, rfl⟩

theorem contains_iff {t : Table κ ν} {k : κ} : t.contains k = true ↔ ∃ v, t.get? k = some v := by
  simp [contains, Option.isSome_iff_exists]

/-- A table is what it holds under each key. -/
theorem ext_get? {t u : Table κ ν} (h : ∀ k, t.get? k = u.get? k) : t = u := by
  have key : ∀ (a b : List (κ × ν)), a.Pairwise (fun x y => Key.before x.1 y.1 = true) →
      b.Pairwise (fun x y => Key.before x.1 y.1 = true) →
      (∀ k, lookup k a = lookup k b) → a = b := by
    intro a
    induction a with
    | nil =>
      intro b _ _ hab
      cases b with
      | nil => rfl
      | cons e rest => simpa [lookup] using hab e.1
    | cons d as ih =>
      intro b ha hb hab
      cases b with
      | nil => simpa [lookup] using hab d.1
      | cons e bs =>
        obtain ⟨hd, has⟩ := ascending_tail ha
        obtain ⟨he, hbs⟩ := ascending_tail hb
        have hde : d.1 = e.1 := by
          refine Classical.byContradiction fun hne => ?_
          have h1 := hab d.1
          have h2 := hab e.1
          simp only [lookup, ↓reduceIte] at h1 h2
          rw [if_neg (Ne.symm hne)] at h1
          rw [if_neg hne] at h2
          have h3 := he _ (mem_of_lookup_eq_some h1.symm)
          have h4 := hd _ (mem_of_lookup_eq_some h2)
          simp [Key.before_asymm h3] at h4
        have hval : d.2 = e.2 := by
          have h1 := hab d.1
          simp only [lookup, ↓reduceIte, if_pos hde.symm] at h1
          exact Option.some.inj h1
        have hrest : as = bs := by
          refine ih bs has hbs fun k => ?_
          by_cases hk : d.1 = k
          · rw [lookup_eq_none_of_forall_ne fun r hr => fun hrk =>
                Key.ne_of_before (hd r hr) (hk.trans hrk.symm),
              lookup_eq_none_of_forall_ne fun r hr => fun hrk =>
                Key.ne_of_before (he r hr) ((hde.symm.trans hk).trans hrk.symm)]
          · have h1 := hab k
            simp only [lookup, if_neg hk] at h1
            rwa [if_neg (fun h => hk (hde.trans h))] at h1
        rw [hrest, Prod.ext hde hval]
  cases t
  cases u
  congr
  exact key _ _ ‹_› ‹_› h

@[simp] theorem get?_empty {k : κ} : (empty : Table κ ν).get? k = none := rfl

@[simp] theorem get?_emptyCollection {k : κ} : (∅ : Table κ ν).get? k = none := rfl

theorem lookup_insertRow (k k' : κ) (v : ν) (rows : List (κ × ν)) :
    lookup k' (insertRow k v rows) = if k = k' then some v else lookup k' rows := by
  induction rows with
  | nil => simp [insertRow, lookup]
  | cons e rest ih =>
    simp only [insertRow]
    split
    · rename_i hek
      subst hek
      by_cases hk : e.1 = k' <;> simp [lookup, hk]
    · rename_i hek
      split
      · by_cases hk : k = k' <;> simp [lookup, hk]
      · simp only [lookup, ih]
        by_cases hk : k = k'
        · subst hk
          simp [hek]
        · simp [hk]

@[simp] theorem get?_insert (t : Table κ ν) (k k' : κ) (v : ν) :
    (t.insert k v).get? k' = if k = k' then some v else t.get? k' :=
  lookup_insertRow k k' v t.entries

theorem get?_insert_self (t : Table κ ν) (k : κ) (v : ν) : (t.insert k v).get? k = some v := by
  simp

@[simp] theorem get?_filter (t : Table κ ν) (p : κ → ν → Bool) (k : κ) :
    (t.filter p).get? k = (t.get? k).filter (p k) := by
  have key : ∀ rows : List (κ × ν), rows.Pairwise (fun a b => Key.before a.1 b.1 = true) →
      lookup k (rows.filter fun e => p e.1 e.2) = (lookup k rows).filter (p k) := by
    intro rows
    induction rows with
    | nil => simp [lookup]
    | cons e rest ih =>
      intro h
      obtain ⟨hhead, htail⟩ := ascending_tail h
      by_cases hek : e.1 = k
      · subst hek
        by_cases hp : p e.1 e.2 = true
        · simp [lookup, hp, Option.filter]
        · rw [List.filter_cons_of_neg (by simpa using hp),
            lookup_eq_none_of_forall_ne fun r hr => fun hre =>
              Key.ne_of_before (hhead r (List.mem_filter.1 hr).1) hre.symm]
          simp [lookup, Option.filter, hp]
      · by_cases hp : p e.1 e.2 = true
        · simp [lookup, hp, hek, ih htail]
        · simp [lookup, hp, hek, ih htail]
  exact key t.entries t.ascending

@[simp] theorem get?_erase (t : Table κ ν) (k k' : κ) :
    (t.erase k).get? k' = if k = k' then none else t.get? k' := by
  simp only [erase, get?_filter]
  by_cases hk : k = k'
  · subst hk
    cases t.get? k <;> simp [Option.filter]
  · cases t.get? k' <;> simp [Option.filter, hk, Ne.symm hk]

@[simp] theorem get?_map {μ : Type} (t : Table κ ν) (f : κ → ν → μ) (k : κ) :
    (t.map f).get? k = (t.get? k).map (f k) := by
  have key : ∀ rows : List (κ × ν),
      lookup k (rows.map fun e => (e.1, f e.1 e.2)) = (lookup k rows).map (f k) := by
    intro rows
    induction rows with
    | nil => rfl
    | cons e rest ih =>
      by_cases hek : e.1 = k
      · subst hek
        simp [lookup]
      · simp [lookup, hek, ih]
  exact key t.entries

@[simp] theorem get?_modify (t : Table κ ν) (k k' : κ) (f : ν → ν) :
    (t.modify k f).get? k' = if k = k' then (t.get? k').map f else t.get? k' := by
  simp only [modify, get?_map]
  by_cases hk : k = k'
  · subst hk
    simp
  · cases t.get? k' <;> simp [hk, Ne.symm hk]

end Table

/-- A finite set of keys, listed in key order. -/
abbrev KeySet (κ : Type) [Key κ] := Table κ Unit

namespace KeySet

variable {κ : Type} [DecidableEq κ] [Key κ]

def add (s : KeySet κ) (k : κ) : KeySet κ := Table.insert s k ()

def addAll (s : KeySet κ) (ks : List κ) : KeySet κ := ks.foldl add s

def ofKeys (ks : List κ) : KeySet κ := addAll ∅ ks

/-- The keys of either set. -/
def union (s t : KeySet κ) : KeySet κ := addAll s (Table.keys t)

@[simp] theorem contains_add (s : KeySet κ) (k k' : κ) :
    Table.contains (s.add k) k' = (decide (k = k') || Table.contains s k') := by
  by_cases hk : k = k' <;> simp [add, Table.contains, hk]

@[simp] theorem contains_addAll (s : KeySet κ) (ks : List κ) (k : κ) :
    Table.contains (s.addAll ks) k = (decide (k ∈ ks) || Table.contains s k) := by
  induction ks generalizing s with
  | nil => simp [addAll]
  | cons a rest ih =>
    have h := ih (s.add a)
    simp only [addAll, List.foldl_cons] at h ⊢
    rw [h, contains_add]
    by_cases hk : k = a
    · subst hk
      simp
    · simp [hk, Ne.symm hk]

theorem contains_ofKeys (ks : List κ) (k : κ) :
    Table.contains (ofKeys ks) k = decide (k ∈ ks) := by
  rw [ofKeys, contains_addAll]
  simp [Table.contains]

end KeySet

end Courseware
