import Courseware.Store.Items
import Courseware.Proofs.Network

/-!
# Parts, wholes and heights

What an item is part of and what its parts are, row by row. Links between stored items that never
close a cycle give every item a height, the number of items below it: along a link the height falls
(`Layered.height_lt`), and no item is higher than there are items.
-/

namespace Courseware

namespace Store

open Network

variable {s t : Store}

theorem mem_wholesOf {child whole : ItemId} {link : Link} {item : Item} :
    (whole, link, item) ∈ s.wholesOf child ↔
      s.links.get? (whole, child) = some link ∧ s.items.get? whole = some item := by
  rw [wholesOf, List.mem_filterMap]
  constructor
  · rintro ⟨⟨⟨w, c⟩, l⟩, hlink, hrow⟩
    split at hrow
    · rename_i hchild
      obtain rfl : c = child := hchild
      obtain ⟨item', hitem, heq⟩ := Option.map_eq_some_iff.1 hrow
      simp only [Prod.mk.injEq] at heq
      obtain ⟨rfl, rfl, rfl⟩ := heq
      exact ⟨Table.mem_toList_iff.1 hlink, hitem⟩
    · simp at hrow
  · rintro ⟨hlink, hitem⟩
    refine ⟨((whole, child), link), Table.mem_toList_iff.2 hlink, ?_⟩
    simp [hitem]

/-- The parts of an item by their places. -/
def partsByPlace (s : Store) (parent : ItemId) : Table (Int × ItemId) (ItemId × Link × Item) :=
  .ofList (s.links.toList.filterMap fun e =>
    if e.1.1 = parent then
      (s.items.get? e.1.2).map fun item => ((e.2.order, e.1.2), (e.1.2, e.2, item))
    else none)

theorem get?_partsByPlace {parent : ItemId} {k : Int × ItemId} {v : ItemId × Link × Item} :
    (s.partsByPlace parent).get? k = some v ↔
      s.links.get? (parent, v.1) = some v.2.1 ∧ s.items.get? v.1 = some v.2.2 ∧
        k = (v.2.1.order, v.1) := by
  have hrows : ∀ (k : Int × ItemId) (v : ItemId × Link × Item),
      (k, v) ∈ (s.links.toList.filterMap fun e =>
        if e.1.1 = parent then
          (s.items.get? e.1.2).map fun item => ((e.2.order, e.1.2), (e.1.2, e.2, item))
        else none) ↔
        s.links.get? (parent, v.1) = some v.2.1 ∧ s.items.get? v.1 = some v.2.2 ∧
          k = (v.2.1.order, v.1) := by
    intro k v
    rw [List.mem_filterMap]
    constructor
    · rintro ⟨⟨⟨w, c⟩, l⟩, hlink, hrow⟩
      split at hrow
      · rename_i hwhole
        obtain rfl : w = parent := hwhole
        obtain ⟨item', hitem, heq⟩ := Option.map_eq_some_iff.1 hrow
        obtain ⟨rfl, rfl⟩ := Prod.mk.inj heq
        exact ⟨Table.mem_toList_iff.1 hlink, hitem, rfl⟩
      · simp at hrow
    · rintro ⟨hlink, hitem, rfl⟩
      refine ⟨((parent, v.1), v.2.1), Table.mem_toList_iff.2 hlink, ?_⟩
      simp [hitem]
  rw [partsByPlace, Table.get?_ofList fun k v w hv hw => ?_]
  · exact hrows k v
  · obtain ⟨hlink, hitem, heq⟩ := (hrows k v).1 hv
    obtain ⟨hlink', hitem', heq'⟩ := (hrows k w).1 hw
    obtain ⟨v₁, v₂, v₃⟩ := v
    obtain ⟨w₁, w₂, w₃⟩ := w
    obtain rfl : v₁ = w₁ := (Prod.mk.inj (heq.symm.trans heq')).2
    obtain rfl : v₂ = w₂ := Option.some.inj (hlink.symm.trans hlink')
    obtain rfl : v₃ = w₃ := Option.some.inj (hitem.symm.trans hitem')
    rfl

theorem mem_partsOf {parent part : ItemId} {link : Link} {item : Item} :
    (part, link, item) ∈ s.partsOf parent ↔
      s.links.get? (parent, part) = some link ∧ s.items.get? part = some item := by
  change _ ∈ (s.partsByPlace parent).toList.map (·.2) ↔ _
  rw [List.mem_map]
  constructor
  · rintro ⟨⟨k, v⟩, hmem, rfl⟩
    obtain ⟨hlink, hitem, -⟩ := get?_partsByPlace.1 (Table.mem_toList_iff.1 hmem)
    exact ⟨hlink, hitem⟩
  · rintro ⟨hlink, hitem⟩
    refine ⟨((link.order, part), (part, link, item)), Table.mem_toList_iff.2 ?_, rfl⟩
    exact get?_partsByPlace.2 ⟨hlink, hitem, rfl⟩

/-- The parts of an item depend on its own links and on the items that these lead to. -/
theorem partsOf_congr {parent : ItemId}
    (hlinks : ∀ part, t.links.get? (parent, part) = s.links.get? (parent, part))
    (hitems : ∀ part, s.links.contains (parent, part) = true →
      t.items.get? part = s.items.get? part) : t.partsOf parent = s.partsOf parent := by
  refine congrArg (fun table => (Table.toList table).map (·.2))
    (show t.partsByPlace parent = s.partsByPlace parent from
      Table.ext_get? fun k => Option.ext fun v => ?_)
  rw [get?_partsByPlace, get?_partsByPlace, hlinks]
  refine and_congr_right fun hlink => ?_
  rw [hitems v.1 (Table.contains_of_get? hlink)]

theorem contains_linkNetwork (s : Store) (k : ItemId × ItemId) :
    s.linkNetwork.contains k = s.links.contains k :=
  Table.contains_map _ _ k

/-- Links are between stored items and never close a cycle. -/
structure Layered (s : Store) : Prop where
  links : ∀ k, s.links.contains k = true →
    s.items.contains k.1 = true ∧ s.items.contains k.2 = true
  acyclic : ∀ a b e, s.links.contains (a, b) = true → ¬ Walk s.linkNetwork b a e

/-- The stored items below an item. -/
def below (s : Store) (item : ItemId) : List ItemId :=
  s.items.keys.filter fun j => decide (j ≠ item) && s.linkNetwork.reaches item j

def height (s : Store) (item : ItemId) : Nat := (s.below item).length

theorem height_le (s : Store) (item : ItemId) : s.height item ≤ s.items.size := by
  refine Nat.le_trans (List.length_filter_le _ _) ?_
  rw [Table.keys, List.length_map]
  exact Nat.le_refl _

theorem Layered.congr (h : s.Layered) (hitems : t.items = s.items) (hlinks : t.links = s.links) :
    t.Layered := by
  constructor
  · rw [hitems, hlinks]
    exact h.links
  · rw [linkNetwork, hlinks]
    exact h.acyclic

theorem Layered.walk_of_link {whole part : ItemId} (hlink : s.links.contains (whole, part) = true) :
    ∃ e, Walk s.linkNetwork whole part e := by
  rw [← contains_linkNetwork] at hlink
  obtain ⟨d, hd⟩ := Table.contains_iff.1 hlink
  exact Walk.single hd

/-- What is below a stored part is below the whole, and so is the part itself, unless a path leads
back from the part. -/
theorem height_lt_of_link {whole part : ItemId} (hlink : s.links.contains (whole, part) = true)
    (hpart : s.items.contains part = true) (hback : ∀ e, ¬ Walk s.linkNetwork part whole e) :
    s.height part < s.height whole := by
  obtain ⟨e, hwalk⟩ := Layered.walk_of_link hlink
  have hdown : ∀ j, (decide (j ≠ part) && s.linkNetwork.reaches part j) = true →
      (decide (j ≠ whole) && s.linkNetwork.reaches whole j) = true := by
    intro j hj
    obtain ⟨-, hreach⟩ := Bool.and_eq_true_iff.1 hj
    obtain ⟨d, hrest⟩ := reaches_iff.1 hreach
    refine Bool.and_eq_true_iff.2 ⟨decide_eq_true ?_, reaches_iff.2 (hwalk.trans hrest)⟩
    rintro rfl
    exact hback d hrest
  have hsub : s.below part =
      (s.below whole).filter fun j => decide (j ≠ part) && s.linkNetwork.reaches part j := by
    rw [below, below, List.filter_filter]
    refine List.filter_congr fun j _ => ?_
    rw [Bool.eq_iff_iff, Bool.and_eq_true_iff (x := decide (j ≠ part) && _)]
    exact ⟨fun hj => ⟨hj, hdown j hj⟩, fun hj => hj.1⟩
  rw [height, height, hsub, List.length_filter_lt_length_iff_exists]
  refine ⟨part, List.mem_filter.2 ⟨Table.mem_keys.2 hpart, ?_⟩, by simp⟩
  refine Bool.and_eq_true_iff.2 ⟨decide_eq_true ?_, reaches_iff.2 ⟨e, hwalk⟩⟩
  rintro rfl
  exact hback e hwalk

theorem Layered.height_lt (h : s.Layered) {whole part : ItemId}
    (hlink : s.links.contains (whole, part) = true) : s.height part < s.height whole :=
  height_lt_of_link hlink (h.links _ hlink).2 fun e => h.acyclic whole part e hlink

/-- A ranking of items that grows along links. -/
def Ranks (rank : ItemId → Nat) (s : Store) : Prop :=
  ∀ whole part, s.links.contains (whole, part) = true → rank part < rank whole

theorem Layered.ranks (h : s.Layered) : Ranks s.height s := fun _ _ hlink => h.height_lt hlink

end Store

end Courseware
