import Courseware.Proofs.Settled
import Mathlib.Logic.Relation

/-!
# The graph of items has no cycle

A link is refused if and only if it would close a cycle, that is, if a path of links leads from the
part back to the whole, or both are the same item. So the links that a run has made never close one
(`itemGraph_run`), and induction along them is possible: what lies at the upper end of a link has
fewer links above it.
-/

namespace Courseware

namespace Network

variable {ν : Type} [DecidableEq ν] [Key ν] {g : Network ν}

/-- Some link leads from one node to the other. -/
def Leads (g : Network ν) (a b : ν) : Prop := g.contains (a, b) = true

theorem exists_walk_iff {a b : ν} : (∃ e, Walk g a b e) ↔ Relation.ReflTransGen g.Leads a b := by
  constructor
  · intro h
    obtain ⟨e, hwalk⟩ := h
    induction hwalk with
    | stay => exact .refl
    | step _ hlink ih => exact ih.tail (Table.contains_of_get? hlink)
  · intro h
    induction h with
    | refl => exact ⟨_, Walk.stay a⟩
    | tail _ hlink ih =>
      obtain ⟨e, hwalk⟩ := ih
      obtain ⟨d, hd⟩ := Table.contains_iff.1 hlink
      exact ⟨_, Walk.step hwalk hd⟩

theorem reaches_iff_reflTransGen {a b : ν} :
    g.reaches a b = true ↔ Relation.ReflTransGen g.Leads a b :=
  reaches_iff.trans exists_walk_iff

theorem leads_ofPairs {pairs : List (ν × ν)} {a b : ν} :
    (ofPairs pairs).Leads a b ↔ (a, b) ∈ pairs := by
  have hrows : ∀ (k : ν × ν) (e : Expiry),
      (k, e) ∈ pairs.map (fun p => (p, Expiry.never)) ↔ k ∈ pairs ∧ e = .never := by
    intro k e
    rw [List.mem_map]
    constructor
    · rintro ⟨p, hp, heq⟩
      obtain ⟨rfl, rfl⟩ := Prod.mk.inj heq
      exact ⟨hp, rfl⟩
    · rintro ⟨hk, rfl⟩
      exact ⟨k, hk, rfl⟩
  have hget : ∀ e, (ofPairs pairs).get? (a, b) = some e ↔ (a, b) ∈ pairs ∧ e = .never := by
    intro e
    rw [ofPairs, Table.get?_ofList, hrows]
    intro k v w hv hw
    exact ((hrows k v).1 hv).2.trans ((hrows k w).1 hw).2.symm
  simp only [Leads, Table.contains_iff, hget, exists_and_left, exists_eq, and_true]

end Network

namespace Store

open Network Relation

variable {s s' : Store} {now : Timestamp}

/-! ### Paths of links -/

/-- One item is a part of the other. -/
def HasPart (s : Store) (whole part : ItemId) : Prop := s.links.contains (whole, part) = true

theorem leads_linkNetwork (s : Store) : s.linkNetwork.Leads = s.HasPart := by
  funext whole part
  rw [Leads, contains_linkNetwork, HasPart]

theorem isWithin_iff {root item : ItemId} :
    s.isWithin root item = true ↔ ReflTransGen s.HasPart root item := by
  rw [isWithin, reaches_iff_reflTransGen, leads_linkNetwork]

/-- No path of links leads from an item back to it. -/
def ItemsAcyclic (s : Store) : Prop := ∀ item, ¬ TransGen s.HasPart item item

theorem Layered.itemsAcyclic (h : s.Layered) : s.ItemsAcyclic := by
  intro item hcycle
  obtain ⟨part, hlink, hback⟩ := TransGen.head'_iff.1 hcycle
  rw [← leads_linkNetwork, ← exists_walk_iff] at hback
  obtain ⟨e, hwalk⟩ := hback
  exact h.acyclic item part e hlink hwalk

/-- The links from whose part a path leads to the item. -/
def linksAbove (s : Store) (item : ItemId) : List (ItemId × ItemId) :=
  s.links.keys.filter fun k => s.isWithin k.2 item

theorem ItemsAcyclic.linksAbove_lt (h : s.ItemsAcyclic) {whole part : ItemId}
    (hlink : s.HasPart whole part) :
    (s.linksAbove whole).length < (s.linksAbove part).length := by
  have hsub : s.linksAbove whole = (s.linksAbove part).filter fun k => s.isWithin k.2 whole := by
    rw [linksAbove, linksAbove, List.filter_filter]
    refine List.filter_congr fun k _ => ?_
    rw [Bool.eq_iff_iff, Bool.and_eq_true, isWithin_iff, isWithin_iff]
    exact ⟨fun hpath => ⟨hpath, hpath.tail hlink⟩, And.left⟩
  rw [hsub, List.length_filter_lt_length_iff_exists]
  refine ⟨(whole, part), List.mem_filter.2 ⟨Table.mem_keys.2 hlink, isWithin_iff.2 .refl⟩, ?_⟩
  rw [isWithin_iff]
  exact fun hback => h whole (TransGen.head' hlink hback)

/-- Nothing is part of something that is part of something else and so on for ever. -/
theorem ItemsAcyclic.wellFounded (h : s.ItemsAcyclic) : WellFounded s.HasPart :=
  Subrelation.wf (fun hlink => h.linksAbove_lt hlink)
    (measure fun item => (s.linksAbove item).length).wf

/-! ### Refused links -/

/-- A new link would close a cycle. -/
def ClosesItemCycle (s : Store) (parent child : ItemId) : Prop :=
  parent = child ∨ TransGen s.HasPart child parent

theorem hasPart_withLink {parent child a b : ItemId} {link : Link} :
    (s.withLink parent child link).HasPart a b ↔ s.HasPart a b ∨ (a = parent ∧ b = child) := by
  rw [HasPart, withLink, Table.contains_insert, Bool.or_eq_true, decide_eq_true_eq, or_comm,
    @eq_comm _ (parent, child), Prod.mk.injEq, HasPart]

/-- A path through one more link either does without it or leads to its whole and on from its
part. -/
theorem transGen_withLink {parent child a b : ItemId} {link : Link}
    (h : TransGen (s.withLink parent child link).HasPart a b) :
    TransGen s.HasPart a b ∨
      (ReflTransGen s.HasPart a parent ∧ ReflTransGen s.HasPart child b) := by
  induction h with
  | single hlink =>
    rcases hasPart_withLink.1 hlink with hold | ⟨rfl, rfl⟩
    · exact Or.inl (.single hold)
    · exact Or.inr ⟨.refl, .refl⟩
  | tail _ hlink ih =>
    rcases hasPart_withLink.1 hlink with hold | ⟨rfl, rfl⟩
    · exact ih.imp (fun hpath => hpath.tail hold) fun hpath => ⟨hpath.1, hpath.2.tail hold⟩
    · exact Or.inr ⟨ih.elim TransGen.to_reflTransGen And.left, .refl⟩

/-- The links that would close a cycle are exactly those after which there is one. -/
theorem ItemsAcyclic.withLink_iff (h : s.ItemsAcyclic) {parent child : ItemId} {link : Link} :
    (s.withLink parent child link).ItemsAcyclic ↔ ¬ s.ClosesItemCycle parent child := by
  have hold : ∀ a b, s.HasPart a b → (s.withLink parent child link).HasPart a b :=
    fun a b hlink => hasPart_withLink.2 (Or.inl hlink)
  have hnew : (s.withLink parent child link).HasPart parent child :=
    hasPart_withLink.2 (Or.inr ⟨rfl, rfl⟩)
  constructor
  · intro hacyclic hcloses
    rcases hcloses with rfl | hback
    · exact hacyclic parent (.single hnew)
    · exact hacyclic parent (.head hnew (TransGen.mono hold _ _ hback))
  · intro hopen item hcycle
    rcases transGen_withLink hcycle with hcycle | ⟨hup, hdown⟩
    · exact h item hcycle
    · exact hopen (reflTransGen_iff_eq_or_transGen.1 (hdown.trans hup))

/-- The check fails exactly if a path leads from the part to the whole. -/
theorem ensureNoItemCycle_eq_error {links : Network ItemId} {parent child : ItemId}
    {fault : Fault} :
    ensureNoItemCycle links parent child = .error fault ↔
      fault = .itemCycle parent child ∧
        (parent = child ∨ TransGen links.Leads child parent) := by
  rw [← reflTransGen_iff_eq_or_transGen, ← reaches_iff_reflTransGen, ensureNoItemCycle]
  exact ite_error_eq_error

theorem requireItem_of_contains {id : ItemId} (h : s.items.contains id = true) :
    s.requireItem id = .ok () := by
  rw [requireItem, if_pos h]

/-- Everything that comes after the check fails for other reasons. -/
theorem createLink_eq_itemCycle {parent child a b : ItemId} {link : Link} :
    s.createLink parent child link now = .error (.itemCycle a b) ↔
      (a = parent ∧ b = child) ∧ s.items.contains parent = true ∧
        s.items.contains child = true ∧ s.ClosesItemCycle parent child := by
  have hstore : ∀ fault : StoreFault, Fault.ofStore fault ≠ .itemCycle a b := by
    intro fault
    cases fault <;> simp [Fault.ofStore]
  have hitem : ∀ id, s.requireItem id ≠ .error (.itemCycle a b) := by
    intro id
    rw [requireItem]
    split <;> simp
  rw [ClosesItemCycle, ← leads_linkNetwork]
  constructor
  · intro h
    rw [createLink] at h
    rcases bind_eq_error.1 h with hfault | ⟨_, hparent, h⟩
    · exact absurd hfault (hitem parent)
    rcases bind_eq_error.1 h with hfault | ⟨_, hchild, h⟩
    · exact absurd hfault (hitem child)
    rcases bind_eq_error.1 h with hcycle | ⟨_, -, h⟩
    · obtain ⟨hsame, hcloses⟩ := ensureNoItemCycle_eq_error.1 hcycle
      exact ⟨Fault.itemCycle.inj hsame, requireItem_eq_ok hparent, requireItem_eq_ok hchild, hcloses⟩
    have hrest : FailsFor (· ≠ .itemCycle a b)
        (Fault.lift (s.putLink parent child link) >>= fun s =>
          (s.markItemResults child .toBePropagated).2.settlePairs (s.pairsForLink parent child)
            now >>= fun p => .ok p.2) :=
      (failsFor_lift hstore _).bind fun _ _ =>
        (failsFor_settlePairs hstore (by simp) _ _ now).bind fun _ _ => failsFor_ok _
    exact absurd rfl (hrest _ h)
  · rintro ⟨⟨rfl, rfl⟩, hparent, hchild, hcloses⟩
    have hcycle := ensureNoItemCycle_eq_error.2 ⟨rfl, hcloses⟩
    rw [createLink, requireItem_of_contains hparent, requireItem_of_contains hchild]
    exact bind_eq_error.2 (Or.inr ⟨(), rfl, bind_eq_error.2 (Or.inr ⟨(), rfl,
      bind_eq_error.2 (Or.inl hcycle)⟩)⟩)

end Store

namespace Session

open Store Relation

/-- In every store that a run commits the links form no cycle, and a new link between stored items
is refused for a cycle if and only if it would close one. The check does so for any links. -/
theorem itemGraph_run (ids : IdSource) (clock : Timestamp) (policy : RetryPolicy)
    (steps : List Step) :
    ((start ids clock policy).run steps).committed.ItemsAcyclic ∧
      (∀ parent child link a b,
        (((start ids clock policy).run steps).perform (.createLink parent child link)).1 =
            .error (.itemCycle a b) ↔
          (a = parent ∧ b = child) ∧
            ((start ids clock policy).run steps).committed.items.contains parent = true ∧
            ((start ids clock policy).run steps).committed.items.contains child = true ∧
            ((start ids clock policy).run steps).committed.ClosesItemCycle parent child) ∧
      ∀ (pairs : List (ItemId × ItemId)) parent child fault,
        ensureNoItemCycle (.ofPairs pairs) parent child = .error fault ↔
          fault = .itemCycle parent child ∧
            (parent = child ∨ TransGen (fun whole part => (whole, part) ∈ pairs) child parent) := by
  have hs := idle_run (idle_start ids clock policy) steps
  have hlayered := (coherent_run ids clock policy steps).toLayered
  refine ⟨hlayered.itemsAcyclic, fun parent child link a b => ?_, fun pairs parent child fault => ?_⟩
  · rw [perform_eq_error hs]
    exact Reply.doneOnSuccess_eq_error.trans createLink_eq_itemCycle
  · have hleads : (Network.ofPairs pairs).Leads = fun whole part => (whole, part) ∈ pairs := by
      funext whole part
      exact propext Network.leads_ofPairs
    rw [ensureNoItemCycle_eq_error, hleads]

end Session

end Courseware
