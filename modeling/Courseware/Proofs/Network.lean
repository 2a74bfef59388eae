import Courseware.Network
import Courseware.Proofs.Chronology
import Courseware.Proofs.Table
import Mathlib.Data.List.ProdSigma

/-!
# What the search through a network finds

`widest` finds exactly the nodes to which some walk leads, each with the latest end among all walks
to it (`get?_widest`). Until its queue is empty a search may know an end too early, but then the
links that would correct it start at a node in the queue (`Search.Sound`). The queue empties, as a
node joins it only with news and there are no ends but those of the links (`Sound.run`).
-/

namespace Courseware

namespace Network

variable {ν : Type} [DecidableEq ν] [Key ν] {g : Network ν}

/-- `e` is the latest end among the walks from `a` to `b`. -/
def Widest (g : Network ν) (a b : ν) (e : Expiry) : Prop :=
  Walk g a b e ∧ ∀ d, Walk g a b d → d ≤ e

theorem Widest.unique {a b : ν} {e d : Expiry} (he : Widest g a b e) (hd : Widest g a b d) :
    e = d :=
  le_antisymm (hd.2 e he.1) (he.2 d hd.1)

theorem Widest.self (a : ν) : Widest g a a .never :=
  ⟨Walk.stay a, fun d _ => Expiry.le_never d⟩

theorem Walk.trans {a b c : ν} {e d : Expiry} (hab : Walk g a b e) (hbc : Walk g b c d) :
    ∃ m, Walk g a c m := by
  induction hbc with
  | stay => exact ⟨e, hab⟩
  | step _ hlink ih =>
    obtain ⟨m, hm⟩ := ih
    exact ⟨_, Walk.step hm hlink⟩

theorem Walk.single {a b : ν} {d : Expiry} (h : g.get? (a, b) = some d) :
    ∃ e, Walk g a b e :=
  ⟨_, Walk.step (Walk.stay a) h⟩

theorem Walk.mono {g' : Network ν} (h : ∀ k d, g.get? k = some d → ∃ d', g'.get? k = some d')
    {a b : ν} {e : Expiry} (hwalk : Walk g a b e) : ∃ e', Walk g' a b e' := by
  induction hwalk with
  | stay => exact ⟨.never, Walk.stay a⟩
  | step _ hlink ih =>
    obtain ⟨e', hwalk'⟩ := ih
    obtain ⟨d', hlink'⟩ := h _ _ hlink
    exact ⟨_, Walk.step hwalk' hlink'⟩

/-- A walk through a network with one more link either does without it or ends by passing it for
the last time. -/
theorem Walk.of_insert {p c : ν} {d : Expiry} {a b : ν} {e : Expiry}
    (h : Walk (g.insert (p, c) d) a b e) :
    (∃ e, Walk g a b e) ∨ ((∃ e, Walk g a p e) ∧ ∃ e, Walk g c b e) := by
  induction h with
  | stay => exact Or.inl ⟨.never, Walk.stay a⟩
  | @step x y _ _ _ hlink ih =>
    rw [Table.get?_insert] at hlink
    split at hlink
    · rename_i heq
      obtain ⟨rfl, rfl⟩ := Prod.mk.inj heq
      rcases ih with hwalk | ⟨hwalk, -⟩
      · exact Or.inr ⟨hwalk, .never, Walk.stay c⟩
      · exact Or.inr ⟨hwalk, .never, Walk.stay c⟩
    · rcases ih with ⟨m, hwalk⟩ | ⟨hwalk, m, hrest⟩
      · exact Or.inl ⟨_, Walk.step hwalk hlink⟩
      · exact Or.inr ⟨hwalk, _, Walk.step hrest hlink⟩

/-- `links` lists the links of `g`, in any order. -/
def Lists (g : Network ν) (links : List ((ν × ν) × Expiry)) : Prop :=
  ∀ link, link ∈ links ↔ g.get? link.1 = some link.2

theorem lists_toList (g : Network ν) : g.Lists g.toList := fun _ => Table.mem_entries_iff

/-! ### Reaching a node -/

namespace Search

variable {s t : Search ν}

theorem knows_iff {b : ν} {e : Expiry} :
    s.knows b e = true ↔ ∃ known, s.reached.get? b = some known ∧ e ≤ known := by
  rw [knows, Option.any_eq_true]
  simp only [decide_eq_true_eq]

theorem knows_of_get? {b : ν} {e : Expiry} (h : s.reached.get? b = some e) : s.knows b e = true :=
  knows_iff.2 ⟨e, h, le_rfl⟩

/-- Reaching a node adds what it says and takes nothing back. -/
theorem knows_reach (s : Search ν) (b c : ν) (e f : Expiry) :
    (s.reach b e).knows c f = true ↔ s.knows c f = true ∨ (c = b ∧ f ≤ e) := by
  rw [reach]
  split
  · rename_i hknown
    refine ⟨Or.inl, fun h => h.elim id ?_⟩
    rintro ⟨rfl, hle⟩
    obtain ⟨known, hget, hknown⟩ := knows_iff.1 hknown
    exact knows_iff.2 ⟨known, hget, le_trans hle hknown⟩
  · rename_i hnews
    rw [knows_iff, Table.get?_insert]
    split
    · rename_i hbc
      subst hbc
      constructor
      · rintro ⟨known, hknown, hle⟩
        exact Or.inr ⟨rfl, Option.some.inj hknown ▸ hle⟩
      · rintro (hold | ⟨-, hle⟩)
        · obtain ⟨known, hget, hle⟩ := knows_iff.1 hold
          have hearlier : known ≤ e := le_of_not_ge fun hlater =>
            hnews (knows_iff.2 ⟨known, hget, hlater⟩)
          exact ⟨e, rfl, le_trans hle hearlier⟩
        · exact ⟨e, rfl, hle⟩
    · rename_i hbc
      rw [← knows_iff]
      exact ⟨Or.inl, fun h => h.resolve_right fun hc => hbc hc.1.symm⟩

theorem get?_reach {b c : ν} {e f : Expiry} (h : (s.reach b e).reached.get? c = some f) :
    (c = b ∧ f = e ∧ c ∈ (s.reach b e).queue) ∨ s.reached.get? c = some f := by
  rw [reach] at h ⊢
  split
  · rename_i hknown
    rw [if_pos hknown] at h
    exact Or.inr h
  · rename_i hnews
    rw [if_neg hnews, Table.get?_insert] at h
    split at h
    · rename_i hbc
      exact Or.inl ⟨hbc.symm, (Option.some.inj h).symm, by simp [hbc]⟩
    · exact Or.inr h

theorem mem_queue_reach {b c : ν} {e : Expiry} (h : c ∈ s.queue) : c ∈ (s.reach b e).queue := by
  rw [reach]
  split
  · exact h
  · exact List.mem_append_left _ h

theorem mem_queue_of_reach {b c : ν} {e : Expiry} (h : c ∈ (s.reach b e).queue) :
    c ∈ s.queue ∨ (s.reach b e).reached.contains c = true := by
  rw [reach] at h ⊢
  split
  · rename_i hknown
    rw [if_pos hknown] at h
    exact Or.inl h
  · rename_i hnews
    rw [if_neg hnews] at h
    rcases List.mem_append.1 h with h | h
    · exact Or.inl h
    · rw [List.mem_singleton.1 h]
      exact Or.inr (by simp)

end Search

/-! ### What a search knows -/

/-- What holds at every moment of a search. Its ends are those of walks, and the links of a node that
it has reached are still to be passed, as the node is in the queue or as they are in a list, or they
have been passed with the end that the node has. -/
structure Search.Sound (g : Network ν) (source : ν) (pending : List ((ν × ν) × Expiry))
    (s : Search ν) : Prop where
  begun : s.knows source .never = true
  walks : ∀ b e, s.reached.get? b = some e → Walk g source b e
  queued : ∀ b ∈ s.queue, s.reached.contains b = true
  passed : ∀ b e c d, s.reached.get? b = some e → g.get? (b, c) = some d →
    b ∈ s.queue ∨ ((b, c), d) ∈ pending ∨ s.knows c (e.min d) = true

namespace Search

variable {source : ν} {links pending : List ((ν × ν) × Expiry)} {s t : Search ν}

theorem sound_start (g : Network ν) (source : ν) : Sound g source [] (start source) := by
  have hget : ∀ b e, (start source).reached.get? b = some e → source = b ∧ e = .never := by
    intro b e hb
    rw [start, Table.get?_insert] at hb
    split at hb
    · rename_i hab
      exact ⟨hab, (Option.some.inj hb).symm⟩
    · exact absurd hb (by simp)
  refine ⟨knows_of_get? (by simp [start]), fun b e hb => ?_, fun b hb => ?_,
    fun b e c d hb _ => Or.inl ?_⟩
  · obtain ⟨rfl, rfl⟩ := hget b e hb
    exact Walk.stay source
  · rw [List.mem_singleton.1 hb]
    simp [start]
  · rw [← (hget b e hb).1]
    exact List.mem_singleton.2 rfl

/-- Passing a link with the end of its source: the source may have got a later end meanwhile, but then
it is in the queue. -/
theorem Sound.reach {link : (ν × ν) × Expiry} (h : Sound g source (link :: pending) s)
    (hlink : g.get? link.1 = some link.2) {e : Expiry} (hwalk : Walk g source link.1.1 e)
    (hend : ∀ f, s.reached.get? link.1.1 = some f → f = e ∨ link.1.1 ∈ s.queue) :
    Sound g source pending (s.reach link.1.2 (e.min link.2)) := by
  refine ⟨(knows_reach _ _ _ _ _).2 (Or.inl h.begun), fun b f hb => ?_, fun b hb => ?_,
    fun b f c d hb hget => ?_⟩
  · rcases get?_reach hb with ⟨rfl, rfl, -⟩ | hb
    · exact Walk.step hwalk hlink
    · exact h.walks b f hb
  · refine (mem_queue_of_reach hb).elim (fun hb => ?_) id
    obtain ⟨known, hknown⟩ := Table.contains_iff.1 (h.queued b hb)
    obtain ⟨later, hlater, -⟩ := knows_iff.1
      ((knows_reach s link.1.2 b (e.min link.2) known).2 (Or.inl (knows_of_get? hknown)))
    exact Table.contains_of_get? hlater
  · rcases get?_reach hb with ⟨-, -, hnew⟩ | hold
    · exact Or.inl hnew
    · rcases h.passed b f c d hold hget with hqueue | hpending | hknown
      · exact Or.inl (mem_queue_reach hqueue)
      · rcases List.mem_cons.1 hpending with rfl | hpending
        · rcases hend f hold with rfl | hqueue
          · exact Or.inr (Or.inr ((knows_reach _ _ _ _ _).2 (Or.inr ⟨rfl, le_rfl⟩)))
          · exact Or.inl (mem_queue_reach hqueue)
        · exact Or.inr (Or.inl hpending)
      · exact Or.inr (Or.inr ((knows_reach _ _ _ _ _).2 (Or.inl hknown)))

theorem Sound.reachAll {b : ν} {e : Expiry} (h : Sound g source pending s)
    (hlinks : ∀ link ∈ pending, link.1.1 = b ∧ g.get? link.1 = some link.2)
    (hwalk : Walk g source b e) (hend : ∀ f, s.reached.get? b = some f → f = e ∨ b ∈ s.queue) :
    Sound g source [] (pending.foldl (fun s link => s.reach link.1.2 (e.min link.2)) s) := by
  induction pending generalizing s with
  | nil => exact h
  | cons link rest ih =>
    obtain ⟨rfl, hlink⟩ := hlinks link List.mem_cons_self
    refine ih (h.reach hlink hwalk hend) (fun l hl => hlinks l (List.mem_cons_of_mem _ hl))
      fun f hf => ?_
    rcases get?_reach hf with ⟨-, -, hqueue⟩ | hf
    · exact Or.inr hqueue
    · exact (hend f hf).imp_right mem_queue_reach

theorem mem_linksOf (hlinks : g.Lists links) {b : ν} {link : (ν × ν) × Expiry}
    (h : link ∈ links.filter fun link => link.1.1 = b) :
    link.1.1 = b ∧ g.get? link.1 = some link.2 := by
  obtain ⟨hmem, hb⟩ := List.mem_filter.1 h
  exact ⟨of_decide_eq_true hb, (hlinks link).1 hmem⟩

/-- A turn passes all links of the node that it takes from the queue. -/
theorem Sound.turn (hlinks : g.Lists links) (h : Sound g source [] s) {b : ν} {queue : List ν}
    (hqueue : s.queue = b :: queue) :
    Sound g source [] (leave links { s with queue } b) := by
  obtain ⟨e, he⟩ := Table.contains_iff.1 (h.queued b (by simp [hqueue]))
  simp only [leave, he]
  refine Sound.reachAll ⟨h.begun, h.walks, fun c hc => h.queued c (by simp [hqueue, hc]),
    fun c f k d hc hget => ?_⟩ (fun _ => mem_linksOf hlinks) (h.walks b e he) fun f hf => ?_
  · rcases h.passed c f k d hc hget with hmem | hmem | hknown
    · rw [hqueue] at hmem
      rcases List.mem_cons.1 hmem with rfl | hmem
      · exact Or.inr (Or.inl (List.mem_filter.2 ⟨(hlinks ((c, k), d)).2 hget, by simp⟩))
      · exact Or.inl hmem
    · exact absurd hmem List.not_mem_nil
    · exact Or.inr (Or.inr hknown)
  · exact Or.inl (Option.some.inj (hf.symm.trans he))

/-- Once the queue is empty, every walk is known. -/
theorem Sound.knows_of_walk (h : Sound g source [] s) (hqueue : s.queue = []) {b : ν} {e : Expiry}
    (hwalk : Walk g source b e) : s.knows b e = true := by
  induction hwalk with
  | stay => exact h.begun
  | @step b c e d _ hlink ih =>
    obtain ⟨known, hget, hle⟩ := knows_iff.1 ih
    rcases h.passed b known c d hget hlink with hmem | hmem | hknown
    · rw [hqueue] at hmem
      exact absurd hmem List.not_mem_nil
    · exact absurd hmem List.not_mem_nil
    · obtain ⟨last, hlast, hle'⟩ := knows_iff.1 hknown
      exact knows_iff.2 ⟨last, hlast,
        le_trans (min_le_min_right d hle) hle'⟩

theorem Sound.get?_iff (h : Sound g source [] s) (hqueue : s.queue = []) {b : ν} {e : Expiry} :
    s.reached.get? b = some e ↔ Widest g source b e := by
  constructor
  · intro hb
    refine ⟨h.walks b e hb, fun d hd => ?_⟩
    obtain ⟨known, hknown, hle⟩ := knows_iff.1 (h.knows_of_walk hqueue hd)
    rwa [Option.some.inj (hb.symm.trans hknown)]
  · rintro ⟨hwalk, hwidest⟩
    obtain ⟨known, hknown, hle⟩ := knows_iff.1 (h.knows_of_walk hqueue hwalk)
    rw [hknown, le_antisymm (hwidest known (h.walks b known hknown)) hle]

end Search

/-! ### The end of a search -/

/-- The ends that a walk can have. -/
def ends (g : Network ν) : List Expiry := .never :: g.toList.map (·.2)

theorem Walk.mem_ends {a b : ν} {e : Expiry} (h : Walk g a b e) : e ∈ g.ends := by
  induction h with
  | stay => exact List.mem_cons_self
  | @step _ _ _ d _ hlink ih =>
    have hd : d ∈ g.toList.map (·.2) := List.mem_map.2 ⟨_, Table.mem_toList_iff.2 hlink, rfl⟩
    exact min_rec' (· ∈ g.ends) ih (List.mem_cons_of_mem _ hd)

namespace Search

variable {source : ν} {links : List ((ν × ν) × Expiry)} {s t : Search ν}

/-- What can be found by passing links and is not known yet. -/
def news (g : Network ν) (s : Search ν) : List (ν × Expiry) :=
  (g.toList.map (·.1.2) ×ˢ g.ends).filter fun p => !s.knows p.1 p.2

theorem length_news_le (g : Network ν) (s : Search ν) :
    (s.news g).length ≤ g.size * (g.size + 1) := by
  refine Nat.le_trans (List.length_filter_le _ _) (Nat.le_of_eq ?_)
  rw [List.length_product, List.length_map, ends, List.length_cons, List.length_map]
  rfl

/-- A node that joins the queue is no longer news. -/
theorem length_reach_le {b c : ν} {d e : Expiry} (hlink : g.get? (b, c) = some d)
    (he : e ∈ g.ends) :
    (s.reach c e).queue.length + ((s.reach c e).news g).length ≤
      s.queue.length + (s.news g).length := by
  by_cases hknown : s.knows c e = true
  · exact Nat.le_of_eq (by rw [reach, if_pos hknown])
  · have hnews : (s.reach c e).news g =
        (s.news g).filter fun p => !decide (p.1 = c ∧ p.2 ≤ e) := by
      rw [news, news, List.filter_filter]
      refine List.filter_congr fun p _ => ?_
      rw [Bool.eq_iff_iff, Bool.and_eq_true, Bool.not_eq_true', Bool.not_eq_true',
        Bool.not_eq_true', ← Bool.not_eq_true, knows_reach, decide_eq_false_iff_not, not_or,
        Bool.not_eq_true, and_comm]
    have hlt : ((s.reach c e).news g).length < (s.news g).length := by
      rw [hnews, List.length_filter_lt_length_iff_exists]
      refine ⟨(c, e), List.mem_filter.2 ⟨List.mem_product.2 ⟨?_, he⟩, by simp [hknown]⟩,
        by simp⟩
      exact List.mem_map.2 ⟨_, Table.mem_toList_iff.2 hlink, rfl⟩
    have hqueue : (s.reach c e).queue.length = s.queue.length + 1 := by
      rw [reach, if_neg hknown, List.length_append]
      rfl
    omega

theorem length_reachAll_le {b : ν} {e : Expiry} (hwalk : Walk g source b e)
    (hlinks : ∀ link ∈ links, link.1.1 = b ∧ g.get? link.1 = some link.2) (s : Search ν) :
    (links.foldl (fun s link => s.reach link.1.2 (e.min link.2)) s).queue.length +
        ((links.foldl (fun s link => s.reach link.1.2 (e.min link.2)) s).news g).length ≤
      s.queue.length + (s.news g).length := by
  induction links generalizing s with
  | nil => exact Nat.le_refl _
  | cons link rest ih =>
    obtain ⟨rfl, hlink⟩ := hlinks link List.mem_cons_self
    exact Nat.le_trans (ih (fun l hl => hlinks l (List.mem_cons_of_mem _ hl)) _)
      (length_reach_le hlink (Walk.step hwalk hlink).mem_ends)

theorem Sound.length_turn_le (hlinks : g.Lists links) (h : Sound g source [] s) {b : ν}
    {queue : List ν} (hqueue : s.queue = b :: queue) :
    (leave links { s with queue } b).queue.length +
        ((leave links { s with queue } b).news g).length + 1 ≤
      s.queue.length + (s.news g).length := by
  obtain ⟨e, he⟩ := Table.contains_iff.1 (h.queued b (by simp [hqueue]))
  have hall := length_reachAll_le (h.walks b e he) (fun _ => mem_linksOf hlinks) { s with queue }
  change _ ≤ queue.length + (s.news g).length at hall
  simp only [leave, he]
  rw [hqueue, List.length_cons]
  omega

/-- What it means to take reached nodes from the queue until the queue is empty. -/
inductive Ends (links : List ((ν × ν) × Expiry)) : Search ν → Search ν → Prop where
  | done {s : Search ν} : s.queue = [] → Ends links s s
  | turn {s t : Search ν} {node : ν} {queue : List ν} : s.queue = node :: queue →
      s.reached.contains node = true → Ends links (leave links { s with queue } node) t →
      Ends links s t

theorem Ends.queue_eq_nil (h : Ends links s t) : t.queue = [] := by
  induction h with
  | done hqueue => exact hqueue
  | turn _ _ _ ih => exact ih

/-- With a turn for everything in the queue and everything that may still join it, the queue is
worked off. -/
theorem Sound.run (hlinks : g.Lists links) (turns : Nat) (h : Sound g source [] s)
    (hturns : s.queue.length + (s.news g).length ≤ turns) :
    Ends links s (s.run links turns) ∧ Sound g source [] (s.run links turns) := by
  induction turns generalizing s with
  | zero => exact ⟨.done (List.length_eq_zero_iff.1 (by omega)), h⟩
  | succ turns ih =>
    rw [Search.run]
    split
    · rename_i hqueue
      exact ⟨.done hqueue, h⟩
    · rename_i b queue hqueue
      have hlt := h.length_turn_le hlinks hqueue
      obtain ⟨hends, hsound⟩ := ih (h.turn hlinks hqueue) (by omega)
      exact ⟨.turn hqueue (h.queued b (by simp [hqueue])) hends, hsound⟩

end Search

/-! ### The search -/

variable {links : List ((ν × ν) × Expiry)}

/-- The search comes to an end of its own, in whatever order it passes the links of a node. -/
theorem search_ends (hlinks : g.Lists links) (source : ν) :
    Search.Ends links (.start source) ((Search.start source).run links g.turnLimit) ∧
      Search.Sound g source [] ((Search.start source).run links g.turnLimit) := by
  refine (Search.sound_start g source).run hlinks g.turnLimit ?_
  have hnews := Search.length_news_le g (.start source)
  rw [turnLimit, show (Search.start source).queue.length = 1 from rfl]
  omega

theorem get?_search (hlinks : g.Lists links) {a b : ν} {e : Expiry} :
    ((Search.start a).run links g.turnLimit).reached.get? b = some e ↔ Widest g a b e := by
  obtain ⟨hends, hsound⟩ := search_ends hlinks a
  exact hsound.get?_iff hends.queue_eq_nil

theorem get?_widest {a b : ν} {e : Expiry} : (g.widest a).get? b = some e ↔ Widest g a b e :=
  get?_search (lists_toList g)

theorem Walk.exists_widest {a b : ν} {e : Expiry} (h : Walk g a b e) :
    ∃ d, Widest g a b d := by
  obtain ⟨hends, hsound⟩ := search_ends (lists_toList g) a
  obtain ⟨known, hknown, -⟩ := Search.knows_iff.1 (hsound.knows_of_walk hends.queue_eq_nil h)
  exact ⟨known, get?_widest.1 hknown⟩

theorem contains_widest {a b : ν} :
    (g.widest a).contains b = true ↔ ∃ e, Walk g a b e := by
  rw [Table.contains_iff]
  constructor
  · rintro ⟨e, he⟩
    exact ⟨e, (get?_widest.1 he).1⟩
  · rintro ⟨e, he⟩
    obtain ⟨d, hd⟩ := he.exists_widest
    exact ⟨d, get?_widest.2 hd⟩

theorem reaches_iff {a b : ν} : g.reaches a b = true ↔ ∃ e, Walk g a b e :=
  contains_widest

/-- A node that no link leaves for another node reaches only itself. -/
theorem Walk.eq_of_no_links {a b : ν} {e : Expiry}
    (hlinks : ∀ c, g.contains (a, c) = true → c = a) (h : Walk g a b e) : b = a := by
  induction h with
  | stay => rfl
  | step _ hlink ih =>
    subst ih
    exact hlinks _ (Table.contains_of_get? hlink)

theorem widest_eq_singleton_iff {a : ν} :
    g.widest a = Table.empty.insert a .never ↔ ∀ b, g.contains (a, b) = true → b = a := by
  constructor
  · intro h b hb
    obtain ⟨d, hd⟩ := Table.contains_iff.1 hb
    have hmem := contains_widest.2 (Walk.single hd)
    rw [h, Table.contains_iff] at hmem
    obtain ⟨e, he⟩ := hmem
    rw [Table.get?_insert] at he
    split at he
    · exact Eq.symm ‹_›
    · exact absurd he (by simp)
  · intro hlinks
    refine Table.ext_get? fun b => ?_
    rw [Table.get?_insert]
    split
    · rename_i hab
      subst hab
      exact get?_widest.2 (Widest.self a)
    · rename_i hab
      refine Option.eq_none_iff_forall_ne_some.2 fun e he => hab ?_
      exact ((get?_widest.1 he).1.eq_of_no_links hlinks).symm

/-- The search is the widest-path function of every network: in whatever order it passes the links of
a node, it ends, and it has then found exactly the nodes to which a walk leads, each with the latest
end among all walks to it. -/
theorem search_finds_widest (g : Network ν) (source : ν) :
    (∀ links, g.Lists links →
      ∃ s, Search.Ends links (.start source) s ∧ s.reached = g.widest source) ∧
    (∀ b, (g.widest source).contains b = true ↔ ∃ e, Walk g source b e) ∧
    (∀ b e, (g.widest source).get? b = some e ↔
      Walk g source b e ∧ ∀ d, Walk g source b d → d ≤ e) ∧
    (g.widest source).get? source = some .never ∧
    (∀ t, Expiry.date t ≤ .never ∧ ¬ Expiry.never ≤ .date t) ∧
    (g.widest source = Table.empty.insert source .never ↔
      ∀ b, g.contains (source, b) = true → b = source) := by
  refine ⟨fun links hlinks => ⟨_, (search_ends hlinks source).1, ?_⟩, fun _ => contains_widest,
    fun _ _ => get?_widest, get?_widest.2 (Widest.self source),
    fun t => ⟨Expiry.le_never _, Expiry.not_never_le_date⟩, widest_eq_singleton_iff⟩
  refine Table.ext_get? fun b => Option.ext fun e => ?_
  rw [get?_search hlinks, get?_widest]

/-- Two ways lead from 1 to 4; the one by 2 holds longer. -/
example : widest (Table.ofList [((1, 2), .date ⟨9⟩), ((1, 3), .never), ((2, 4), .date ⟨8⟩),
    ((3, 4), .date ⟨5⟩), ((4, 1), .never)]) (1 : Int) =
      Table.ofList [(1, .never), (2, .date ⟨9⟩), (3, .never), (4, .date ⟨8⟩)] := by
  decide +kernel

end Network

end Courseware
