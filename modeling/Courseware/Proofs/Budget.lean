import Courseware.Proofs.Followed
import Courseware.Proofs.Integrity
import Courseware.Proofs.Marks
import Courseware.Proofs.Sums

/-!
# Staying within a budget

Calls change the store by single writes, and none of these takes a count of tasks out of a budget as
long as the links between items are within it (`Budget.Bounds.passes`). So nothing that is added up
leaves the range of 64 bits, neither between calls nor in the course of one
(`Session.sumsFit_of_covers`). Weights are kept as they are given, though, and two of them can
already be too much (`Session.heavyParts_not_sumsFit`).
-/

namespace Courseware

namespace Budget

variable {b : Budget} {s t u : Store} {now : Timestamp} {key : ResultKey}

/-! ### Writes -/

/-- What comes about from a store by single writes, as calls make them, while the links between
items are within the budget. Every store that a call passes through is one of these, whether the
call succeeds or not. -/
inductive Passes (b : Budget) (s : Store) : Store → Prop
  | refl : Passes b s s
  /-- Anything but results is written. -/
  | beside {t u : Store} (hbefore : Passes b s t) (hresults : u.results = t.results)
      (hcovers : b.Covers u) : Passes b s u
  | dropGroup {t : Store} (hbefore : Passes b s t) (id : GroupId) : Passes b s (t.dropGroup id)
  | insertResult {t u : Store} (hbefore : Passes b s t) {key : ResultKey} {progress : Progress}
      {now : Timestamp} {created : Bool}
      (hinsert : t.insertResult key progress now = .ok (created, u)) : Passes b s u
  | setProgress {t : Store} (hbefore : Passes b s t) (key : ResultKey) (progress : Progress) :
      Passes b s (t.setProgress key progress)
  | markResults {t : Store} (hbefore : Passes b s t) (p : ResultKey → Bool) (progress : Progress) :
      Passes b s (t.markResults p progress).2
  | setEditRule {t : Store} (hbefore : Passes b s t) (key : ResultKey)
      (rule : Option (EditRule × Score)) : Passes b s (t.setEditRule key rule).2
  | recomputeResult {t u : Store} (hbefore : Passes b s t) {key : ResultKey} {r : Result}
      (hr : t.results.get? key = some r) (hok : t.recomputeResult key r = .ok u) : Passes b s u

/-- Results that count no other number of tasks than before stay within the budget. -/
theorem Bounds.of_kept (h : b.Bounds s) (hitems : t.items = s.items) (hlinks : t.links = s.links)
    (hkept : ∀ key r', t.results.get? key = some r' →
      ∃ r, s.results.get? key = some r ∧ r'.values.tasksTried = r.values.tasksTried) :
    b.Bounds t := by
  refine ⟨h.toCovers.congr hitems hlinks, fun key r' hr' => ?_⟩
  obtain ⟨r, hr, heq⟩ := hkept key r' hr'
  exact heq ▸ h.tried key r hr

theorem Bounds.insertResult (h : b.Bounds s) {progress : Progress} {created : Bool}
    (hinsert : s.insertResult key progress now = .ok (created, t)) : b.Bounds t := by
  rcases Store.insertResult_eq_ok hinsert with ⟨-, -, rfl⟩ | ⟨-, -, -, -, rfl⟩
  · exact h
  · refine ⟨h.toCovers.congr rfl rfl, fun k r hr => ?_⟩
    rw [Table.get?_insert] at hr
    split at hr
    · obtain rfl := Option.some.inj hr
      exact ⟨Int.le_refl 0, Int.natCast_nonneg _⟩
    · exact h.tried k r hr

theorem Bounds.recomputeResult (h : b.Bounds s) {r : Result} (hr : s.results.get? key = some r)
    (hok : s.recomputeResult key r = .ok t) : b.Bounds t := by
  obtain ⟨score, rs, -, rfl, hrow, hothers⟩ := Store.rows_recomputeResult hr hok
  refine ⟨h.toCovers.congr rfl rfl, fun k r' hr' => ?_⟩
  by_cases hk : key = k
  · subst hk
    obtain rfl := Option.some.inj (hrow.symm.trans hr')
    exact h.dueValues hr
  · exact h.tried k r' ((hothers k hk).symm.trans hr')

/-- No write leads out of the budget. -/
theorem Bounds.passes (h : b.Bounds s) (hpasses : b.Passes s t) : b.Bounds t := by
  induction hpasses with
  | refl => exact h
  | beside _ hresults hcovers ih => exact ⟨hcovers, fun key r hr => ih.tried key r (hresults ▸ hr)⟩
  | dropGroup _ id ih =>
    exact ih.of_kept rfl rfl fun key r hr => ⟨r, (Table.get?_filter_eq_some.1 hr).1, rfl⟩
  | insertResult _ hinsert ih => exact ih.insertResult hinsert
  | setProgress _ key progress ih =>
    refine ih.of_kept rfl rfl fun k r' hr' => ?_
    rcases Store.get?_setProgress hr' with ⟨-, r, hr, rfl⟩ | ⟨-, hr⟩
    · exact ⟨r, hr, rfl⟩
    · exact ⟨r', hr, rfl⟩
  | markResults _ p progress ih =>
    refine ih.of_kept rfl rfl fun k r' hr' => ?_
    obtain ⟨r, hr, hkeeps, -⟩ := Store.get?_markResults hr'
    exact ⟨r, hr, congrArg Aggregate.tasksTried hkeeps.values⟩
  | setEditRule _ key rule ih =>
    refine ih.of_kept rfl rfl fun k r' hr' => ?_
    rw [Store.setEditRule, Table.get?_modify] at hr'
    split at hr'
    · obtain ⟨r, hr, rfl⟩ := Option.map_eq_some_iff.1 hr'
      exact ⟨r, hr, rfl⟩
    · exact ⟨r', hr', rfl⟩
  | recomputeResult _ hr hok ih => exact ih.recomputeResult hr hok

/-! ### Calls -/

/-- Links change within the budget only. -/
theorem Passes.covers (h : b.Passes s t) (hs : b.Covers s) : b.Covers t := by
  induction h with
  | refl => exact hs
  | beside _ _ hcovers => exact hcovers
  | insertResult _ hinsert ih =>
    obtain ⟨rs, rfl⟩ := (Store.resultsGrow_insertResult hinsert).frame
    exact ih.congr rfl rfl
  | recomputeResult _ _ hok ih =>
    obtain ⟨rs, rfl⟩ := (Store.resultsGrow_recomputeResult hok).frame
    exact ih.congr rfl rfl
  | dropGroup _ _ ih | setProgress _ _ _ ih | markResults _ _ _ ih | setEditRule _ _ _ ih =>
    exact ih.congr rfl rfl

/-- Neither results nor links are written. -/
theorem Passes.apart (h : b.Passes s t) (hs : b.Covers s) (hresults : u.results = t.results)
    (hitems : u.items = t.items) (hlinks : u.links = t.links) : b.Passes s u :=
  h.beside hresults ((h.covers hs).congr hitems hlinks)

theorem passes_followed (b : Budget) (s : Store) (now : Timestamp) :
    Store.Followed now fun t _ => b.Passes s t where
  mono h _ := h
  passUp h hok :=
    Store.passUp_keeps (P := fun t => b.Passes s t) (fun ht => ht.setProgress _ _)
      (fun _ _ _ _ ht => ht.setProgress _ _)
      (fun _ _ _ _ _ _ ht _ hinsert => ht.insertResult hinsert) h hok
  recomputeResult h hr _ hok := h.recomputeResult hr hok

theorem Passes.settlesTo (h : b.Passes s t) (hs : b.Covers s) (ht : t.Coherent)
    (hsettles : Store.SettlesTo now t u) : b.Passes s u := by
  obtain ⟨gen, pairs, outcome, hok⟩ := hsettles
  have hgen : b.Passes s { t with generated := gen } := h.apart hs rfl rfl rfl
  have hmarked : b.Passes s ({ t with generated := gen }.markBelow now pairs) :=
    Store.markBelow_keeps (P := fun v => b.Passes s v) (fun _ p hv => hv.markResults p _) hgen now
      pairs
  have hcoherent := (ht.setGenerated gen).resultsGrow (Store.resultsGrow_markBelow _ now pairs)
  exact (passes_followed b s now).propagateResults
    (hcoherent.toLayered.propagateResults now).1 hmarked hok

theorem Passes.insertAttempt (h : b.Passes s t) (hs : b.Covers s) {participant : GroupId}
    {id : AttemptId} {attempt : Attempt}
    (hinsert : t.insertAttempt participant id attempt = .ok u) : b.Passes s u := by
  obtain ⟨-, -, -, rfl⟩ := Store.insertAttempt_eq_ok hinsert
  exact h.apart hs rfl rfl rfl

theorem Passes.touchLeaf (h : b.Passes s t) (htouch : t.touchLeaf key now = .ok u) :
    b.Passes s u := by
  obtain ⟨created, v, hinsert, rfl⟩ := Store.touchLeaf_eq_ok htouch
  split
  · exact h.insertResult hinsert
  · exact (h.insertResult hinsert).setProgress key _

theorem Passes.addAnswer (h : b.Passes s t) (hs : b.Covers s) {policy : RetryPolicy}
    {ids : IdSource} {answer : Answer} {id : AnswerId}
    (hadd : (t.addAnswer policy ids answer now).1 = .ok (id, u)) : b.Passes s u := by
  obtain ⟨v, htouch, hinsert⟩ := Store.addAnswer_eq_ok hadd
  obtain ⟨-, -, rfl⟩ := Store.insertAnswer_eq_ok hinsert
  exact (h.touchLeaf htouch).apart hs rfl rfl rfl

theorem Passes.insertGrading (h : b.Passes s t) (hs : b.Covers s) {id : AnswerId}
    {grading : Grading} (hinsert : t.insertGrading id grading = .ok u) : b.Passes s u := by
  obtain ⟨-, score, -, rfl⟩ := Store.insertGrading_eq_ok hinsert
  exact h.apart hs rfl rfl rfl

theorem Passes.gradeAnswer (h : b.Passes s t) (hs : b.Covers s) (ht : t.Coherent)
    {id : AnswerId} {event : GradingEvent} {status : GradeStatus}
    (hgrade : t.gradeAnswer id event now = .ok (status, u)) : b.Passes s u := by
  rcases Store.gradeAnswer_eq_ok hgrade with ⟨-, rfl⟩ | ⟨-, v, w, outcome, hinsert, htouch, hsettle⟩
  · exact h
  · exact ((h.insertGrading hs hinsert).touchLeaf htouch).settlesTo hs
      ((ht.insertGrading hinsert).resultsGrow (Store.resultsGrow_touchLeaf htouch))
      (Store.settlesTo_propagateResults hsettle)

theorem passes_work (hs : b.Covers s) (hcoherent : s.Coherent) {call : Call}
    (hwork : Store.Worked now s t call) : b.Passes s t := by
  cases hwork with
  | start hinsert => exact Passes.refl.insertAttempt hs hinsert
  | startOn hinsert hresult hsettle =>
    exact ((Passes.refl.insertAttempt hs hinsert).insertResult hresult).settlesTo hs
      ((hcoherent.insertAttempt hinsert).resultsGrow (Store.resultsGrow_insertResult hresult))
      (Store.settlesTo_propagateResults hsettle)
  | answer hadd hsettle =>
    exact (Passes.refl.addAnswer hs hadd).settlesTo hs (hcoherent.addAnswer hadd)
      (Store.settlesTo_propagateResults hsettle)
  | grade _ _ hgrade => exact Passes.refl.gradeAnswer hs hcoherent hgrade
  | gradeNew hadd hgrade =>
    exact (Passes.refl.addAnswer hs hadd).gradeAnswer hs (hcoherent.addAnswer hadd) hgrade
  | @correct k rule _ hsettle =>
    exact ((Passes.refl.setEditRule k rule).setProgress k _).settlesTo hs
      ((hcoherent.resultsGrow (Store.resultsGrow_setEditRule s k rule)).resultsGrow
        (Store.resultsGrow_setProgress _ k _)) (Store.settlesTo_propagateResults hsettle)
  | settle hsettle =>
    exact Passes.refl.settlesTo hs hcoherent (Store.settlesTo_propagateResults hsettle)

theorem passes_deleteRelation (hs : b.Covers s) {parent child : GroupId} {allowOrphans : Bool}
    {deletion : Store.RelationDeletion}
    (hdelete : s.deleteRelation parent child allowOrphans = .ok (deletion, t)) : b.Passes s t := by
  have hremoved : b.Passes s (s.deleteMembership parent child).2.recomputeClosure.2 :=
    Passes.refl.apart hs rfl rfl rfl
  rcases Store.deleteRelation_eq_ok hdelete with ⟨-, -, rfl⟩ | ⟨hclosure, -⟩ | ⟨-, -, rfl, -⟩
  · exact .refl
  · rwa [hclosure] at hremoved
  · have hleft := Store.deleteGroups_keeps (P := fun u => b.Passes s u)
      (fun _ id hu => hu.dropGroup id) hremoved deletion.deletedGroups
    exact hleft.apart hs rfl rfl rfl

theorem passes_aside (hs : b.Covers s) (hcoherent : s.Coherent) (haside : Store.Aside now s t)
    (ht : b.Covers t) : b.Passes s t := by
  induction haside with
  | write _ hkept => exact Passes.refl.beside hkept.results ht
  | delete hdelete => exact passes_deleteRelation hs hdelete
  | mark _ p progress ih => exact (ih (ht.congr rfl rfl)).markResults p progress
  | settle hbefore hsettles ih =>
    have hbefore' := hbefore.coherent hcoherent
    obtain ⟨gen, rs, heq⟩ := hsettles.frame
    refine (ih (ht.congr ?_ ?_)).settlesTo hs hbefore' hsettles
    · rw [heq]
    · rw [heq]

/-- A call is made of writes. -/
theorem passes_call (hs : b.Covers s) (hcoherent : s.Coherent) {policy : RetryPolicy} {call : Call}
    {ids : IdSource} {reply : Reply} (hrun : (Call.run policy now call ids s).1 = .ok (reply, t))
    (ht : b.Covers t) : b.Passes s t := by
  rcases (Store.Effect.of_run hrun).work_or_aside hcoherent with hwork | haside
  · exact passes_work hs hcoherent hwork
  · exact passes_aside hs hcoherent haside ht

theorem bounds_empty (b : Budget) : b.Bounds .empty where
  tasks item := Nat.zero_le _
  weights item := Nat.two_pow_pos 63
  tried key r hr := absurd hr (by simp [Store.empty])

end Budget

namespace Session

/-! ### Runs -/

/-- After the step the links are within the budget. -/
def Covered (b : Budget) (s : Session) (step : Step) : Prop := b.Covers (s.step step).committed

instance (b : Budget) (s : Session) (step : Step) : Decidable (Covered b s step) :=
  inferInstanceAs (Decidable (b.Covers _))

theorem bounds_run {b : Budget} (ids : IdSource) (clock : Timestamp) (policy : RetryPolicy)
    {steps : List Step} (hcovers : (start ids clock policy).Along (Covered b) steps) :
    b.Bounds ((start ids clock policy).run steps).committed := by
  refine (run_induction (I := fun s => s.committed.Coherent ∧ b.Bounds s.committed) ?_
    (idle_start ids clock policy) ⟨Store.coherent_empty, b.bounds_empty⟩ hcovers).2
  rintro s step hs ⟨hcoherent, hbounds⟩ hafter
  refine ⟨coherent_step hs hcoherent step, ?_⟩
  rcases committed_step hs step with heq | ⟨call, reply, -, hrun⟩
  · rwa [heq]
  · exact hbounds.passes (Budget.passes_call hbounds.toCovers hcoherent hrun hafter)

/-- As long as the links stay within a budget, in any run that starts with an empty store, whatever
is added up for a result fits in 64 bits: in the store after the run, and in every store that a call
passes through next within the budget. -/
theorem sumsFit_of_covers (ids : IdSource) (clock : Timestamp) (policy : RetryPolicy) (b : Budget)
    {steps : List Step} (hcovers : (start ids clock policy).Along (Covered b) steps) {t : Store}
    (hpasses : b.Passes ((start ids clock policy).run steps).committed t) (key : ResultKey) :
    t.SumsFit key :=
  ((bounds_run ids clock policy hcovers).passes hpasses).sumsFit key

/-- A whole of two parts that share one. -/
def sharedPart : List Step :=
  [ .call (.createGroup 1 ⟨"", .user, true, none, none, none⟩),
    .call (.createItem 10 .plain),
    .call (.createItem 11 .plain),
    .call (.createItem 12 .plain),
    .call (.createItem 13 .plain),
    .call (.createLink 10 11 .plain),
    .call (.createLink 10 12 .plain),
    .call (.createLink 11 13 .plain),
    .call (.createLink 12 13 .plain),
    .call (.grant 1 10 1 ⟨.solution, .none, .none, .none, false, .always⟩),
    .call (.createAttempt 1 none none),
    .call (.recordGrade ⟨⟨1, 0, 13⟩, none, .full, .zero⟩) ]

/-- One task for each way down. -/
def sharedBudget : Budget where
  tasks item := if item = 10 then 2 else 1
  pos item := by split <;> decide
  fits item := by split <;> decide

/-- The shared part counts twice, which the budget allows for. -/
theorem sumsFit_sharedPart :
    (start (.ofList [7, 8]) .zero .standard).Along (Covered sharedBudget) sharedPart ∧
      (((start (.ofList [7, 8]) .zero .standard).run sharedPart).committed.results.get?
        ⟨1, 0, 10⟩).map (·.values.tasksTried) = some 2 ∧
      ((start (.ofList [7, 8]) .zero .standard).run sharedPart).committed.SumsFit ⟨1, 0, 10⟩ := by
  have hcovers : (start (.ofList [7, 8]) .zero .standard).Along (Covered sharedBudget)
      sharedPart := by decide +kernel
  exact ⟨hcovers, by decide +kernel,
    sumsFit_of_covers (.ofList [7, 8]) .zero .standard sharedBudget hcovers .refl ⟨1, 0, 10⟩⟩

/-- All is well in particular as long as all the links there ever are lead downwards, are at most
62, and have weights that are small enough together. -/
theorem sumsFit_of_fewLinks (ids : IdSource) (clock : Timestamp) (policy : RetryPolicy)
    {links : List (ItemId × ItemId)} {height : ItemId → Nat} (hfew : links.length ≤ 62)
    (hdown : ∀ l ∈ links, height l.2 < height l.1) {steps : List Step}
    (halong : (start ids clock policy).Along
      (fun s step => (∀ k, (s.step step).committed.links.contains k = true → k ∈ links) ∧
        ∀ item, (((s.step step).committed.scoredPartsOf item).map
          fun p => p.2.1.weight.toInt.natAbs).sum < 2 ^ 63) steps) (key : ResultKey) :
    ((start ids clock policy).run steps).committed.SumsFit key :=
  (bounds_run ids clock policy (halong.mono fun _ _ h =>
    Budget.covers_ofLinks hfew hdown h.1 h.2)).sumsFit key

/-- Two parts of the highest weight, one of them done. -/
def heavyParts : List Step :=
  [ .call (.createGroup 1 ⟨"", .user, true, none, none, none⟩),
    .call (.createItem 10 .plain),
    .call (.createItem 11 .plain),
    .call (.createItem 12 .plain),
    .call (.createLink 10 11 { Link.plain with weight := Int64.maxValue }),
    .call (.createLink 10 12 { Link.plain with weight := Int64.maxValue }),
    .call (.grant 1 10 1 ⟨.content, .none, .none, .none, false, .always⟩),
    .call (.createAttempt 1 none none),
    .call (.recordGrade ⟨⟨1, 0, 11⟩, none, .full, .zero⟩) ]

/-- The weights add up to -2, and so the whole gets no score for the part that is done. -/
theorem heavyParts_not_sumsFit :
    ¬ ((start (.ofList [7, 8]) .zero .standard).run heavyParts).committed.SumsFit ⟨1, 0, 10⟩ ∧
      2 ^ 63 ≤ (((((start (.ofList [7, 8]) .zero .standard).run
        heavyParts).committed.countedParts ⟨1, 0, 10⟩).map (·.weight)).map Int64.toInt).sum ∧
      ((((start (.ofList [7, 8]) .zero .standard).run heavyParts).committed.countedParts
        ⟨1, 0, 10⟩).map (·.weight)).foldl (· + ·) 0 = -2 ∧
      (((start (.ofList [7, 8]) .zero .standard).run heavyParts).committed.results.get?
        ⟨1, 0, 11⟩).map (·.values.score) = some .full ∧
      (((start (.ofList [7, 8]) .zero .standard).run heavyParts).committed.results.get?
        ⟨1, 0, 10⟩).map (·.values.score) = some .zero := by
  have hsum : 2 ^ 63 ≤ (((((start (.ofList [7, 8]) .zero .standard).run
      heavyParts).committed.countedParts ⟨1, 0, 10⟩).map (·.weight)).map Int64.toInt).sum := by
    decide +kernel
  refine ⟨fun hfit => ?_, hsum, by decide +kernel, by decide +kernel, by decide +kernel⟩
  exact absurd (hfit.weights _ List.prefix_rfl).2 (Int.not_lt.2 hsum)

end Session

end Courseware
