import Courseware.Proofs.Marks

/-!
# Writes that a result does not notice

What a result is made of survives the writes that calls start with, as far as these are about other
rows: a new item or attempt, an answer to another result or its grading, a link of another whole
that is removed, and a group that is dropped with all that belongs to it. And a result on what its
attempt was just started for has nothing yet to be made of (`consistent_of_untouched`).
-/

namespace Courseware

namespace Store

variable {s t : Store} {key : ResultKey}

/-! ### Graded answers -/

/-- The answers of a result with their gradings, by date and number. -/
def answersByDate (s : Store) (key : ResultKey) :
    Table (Timestamp × AnswerId) (AnswerId × Answer × Option Grading) :=
  .ofList (s.answers.toList.filterMap fun e =>
    if e.2.result = key then
      some ((e.2.submittedAt, e.1), (e.1, e.2, s.gradings.get? e.1))
    else none)

theorem get?_answersByDate {k : Timestamp × AnswerId} {v : AnswerId × Answer × Option Grading} :
    (s.answersByDate key).get? k = some v ↔
      (s.answers.get? v.1 = some v.2.1 ∧ v.2.1.result = key) ∧
        v.2.2 = s.gradings.get? v.1 ∧ k = (v.2.1.submittedAt, v.1) := by
  have hrows : ∀ (k : Timestamp × AnswerId) (v : AnswerId × Answer × Option Grading),
      (k, v) ∈ (s.answers.toList.filterMap fun e =>
        if e.2.result = key then
          some ((e.2.submittedAt, e.1), (e.1, e.2, s.gradings.get? e.1))
        else none) ↔
        (s.answers.get? v.1 = some v.2.1 ∧ v.2.1.result = key) ∧
          v.2.2 = s.gradings.get? v.1 ∧ k = (v.2.1.submittedAt, v.1) := by
    intro k v
    rw [List.mem_filterMap]
    constructor
    · rintro ⟨⟨id, answer⟩, hanswer, hrow⟩
      split at hrow
      · rename_i hresult
        obtain ⟨rfl, rfl⟩ := Prod.mk.inj (Option.some.inj hrow)
        exact ⟨⟨Table.mem_toList_iff.1 hanswer, hresult⟩, rfl, rfl⟩
      · simp at hrow
    · rintro ⟨⟨hanswer, hresult⟩, hgrading, rfl⟩
      refine ⟨(v.1, v.2.1), Table.mem_toList_iff.2 hanswer, ?_⟩
      rw [if_pos hresult, ← hgrading]
  rw [answersByDate, Table.get?_ofList fun k v w hv hw => ?_]
  · exact hrows k v
  · obtain ⟨⟨hanswer, -⟩, hgrading, heq⟩ := (hrows k v).1 hv
    obtain ⟨⟨hanswer', -⟩, hgrading', heq'⟩ := (hrows k w).1 hw
    obtain ⟨v₁, v₂, v₃⟩ := v
    obtain ⟨w₁, w₂, w₃⟩ := w
    obtain rfl : v₁ = w₁ := (Prod.mk.inj (heq.symm.trans heq')).2
    obtain rfl : v₂ = w₂ := Option.some.inj (hanswer.symm.trans hanswer')
    obtain rfl : v₃ = w₃ := hgrading.trans hgrading'.symm
    rfl

theorem gradedAnswers_congr
    (hanswers : ∀ id answer, answer.result = key →
      (t.answers.get? id = some answer ↔ s.answers.get? id = some answer))
    (hgradings : ∀ id answer, s.answers.get? id = some answer → answer.result = key →
      t.gradings.get? id = s.gradings.get? id) : t.gradedAnswers key = s.gradedAnswers key := by
  refine congrArg (fun table => (Table.toList table).map (·.2))
    (show t.answersByDate key = s.answersByDate key from
      Table.ext_get? fun k => Option.ext fun v => ?_)
  rw [get?_answersByDate, get?_answersByDate]
  rw [and_congr_left fun hresult => hanswers v.1 v.2.1 hresult]
  refine and_congr_right fun hanswer => ?_
  rw [hgradings v.1 v.2.1 hanswer.1 hanswer.2]

theorem gradedAnswers_eq_nil (h : ∀ id answer, s.answers.get? id = some answer →
    answer.result ≠ key) : s.gradedAnswers key = [] := by
  refine List.map_eq_nil_iff.2 (List.eq_nil_iff_forall_not_mem.2 fun e he => ?_)
  have hrow : (s.answersByDate key).get? e.1 = some e.2 := Table.mem_toList_iff.1 he
  obtain ⟨⟨hanswer, hresult⟩, -⟩ := get?_answersByDate.1 hrow
  exact h _ _ hanswer hresult

/-! ### Writes about other rows -/

theorem sustains_insertItem (hs : s.Layered) {id : ItemId} (item : Item)
    (hnew : s.items.contains id = false) (hitem : s.items.contains key.item = true) :
    s.Sustains { s with items := s.items.insert id item } key := by
  obtain ⟨row, hrow⟩ := Table.contains_iff.1 hitem
  have hsame := Table.get?_insert_of_contains item hnew hitem
  refine .of_counted ⟨row, hrow, hsame.trans hrow⟩ ?_ rfl fun _ _ _ _ => Iff.rfl
  refine partsOf_congr (fun _ => rfl) fun part hpart => ?_
  exact Table.get?_insert_of_contains item hnew (hs.links _ hpart).2

theorem sustains_withoutLink {parent : ItemId} (child : ItemId)
    (hitem : s.items.contains key.item = true) (hne : key.item ≠ parent) :
    s.Sustains (s.withoutLink parent child) key := by
  obtain ⟨row, hrow⟩ := Table.contains_iff.1 hitem
  refine .of_counted ⟨row, hrow, hrow⟩ (partsOf_congr (fun part => ?_) fun _ _ => rfl) rfl
    fun _ _ _ _ => Iff.rfl
  rw [withoutLink, Table.get?_erase, if_neg]
  intro heq
  exact hne (Prod.mk.inj heq).1.symm

theorem sustains_insertAttempt (hs : s.Coherent) {k : GroupId × AttemptId} (attempt : Attempt)
    (hnew : s.attempts.contains k = false) (hitem : s.items.contains key.item = true) :
    s.Sustains { s with attempts := s.attempts.insert k attempt } key := by
  obtain ⟨row, hrow⟩ := Table.contains_iff.1 hitem
  refine .of_counted ⟨row, hrow, hrow⟩ rfl rfl fun src a _ _ => ?_
  refine and_congr_right fun hvalues => ?_
  obtain ⟨r, hr, -⟩ := Option.map_eq_some_iff.1 hvalues
  have hattempt := (hs.results src (Table.contains_of_get? hr)).1
  rw [feeds, feeds, Table.get?_insert_of_contains attempt hnew hattempt]

theorem sustains_insertAnswer {id : AnswerId} {answer : Answer}
    (hnew : s.answers.contains id = false) (hitem : s.items.contains key.item = true)
    (hother : answer.result ≠ key) :
    s.Sustains { s with answers := s.answers.insert id answer } key := by
  obtain ⟨row, hrow⟩ := Table.contains_iff.1 hitem
  refine .of_counted ⟨row, hrow, hrow⟩ rfl ?_ fun _ _ _ _ => Iff.rfl
  refine gradedAnswers_congr (fun id' answer' hresult => ?_) fun _ _ _ _ => rfl
  rw [Table.get?_insert]
  split
  · rename_i heq
    subst heq
    rw [Table.get?_eq_none_iff.2 hnew]
    refine iff_of_false (fun h => ?_) (by simp)
    exact hother (Option.some.inj h ▸ hresult)
  · exact Iff.rfl

theorem sustains_insertGrading {id : AnswerId} {answer : Answer} (grading : Grading)
    (hanswer : s.answers.get? id = some answer) (hitem : s.items.contains key.item = true)
    (hother : answer.result ≠ key) :
    s.Sustains { s with gradings := s.gradings.insert id grading } key := by
  obtain ⟨row, hrow⟩ := Table.contains_iff.1 hitem
  refine .of_counted ⟨row, hrow, hrow⟩ rfl ?_ fun _ _ _ _ => Iff.rfl
  refine gradedAnswers_congr (fun _ _ _ => Iff.rfl) fun id' answer' hanswer' hresult => ?_
  rw [Table.get?_insert, if_neg]
  rintro rfl
  obtain rfl := Option.some.inj (hanswer.symm.trans hanswer')
  exact hother hresult

/-- A group takes with it only what belongs to it as a participant. -/
theorem sustains_dropGroup {id : GroupId} (hitem : s.items.contains key.item = true)
    (hne : key.participant ≠ id) : s.Sustains (s.dropGroup id) key := by
  obtain ⟨row, hrow⟩ := Table.contains_iff.1 hitem
  refine .of_counted ⟨row, hrow, hrow⟩ rfl ?_ fun src a hparticipant _ => ?_
  · refine gradedAnswers_congr (fun id' answer hresult => ?_) fun id' answer hanswer hresult => ?_
    · rw [dropGroup, Table.get?_filter_eq_some, hresult]
      exact and_iff_left (decide_eq_true hne)
    · rw [dropGroup, Table.get?_filter_of_forall]
      intro grading
      rw [hanswer, Option.all_some, hresult]
      exact decide_eq_true hne
  · have hkept : decide (src.participant ≠ id) = true := by
      rw [hparticipant]
      exact decide_eq_true hne
    rw [valuesAt, valuesAt, feeds, feeds, dropGroup, Table.get?_filter_of_forall fun _ => hkept,
      Table.get?_filter_of_forall fun _ => hkept]

/-! ### New results -/

/-- A new result is what it is due if no answer belongs to it and nothing counts for it. -/
theorem consistent_of_untouched {item : Item} (hitem : s.items.get? key.item = some item)
    (hanswers : s.gradedAnswers key = [])
    (hnone : ∀ src, s.results.contains src = true → ¬ s.IsSource src key) (now : Timestamp)
    (progress : Progress) : s.Consistent key ⟨.fresh now, none, none, progress⟩ := by
  have hbase : (Aggregate.fresh now).Alike
      (s.baseValues key ⟨.fresh now, none, none, progress⟩) := by
    rw [baseValues_eq hitem]
    split
    · rw [hanswers]
      exact ⟨.refl _, rfl, rfl⟩
    · refine alike_aggregateParts_fresh (fun part hpart => ?_) _ _ _
      obtain ⟨p, hp, rfl⟩ := List.mem_map.1 hpart
      have hlink := Table.contains_of_get? (mem_partsOf.1 hp).1
      have hempty : (s.countedValues key p.1).toList = [] := by
        refine List.eq_nil_iff_forall_not_mem.2 fun e he => ?_
        obtain ⟨hvalues, hparticipant, hpart, hfeeds⟩ :=
          get?_countedValues.1 (Table.mem_toList_iff.1 he)
        obtain ⟨r, hr, -⟩ := Option.map_eq_some_iff.1 hvalues
        exact hnone e.1 (Table.contains_of_get? hr) ⟨hparticipant, hpart ▸ hlink, hfeeds⟩
      rw [partOf, partBest, hempty]
      rfl
  have hcorrected : ((Aggregate.fresh now).corrected none none).Agrees (.fresh now) :=
    ⟨show (applyEditRule .zero none none).same .zero = true by decide, rfl, rfl⟩
  exact (hbase.corrected none none).agrees hcorrected

end Store

end Courseware
