import Courseware.Proofs.Marks

/-!
# What is told and what is read

A result that is passed up marks results on what its item is part of, in the one attempt that it
counts in further up; a result is made of the results on its parts in its own attempt and in those
that were started for the part below it. The first tells the second if and only if the second is made
of it, apart from one case: both belong to an attempt that was started for the item of the first
(`marked_iff_linked`). The second is made of the first then, and is not told.
-/

namespace Courseware

namespace Store

variable {s s' : Store} {now : Timestamp} {src key : ResultKey} {r : Result}

/-- Both results belong to an attempt that was started for the item of the first, which counts
elsewhere further up. -/
structure Overlooks (s : Store) (src key : ResultKey) : Prop where
  attempt : src.attempt = key.attempt
  root : ∃ a, s.attempts.get? (src.participant, src.attempt) = some a ∧ a.rootItem = some src.item ∧
    a.parent ≠ some src.attempt

theorem mem_linkedResults {participant : GroupId} {attempt : AttemptId} {part : ItemId} :
    (src, r) ∈ s.linkedResults participant attempt part ↔
      s.results.get? src = some r ∧ src.participant = participant ∧ src.item = part ∧
        s.feeds src attempt = true := by
  rw [linkedResults, resultsOn]
  simp only [List.mem_filter, Table.mem_toList_iff, Bool.and_eq_true, decide_eq_true_eq, and_assoc]

/-- A result tells another in whose attempt it counts further up. -/
theorem upwardAttempt_eq_iff (hstored : s.attempts.contains (src.participant, src.attempt) = true) :
    s.upwardAttempt src = some key.attempt ↔
      s.feeds src key.attempt = true ∧ ¬ s.Overlooks src key := by
  obtain ⟨a, ha⟩ := Table.contains_iff.1 hstored
  have hoverlooks : s.Overlooks src key ↔
      src.attempt = key.attempt ∧ a.rootItem = some src.item ∧ a.parent ≠ some src.attempt := by
    constructor
    · rintro ⟨hattempt, a', ha', hroot, hparent⟩
      obtain rfl : a = a' := Option.some.inj (ha.symm.trans ha')
      exact ⟨hattempt, hroot, hparent⟩
    · rintro ⟨hattempt, hroot, hparent⟩
      exact ⟨hattempt, a, ha, hroot, hparent⟩
  rw [hoverlooks, upwardAttempt, feeds, ha, Option.any_some]
  simp only [Bool.or_eq_true, Bool.and_eq_true, decide_eq_true_eq]
  by_cases hroot : a.rootItem = some src.item
  · rw [if_pos hroot]
    by_cases hown : src.attempt = key.attempt
    · simp [hroot, hown]
    · simp [hroot, hown]
  · rw [if_neg hroot, Option.some.injEq]
    simp [hroot]

/-! ### Passing up, row by row -/

/-- Marking changes the rows that it is asked to mark, and no other that there was. -/
theorem get?_markWholes {participant : GroupId} {attempt : AttemptId}
    {wholes : List (ItemId × Link × Item)} {out : List ResultKey × Nat}
    (hok : s.markWholes participant attempt now wholes = .ok (out, s'))
    (hr : s.results.get? key = some r) :
    s'.results.get? key =
      some (if participant = key.participant ∧ attempt = key.attempt ∧ key.item ∈ wholes.map (·.1)
        then { r with progress := .toBeRecomputed } else r) := by
  induction wholes generalizing s r out with
  | nil =>
    rw [(markWholes_nil_eq_ok hok).2, hr]
    simp
  | cons whole rest ih =>
    obtain ⟨item, link, row⟩ := whole
    have hother : (⟨participant, attempt, item⟩ : ResultKey) ≠ key →
        (participant = key.participant ∧ attempt = key.attempt ∧
            key.item ∈ ((item, link, row) :: rest).map (·.1) ↔
          participant = key.participant ∧ attempt = key.attempt ∧ key.item ∈ rest.map (·.1)) := by
      intro hne
      refine and_congr_right fun hparticipant => and_congr_right fun hattempt => ?_
      rw [List.map_cons, List.mem_cons, or_iff_right]
      intro hitem
      obtain rfl : key.item = item := hitem
      exact hne (by rw [hparticipant, hattempt])
    have hmissing : s.results.get? ⟨participant, attempt, item⟩ = none →
        (⟨participant, attempt, item⟩ : ResultKey) ≠ key := by
      rintro hnone rfl
      exact absurd (hr.symm.trans hnone) (by simp)
    rcases markWholes_cons_eq_ok hok with ⟨r', later, n, -, hrest, -⟩ |
      ⟨hnone, -, created, t, later, n, hinsert, hrest, -⟩ | ⟨hnone, -, hrest⟩
    · by_cases hhead : (⟨participant, attempt, item⟩ : ResultKey) = key
      · subst hhead
        have hmarked : (s.setProgress ⟨participant, attempt, item⟩ .toBeRecomputed).results.get?
            ⟨participant, attempt, item⟩ = some { r with progress := .toBeRecomputed } := by
          rw [setProgress, Table.get?_modify, if_pos rfl, hr, Option.map_some]
        rw [ih hrest hmarked]
        simp
      · have hkept : (s.setProgress ⟨participant, attempt, item⟩ .toBeRecomputed).results.get? key =
            some r := by
          rw [setProgress, Table.get?_modify, if_neg hhead, hr]
        rw [ih hrest hkept]
        simp only [hother hhead]
    · have hkept : t.results.get? key = some r := by
        rcases insertResult_eq_ok hinsert with ⟨-, -, rfl⟩ | ⟨-, -, -, -, rfl⟩
        · exact hr
        · rw [Table.get?_insert, if_neg (hmissing hnone), hr]
      rw [ih hrest hkept]
      simp only [hother (hmissing hnone)]
    · rw [ih hrest hr]
      simp only [hother (hmissing hnone)]

/-- Passing up a result marks those that it tells and leaves the others alone. -/
theorem get?_passUp (hs : s.Layered) (hstored : s.results.contains src = true) (hne : src ≠ key)
    (hr : s.results.get? key = some r) {out : List ResultKey × Nat}
    (hok : s.passUp src now = .ok (out, s')) :
    (s.Announces src key → s'.results.get? key = some { r with progress := .toBeRecomputed }) ∧
      (¬ s.Announces src key → s'.results.get? key = some r) := by
  obtain ⟨row, hrow⟩ := Table.contains_iff.1 hstored
  have hkept : (s.settle src row).results.get? key = some r :=
    settle_keeps (P := fun t => t.results.get? key = some r) hr
      (by rw [setProgress, Table.get?_modify, if_neg hne, hr])
  rw [passUp_of_get? hrow] at hok
  split at hok
  · rename_i hnone
    simp only [Except.ok.injEq, Prod.mk.injEq] at hok
    obtain ⟨-, rfl⟩ := hok
    refine ⟨fun htold => ?_, fun _ => hkept⟩
    exact absurd (htold.attempt.symm.trans hnone) (by simp)
  · rename_i attempt hupward
    rw [get?_markWholes hok hkept]
    have htold : (src.participant = key.participant ∧ attempt = key.attempt ∧
        key.item ∈ (s.wholesOf src.item).map (·.1)) ↔ s.Announces src key := by
      constructor
      · rintro ⟨hparticipant, rfl, hitem⟩
        obtain ⟨⟨whole, link, item⟩, hmem, rfl⟩ := List.mem_map.1 hitem
        exact ⟨hstored, hparticipant, Table.contains_of_get? (mem_wholesOf.1 hmem).1, hupward⟩
      · rintro ⟨-, hparticipant, hlink, hto⟩
        refine ⟨hparticipant, Option.some.inj (hupward.symm.trans hto), ?_⟩
        obtain ⟨link, hlink⟩ := Table.contains_iff.1 hlink
        obtain ⟨item, hitem⟩ := Table.contains_iff.1 (hs.links _ (Table.contains_of_get? hlink)).1
        exact List.mem_map.2 ⟨_, mem_wholesOf.2 ⟨hlink, hitem⟩, rfl⟩
    constructor
    · intro h
      rw [if_pos (htold.2 h)]
    · intro h
      rw [if_neg (mt htold.1 h)]

end Store

namespace Session

open Store

/-- At every time of a run, passing up a result marks a result on what its item is part of to be
recomputed if and only if that is made of it and does not get overlooked, and else leaves it alone. -/
theorem marked_iff_linked (ids : IdSource) (clock : Timestamp) (policy : RetryPolicy)
    (steps : List Step) {src key : ResultKey} {row r : Result} {now : Timestamp}
    {out : List ResultKey × Nat} {s' : Store}
    (hsrc : ((start ids clock policy).run steps).committed.results.get? src = some row)
    (hkey : ((start ids clock policy).run steps).committed.results.get? key = some r)
    (hparticipant : src.participant = key.participant)
    (hlink : ((start ids clock policy).run steps).committed.links.contains
      (key.item, src.item) = true)
    (hok : ((start ids clock policy).run steps).committed.passUp src now = .ok (out, s')) :
    ((s'.results.get? key).any (·.progress = .toBeRecomputed) = true ↔
      (src, row) ∈ ((start ids clock policy).run steps).committed.linkedResults key.participant
          key.attempt src.item ∧
        ¬ ((start ids clock policy).run steps).committed.Overlooks src key) ∧
      ((s'.results.get? key).any (·.progress = .toBeRecomputed) = false →
        s'.results.get? key = some r) := by
  have hs := coherent_run ids clock policy steps
  have hdone := allDone_run ids clock policy steps key r hkey
  generalize ((start ids clock policy).run steps).committed = s at *
  have hstored := Table.contains_of_get? hsrc
  have hne : src ≠ key := by
    rintro rfl
    exact hs.acyclic src.item src.item .never hlink (.stay _)
  have htells : s.Announces src key ↔
      (src, row) ∈ s.linkedResults key.participant key.attempt src.item ∧ ¬ s.Overlooks src key := by
    have hattempt : s.upwardAttempt src = some key.attempt ↔ _ :=
      upwardAttempt_eq_iff (hs.results src hstored).1
    rw [mem_linkedResults]
    constructor
    · rintro ⟨-, -, -, htold⟩
      obtain ⟨hfeeds, hno⟩ := hattempt.1 htold
      exact ⟨⟨hsrc, hparticipant, rfl, hfeeds⟩, hno⟩
    · rintro ⟨⟨-, -, -, hfeeds⟩, hno⟩
      exact ⟨hstored, hparticipant, hlink, hattempt.2 ⟨hfeeds, hno⟩⟩
  obtain ⟨hmarked, hkept⟩ := get?_passUp hs.toLayered hstored hne hkey hok
  rw [← htells]
  by_cases htold : s.Announces src key
  · rw [hmarked htold]
    simp [htold]
  · rw [hkept htold]
    simp [htold, hdone]

/-- Somebody tries a part in an attempt of its own, in which there is a result on the whole too. -/
def partTriedApart : List Step :=
  [ .call (.createGroup 1 ⟨"", .user, true, none, none, none⟩),
    .call (.createItem 10 .plain),
    .call (.createItem 11 .plain),
    .call (.createLink 10 11 .plain),
    .call (.grant 1 10 1 ⟨.content, .none, .none, .none, false, .always⟩),
    .call (.createAttempt 1 none none),
    .call (.createAttempt 1 (some 11) (some 0)),
    .call (.recordGrade ⟨⟨1, 1, 10⟩, none, .zero, .zero⟩),
    .call (.recordGrade ⟨⟨1, 1, 11⟩, none, .full, .zero⟩) ]

/-- The result in the attempt above is told. -/
theorem marked_partTriedApart :
    ∃ out s', ((start (.ofList [7, 8]) .zero .standard).run partTriedApart).committed.passUp
        ⟨1, 1, 11⟩ .zero = .ok (out, s') ∧
      (s'.results.get? ⟨1, 0, 10⟩).any (·.progress = .toBeRecomputed) = true := by
  have hstored : ((start (.ofList [7, 8]) .zero .standard).run
      partTriedApart).committed.results.contains ⟨1, 1, 11⟩ = true := by decide +kernel
  have hwhole : ((start (.ofList [7, 8]) .zero .standard).run
      partTriedApart).committed.results.contains ⟨1, 0, 10⟩ = true := by decide +kernel
  have hlink : ((start (.ofList [7, 8]) .zero .standard).run
      partTriedApart).committed.links.contains (10, 11) = true := by decide +kernel
  have hfeeds : ((start (.ofList [7, 8]) .zero .standard).run
      partTriedApart).committed.feeds ⟨1, 1, 11⟩ 0 = true := by decide +kernel
  have hpassed : (((start (.ofList [7, 8]) .zero .standard).run
      partTriedApart).committed.passUp ⟨1, 1, 11⟩ .zero).isOk = true := by decide +kernel
  obtain ⟨row, hrow⟩ := Table.contains_iff.1 hstored
  obtain ⟨r, hr⟩ := Table.contains_iff.1 hwhole
  cases hout : ((start (.ofList [7, 8]) .zero .standard).run partTriedApart).committed.passUp
      ⟨1, 1, 11⟩ .zero with
  | error fault =>
    rw [hout] at hpassed
    exact absurd hpassed (by simp [Except.isOk, Except.toBool])
  | ok p =>
    obtain ⟨out, s'⟩ := p
    refine ⟨out, s', rfl, ?_⟩
    refine (marked_iff_linked (.ofList [7, 8]) .zero .standard partTriedApart hrow hr rfl hlink
      hout).1.2 ⟨mem_linkedResults.2 ⟨hrow, rfl, rfl, hfeeds⟩, ?_⟩
    rintro ⟨hattempt, -⟩
    exact absurd hattempt (by decide)

/-- The result in the same attempt is made of the part, is not told of it, and is not what it is
due. -/
theorem overlooked_partTriedApart :
    ((start (.ofList [7, 8]) .zero .standard).run partTriedApart).committed.links.contains
        (10, 11) = true ∧
      (((start (.ofList [7, 8]) .zero .standard).run partTriedApart).committed.linkedResults
        1 1 11).map (·.1) = [⟨1, 1, 11⟩] ∧
      (((start (.ofList [7, 8]) .zero .standard).run partTriedApart).committed.passUp
        ⟨1, 1, 11⟩ .zero).toOption.map
          (fun p => (p.2.results.get? ⟨1, 1, 10⟩).map (·.progress)) = some (some .done) ∧
      (((start (.ofList [7, 8]) .zero .standard).run partTriedApart).committed.results.get?
        ⟨1, 1, 10⟩).map (fun r => decide
          (((start (.ofList [7, 8]) .zero .standard).run partTriedApart).committed.Consistent
            ⟨1, 1, 10⟩ r)) = some false := by
  decide +kernel

end Session

end Courseware
