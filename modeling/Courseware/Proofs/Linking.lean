import Courseware.Proofs.Marks

/-!
# Results after a link is made or changed

A new link, or a changed one, marks the results on the part, and these tell the results on the whole
that they count for. So a result on the whole that hears of a result on the part is what it is due
afterwards. One that hears of none keeps its values unless it is recomputed for another reason, and
then it may not be what it is due (`consistent_of_link`).
-/

namespace Courseware

namespace Store

variable {s s' : Store} {now : Timestamp} {key : ResultKey}

/-- Every result is what it is due. -/
def AllConsistent (s : Store) : Prop :=
  ∀ key r, s.results.get? key = some r → s.Consistent key r

instance (s : Store) : Decidable s.AllConsistent :=
  decidable_of_iff (∀ e ∈ s.results.toList, s.Consistent e.1 e.2)
    ⟨fun h key r hr => h (key, r) (Table.mem_toList_iff.2 hr),
      fun h e he => h e.1 e.2 (Table.mem_toList_iff.1 he)⟩

/-- A result on the part counts for the attempt of the other result. -/
def Hears (s : Store) (part : ItemId) (key : ResultKey) : Prop :=
  ∃ src, s.results.contains src = true ∧ src.item = part ∧
    src.participant = key.participant ∧ s.upwardAttempt src = some key.attempt

/-- Marking the results on an item makes all that are settled announce themselves. -/
theorem mem_announcing_markItemResults (hdone : s.AllDone) {src : ResultKey}
    (hstored : s.results.contains src = true) :
    src ∈ (s.markItemResults src.item .toBePropagated).2.announcing := by
  obtain ⟨r, hr⟩ := Table.contains_iff.1 hstored
  refine mem_announcing.2 ⟨{ r with progress := .toBePropagated }, ?_, rfl⟩
  rw [markItemResults, markResults, Table.get?_map, hr, Option.map_some, if_pos]
  simp [hdone src r hr]

section Link

variable {child : ItemId} {link : Link} {exempt : Aggregate → Prop}

/-- What hears of a result on the part is told. -/
theorem tracked_of_hears (hdone : s.AllDone) (hhears : s.Hears child key) :
    Tracked exempt ((s.withLink key.item child link).markItemResults child .toBePropagated).2
      ((s.withLink key.item child link).markItemResults child .toBePropagated).2.announcing key := by
  obtain ⟨src, hstored, rfl, hparticipant, hattempt⟩ := hhears
  have hdone' : (s.withLink key.item src.item link).AllDone := hdone
  refine fun _ _ => Or.inr (Or.inr (Or.inr ⟨src, mem_announcing_markItemResults hdone' hstored,
    ?_, hparticipant, ?_, hattempt⟩))
  · rw [markItemResults, markResults, Table.contains_map]
    exact hstored
  · change (s.links.insert (key.item, src.item) link).contains (key.item, src.item) = true
    simp

theorem tracked_markItemResults {t : Store} (ht : t.Grounded) (item : ItemId)
    (h : Tracked exempt t [] key) :
    Tracked exempt (t.markItemResults item .toBePropagated).2
      (t.markItemResults item .toBePropagated).2.announcing key :=
  (h.markResults ht.toCoherent _ _).mono fun _ hsrc => absurd hsrc List.not_mem_nil

end Link

/-- A result on the whole ends up as it is due if it hears of a result on the part, or if the link
as such makes it due nothing else; and if it does not end up so, it has kept its values. -/
theorem consistent_createLink (hs : s.Grounded) (hdone : s.AllDone) {child : ItemId} {link : Link}
    (h : s.createLink key.item child link now = .ok s') (haligned : s'.Aligned key) {r : Result}
    (hr : s'.results.get? key = some r) :
    (s.Hears child key ∨ (∀ old, s.results.get? key = some old →
      (s.withLink key.item child link).Consistent key old) → s'.Consistent key r) ∧
      (s'.Consistent key r ∨ s.valuesAt key = some r.values) := by
  obtain ⟨hparent, hchild, hreach, outcome, hsettle⟩ := createLink_eq_ok h
  have hlink := hs.withLink link hparent hchild hreach
  have hmarked := hlink.markResults (fun k => k.item = child) .toBePropagated
  have haligned' : ((s.withLink key.item child link).markItemResults child
      .toBePropagated).2.Aligned key := by
    obtain ⟨gen, rs, rfl⟩ := settlePairs_frame hsettle
    exact haligned
  have hsettled : ∀ exempt : Aggregate → Prop, Tracked exempt
      ((s.withLink key.item child link).markItemResults child .toBePropagated).2
      ((s.withLink key.item child link).markItemResults child .toBePropagated).2.announcing key →
      exempt r.values ∨ s'.Consistent key r := fun exempt htracked =>
    htracked.settlesTo hmarked haligned' (settlesTo_settlePairs hsettle) r hr
  constructor
  · intro hcase
    refine (hsettled (fun _ => False) ?_).resolve_left id
    rcases hcase with hhears | hdue
    · exact tracked_of_hears hdone hhears
    · exact tracked_markItemResults hlink child fun old hold => Or.inr (Or.inl (hdue old hold))
  · refine (hsettled (fun a => s.valuesAt key = some a) ?_).symm
    refine tracked_markItemResults hlink child fun old hold => Or.inl ?_
    rw [valuesAt]
    exact congrArg (Option.map (·.values)) hold

end Store

namespace Session

open Store

/-- A link that is made or changed brings a result on the whole up to date if it hears of a result
on the part, and also if the link as such makes it due nothing else. Otherwise it is up to date or
has kept its values. This takes it that its attempt was not started for a part of the item. -/
theorem consistent_of_link (ids : IdSource) (clock : Timestamp) (policy : RetryPolicy)
    (steps : List Step) {key : ResultKey} {parent child : ItemId} {link : Link} {reply : Reply}
    (hkey : key.item = parent)
    (hperform : (((start ids clock policy).run steps).perform
      (.createLink parent child link)).1 = .ok reply)
    (haligned : (((start ids clock policy).run steps).perform
      (.createLink parent child link)).2.committed.Aligned key) {r : Result}
    (hr : (((start ids clock policy).run steps).perform
      (.createLink parent child link)).2.committed.results.get? key = some r) :
    (((start ids clock policy).run steps).committed.Hears child key ∨
      (∀ old, ((start ids clock policy).run steps).committed.results.get? key = some old →
        (((start ids clock policy).run steps).committed.withLink parent child link).Consistent
          key old) →
      (((start ids clock policy).run steps).perform
        (.createLink parent child link)).2.committed.Consistent key r) ∧
      ((((start ids clock policy).run steps).perform
        (.createLink parent child link)).2.committed.Consistent key r ∨
      ((start ids clock policy).run steps).committed.valuesAt key = some r.values) := by
  subst hkey
  obtain ⟨store, hout, hcommitted⟩ := perform_ok hperform
  rw [hcommitted] at haligned hr ⊢
  exact consistent_createLink (grounded_run ids clock policy steps)
    (allDone_run ids clock policy steps) (Reply.doneOnSuccess_eq_ok.1 hout).1 haligned hr

/-- Somebody has done all of the one part of a whole. -/
def onePartDone : List Step :=
  [ .call (.createGroup 1 ⟨"", .user, true, none, none, none⟩),
    .call (.createItem 10 .plain),
    .call (.createItem 11 .plain),
    .call (.createItem 12 .plain),
    .call (.createLink 10 11 .plain),
    .call (.grant 1 10 1 ⟨.content, .none, .none, .none, false, .always⟩),
    .call (.createAttempt 1 none none),
    .call (.recordGrade ⟨⟨1, 0, 11⟩, none, .full, .zero⟩) ]

/-- The same, and what is yet to be a part was tried in vain. -/
def otherPartTried : List Step :=
  onePartDone ++ [.call (.recordGrade ⟨⟨1, 0, 12⟩, none, .zero, .zero⟩)]

/-- A second part that was tried before it became one is counted. -/
theorem consistent_otherPartTried :
    ∃ r,
      (((start (.ofList [7, 8, 9]) .zero .standard).run otherPartTried).perform
        (.createLink 10 12 .plain)).2.committed.results.get? ⟨1, 0, 10⟩ = some r ∧
      (((start (.ofList [7, 8, 9]) .zero .standard).run otherPartTried).perform
        (.createLink 10 12 .plain)).2.committed.Consistent ⟨1, 0, 10⟩ r := by
  have hperform : (((start (.ofList [7, 8, 9]) .zero .standard).run otherPartTried).perform
      (.createLink 10 12 .plain)).1 = .ok .done := by decide +kernel
  have haligned : (((start (.ofList [7, 8, 9]) .zero .standard).run otherPartTried).perform
      (.createLink 10 12 .plain)).2.committed.Aligned ⟨1, 0, 10⟩ := by decide +kernel
  have hr : (((start (.ofList [7, 8, 9]) .zero .standard).run otherPartTried).perform
      (.createLink 10 12 .plain)).2.committed.results.get? ⟨1, 0, 10⟩ =
        some ⟨⟨⟨4632233691727265792⟩, some .zero, some .zero, 2, .zero⟩, none, none, .done⟩ := by
    decide +kernel
  have hhears : ((start (.ofList [7, 8, 9]) .zero .standard).run otherPartTried).committed.Hears
      12 ⟨1, 0, 10⟩ := by
    refine ⟨⟨1, 0, 12⟩, ?_⟩
    decide +kernel
  have hkey : (⟨1, 0, 10⟩ : ResultKey).item = 10 := rfl
  exact ⟨_, hr, (consistent_of_link (.ofList [7, 8, 9]) .zero .standard otherPartTried hkey
    hperform haligned hr).1 (Or.inl hhears)⟩

/-- A second part that nobody has tried leaves the full score of the whole as it was. -/
theorem not_consistent_onePartDone :
    ((start (.ofList [7, 8]) .zero .standard).run onePartDone).committed.AllConsistent ∧
      ∃ r,
        (((start (.ofList [7, 8]) .zero .standard).run onePartDone).perform
          (.createLink 10 12 .plain)).1 = .ok .done ∧
        (((start (.ofList [7, 8]) .zero .standard).run onePartDone).perform
          (.createLink 10 12 .plain)).2.committed.results.get? ⟨1, 0, 10⟩ = some r ∧
        ¬ (((start (.ofList [7, 8]) .zero .standard).run onePartDone).perform
          (.createLink 10 12 .plain)).2.committed.Consistent ⟨1, 0, 10⟩ r := by
  refine ⟨by decide +kernel, ⟨⟨.full, some .zero, some .zero, 1, .zero⟩, none, none, .done⟩, ?_⟩
  decide +kernel

end Session

end Courseware
