import Courseware.Item
import Courseware.Record

/-!
# Items and links as records
-/

namespace Courseware

instance : Recorded (ItemId × Item) :=
  .ofFields ["id", "custom_chapter", "validation_type", "no_score", "requires_explicit_entry"]
    (fun (id, i) => (id, i.customChapter, i.validation, i.unscored, i.explicitEntry, ()))
    (fun (id, customChapter, validation, unscored, explicitEntry, ()) =>
      (id, { customChapter, validation, unscored, explicitEntry }))

instance : Recorded ((ItemId × ItemId) × Link) :=
  .ofFields ["parent", "child", "category", "partial_access_propagation", "score_weight",
      "child_order"]
    (fun ((parent, child), l) =>
      (parent, child, l.category, l.partialAccess, l.weight, l.order, ()))
    (fun (parent, child, category, partialAccess, weight, order, ()) =>
      ((parent, child), { category, partialAccess, weight, order }))

end Courseware
