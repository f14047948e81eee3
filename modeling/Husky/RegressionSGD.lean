import Husky.Regression
import Husky.SGD

namespace Husky.Regression

variable {α : Type}

section Deterministic

variable {upd : Vec → Vec → Prop} {ok : Prop} {f : Vec → Vec}
  (hupd : ∀ P P', upd P P' ↔ ok ∧ P' = f P)

end Deterministic

end Husky.Regression
