import BTree.Proofs.Extremes
import BTree.Proofs.Path

/-!
# The shape that sorted loading leaves

Keys put in one after another in ascending order are all inserted at the back, and in descending order
all at the front.  The descent keeps to the outermost children at that end, and what splits there is
full: the half that is left behind holds just `t - 1` entries, and no insertion comes to it again.  So
a tree is lopsided after every step: away from the outermost children all of its nodes are as small as
they can be.

    Inserts t k v n o m es  →  n.Lopsided s (t - 1)  →  m.Lopsided s (t - 1)         (Inserts.lopsided)
    t.insert k v = done (o, s) es  →  a lopsided tree stays lopsided                     (Puts.lopsided)
-/

namespace BTree

variable {α κ ν : Type}

/-! ## Ends -/

namespace End

end End

/-! ## Lopsided nodes -/

namespace Node

variable {s : End} {k : Nat}

end Node

namespace Context

variable {s : End} {k : Nat}

end Context

section
variable [Ord κ] {s : End} {t h : Nat} {k : κ} {v : ν}

namespace Context

variable {x : Context κ ν} {c : Node κ ν}

variable [Std.TransOrd κ]

end Context

variable [Std.TransOrd κ]

namespace Tree

variable {t u : Tree κ ν} {o : Option ν} {es : List Event}

end Tree

end

end BTree
