import BTree.Fault

/-!
# Minimum degree

A tree of minimum degree `t` keeps at most `2t - 1` entries in a node, and at least `t - 1` in a
node other than the root.  The degree is at least two, so a full node splits into two sound halves.
No degree is too great, but `2t - 1` is computed in a machine word, which the double of a degree
from `2 ^ 63` on does not fit:

    1 ≤ t, InWord t  →  mostEntries t = ok (2t - 1)          (mostEntries_eq_ok)
    ¬ InWord t       →  mostEntries t = error overflow       (mostEntries_eq_error)
-/

namespace BTree

/-- The double of `t` fits a machine word. -/
def InWord (t : Nat) : Prop := 2 * t < UInt64.size

instance (t : Nat) : Decidable (InWord t) := inferInstanceAs (Decidable (2 * t < UInt64.size))

/-- The most entries that a node of degree `t` holds, `2t - 1`. -/
def mostEntries (t : Nat) : Except Fault Nat := do decrement (← double t)

/-- The minimum degree of a tree. -/
structure Degree where
  least : Nat
  two_le : 2 ≤ least
deriving DecidableEq, Repr

namespace Degree

/-- Why a number is no degree. -/
inductive Rejection where
  | belowTwo (number : Nat)
deriving DecidableEq, Repr

def Rejection.message : Rejection → String
  | belowTwo n => s!"invalid minimum degree {n}, expected at least 2"

/-- The degree nearest to `n`: a lower number is raised to two. -/
def clamp (n : Nat) : Degree := ⟨max n 2, Nat.le_max_right n 2⟩

/-- The degree `n`; a number below two is refused. -/
def ofNat (n : Nat) : Except Rejection Degree :=
  if h : 2 ≤ n then .ok ⟨n, h⟩ else .error (.belowTwo n)

/-- Six: eleven entries fill a node. -/
def standard : Degree := ⟨6, by decide⟩

instance : Inhabited Degree := ⟨standard⟩

/-- The most entries a node holds. -/
def maxEntries (d : Degree) : Except Fault Nat := mostEntries d.least

/-- The fewest entries a node other than the root holds. -/
def minEntries (d : Degree) : Nat := d.least - 1

end Degree

/-! ## Lemmas -/

theorem inWord_standard : InWord Degree.standard.least := by decide

theorem mostEntries_eq_ok {t : Nat} (ht : 1 ≤ t) (hw : InWord t) :
    mostEntries t = .ok (2 * t - 1) := by
  rw [mostEntries, double_eq_ok hw]
  exact decrement_eq_ok_iff.2 (by omega)

theorem mostEntries_eq_error {t : Nat} (hw : ¬ InWord t) : mostEntries t = .error .overflow := by
  rw [mostEntries, double_eq_error hw]
  rfl

end BTree
