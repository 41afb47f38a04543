import Mathlib

/-! The two ends of a link between two nodes. -/

namespace Glade.Node

inductive Side where
  | dialer
  | acceptor
  deriving DecidableEq

namespace Side

def other : Side → Side
  | .dialer => .acceptor
  | .acceptor => .dialer

/-- The parity of the numbers an end gives its conversations: odd from the dialer. -/
def parity : Side → ℕ
  | .dialer => 1
  | .acceptor => 0

theorem other_ne (e : Side) : e.other ≠ e := by cases e <;> decide

theorem other_other (e : Side) : e.other.other = e := by cases e <;> rfl

theorem eq_or_other (e e' : Side) : e' = e ∨ e' = e.other := by cases e <;> cases e' <;> simp [other]

end Side

end Glade.Node
