/-
# ContentAssist.Schema.Occurs -- how often something may occur

Only `bounded` checks that a range is in order; one written down field by field is taken as
it stands.
-/
import ContentAssist.Schema.Error

namespace ContentAssist.Schema

set_option autoImplicit false

/-- An occurrence range; no `max` means unbounded. -/
structure Occurs where
  min : Nat
  max : Option Nat
  deriving DecidableEq, Repr, Inhabited

namespace Occurs

def once : Occurs := ⟨1, some 1⟩

def optional : Occurs := ⟨0, some 1⟩

def any : Occurs := ⟨0, none⟩

def atLeast (min : Nat) : Occurs := ⟨min, none⟩

def bounded (min max : Nat) : Except Error Occurs :=
  if max < min then .error (.invalidRange min max) else .ok ⟨min, some max⟩

/-- After `count` occurrences no further one fits. -/
def exhausted (occurs : Occurs) (count : Nat) : Bool :=
  occurs.max.any (· ≤ count)

def satisfied (occurs : Occurs) (count : Nat) : Bool :=
  occurs.min ≤ count

@[simp] theorem exhausted_iff (occurs : Occurs) (count : Nat) :
    occurs.exhausted count = true ↔ ∃ max, occurs.max = some max ∧ max ≤ count := by
  obtain ⟨min, _ | max⟩ := occurs <;> simp [exhausted]

@[simp] theorem satisfied_iff (occurs : Occurs) (count : Nat) :
    occurs.satisfied count = true ↔ occurs.min ≤ count := by
  simp [satisfied]

end Occurs

def countLimit : Nat := 4294967295

/-- Counters stop at the limit instead of running on. -/
def bump (count : Nat) : Nat := Nat.min (count + 1) countLimit

end ContentAssist.Schema
