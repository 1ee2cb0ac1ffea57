import Steward.Number.Binary64
/-!
Lengths of time, exact to the nanosecond. The longest one has 2^64 - 1 whole seconds and
999,999,999 nanoseconds; arithmetic that would leave the range has no result.
-/
namespace Steward

def nanosPerSecond : Nat := 1000000000

def Span.bound : Nat := 2 ^ 64 * nanosPerSecond

structure Span where
  nanos : Nat
  lt_bound : nanos < Span.bound

namespace Span

@[ext] theorem ext {a b : Span} (h : a.nanos = b.nanos) : a = b := by
  cases a; cases b; simp_all

instance : DecidableEq Span := fun a b =>
  decidable_of_iff (a.nanos = b.nanos) ⟨Span.ext, fun h => h ▸ rfl⟩

def ofNanos? (n : Nat) : Option Span :=
  if h : n < bound then some ⟨n, h⟩ else none

def ofSeconds (s : UInt64) : Span :=
  ⟨s.toNat * nanosPerSecond, by
    have := s.toNat_lt
    unfold bound nanosPerSecond
    omega⟩

def ofMillis (ms : UInt64) : Span :=
  ⟨ms.toNat * 1000000, by
    have := ms.toNat_lt
    unfold bound nanosPerSecond
    omega⟩

def zero : Span := ofSeconds 0

instance : Inhabited Span := ⟨zero⟩

def seconds (d : Span) : Nat := d.nanos / nanosPerSecond

def subNanos (d : Span) : Nat := d.nanos % nanosPerSecond

def millis (d : Span) : Nat := d.nanos / 1000000

/-- Milliseconds until a clock that ticks in milliseconds has covered this length. -/
def ticks (d : Span) : Nat := (d.nanos + 999999) / 1000000

def add? (a b : Span) : Option Span := ofNanos? (a.nanos + b.nanos)

def times? (a : Span) (n : Nat) : Option Span := ofNanos? (a.nanos * n)

theorem ofNanos?_eq_some_iff {n : Nat} {d : Span} : ofNanos? n = some d ↔ d.nanos = n := by
  unfold ofNanos?
  split
  · simp [Span.ext_iff, eq_comm]
  · rename_i h
    simp only [reduceCtorEq, false_iff]
    intro he
    exact h (he ▸ d.lt_bound)

end Span

end Steward
