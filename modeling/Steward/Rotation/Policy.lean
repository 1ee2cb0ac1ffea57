import Steward.Config.Basic
import Steward.Time.Span
/-!
When a leased credential is replaced, and how long to wait between attempts. The waits between
attempts are exact; the period until the next rotation is worked out in binary floating point,
shortened by chance, and never below one second.
-/
namespace Steward.Rotation

open Number (Binary64 roundHalfEven)

structure Policy where
  /-- Attempts after the first. -/
  maxRetry : UInt32
  wait : Span
  backoff : Config.Backoff
  /-- What linear growth adds to a wait. -/
  offset : Span
  /-- The greatest part of the time to live that chance may take off. -/
  jitterRatio : Binary64
  /-- The two bounds, in either order, of the seconds that are taken off besides. -/
  bufferMinSecs : UInt64
  bufferMaxSecs : UInt64
  deriving DecidableEq

structure Roll where
  /-- The part of the jitter that is taken, at least zero and below one. -/
  share : Binary64
  /-- The seconds of the buffer. -/
  bufferSecs : UInt64

namespace Policy

def ofConfig (c : Config.Rotation) : Policy where
  maxRetry := c.maxRetry
  wait := .ofMillis c.waitMillis
  backoff := c.backoff
  offset := .ofMillis c.offsetMillis
  jitterRatio := c.jitterRatio
  bufferMinSecs := c.bufferMinSecs
  bufferMaxSecs := c.bufferMaxSecs

instance : Inhabited Policy := ⟨ofConfig {}⟩

/-- The wait after a given retry, the first one being number zero. It has no value if it is too
long to be represented. -/
def delay? (p : Policy) (retry : Nat) : Option Span :=
  match p.backoff with
  | .constant => some p.wait
  | .linear =>
    if retry + 1 < 2 ^ 32 then (p.wait.times? (retry + 1)).bind (·.add? p.offset) else none

def bufferRange (p : Policy) : UInt64 × UInt64 :=
  if p.bufferMinSecs ≤ p.bufferMaxSecs then (p.bufferMinSecs, p.bufferMaxSecs)
  else (p.bufferMaxSecs, p.bufferMinSecs)

def secondsOf (d : Span) : Binary64 :=
  (Binary64.ofNat d.seconds).add ((Binary64.ofNat d.subNanos).div (.ofNat nanosPerSecond))

def shortestPeriod : Binary64 := .ofNat 1

def spanOf? : Binary64 → Option Span
  | .finite negative mantissa exponent _ =>
    let (num, den) := Binary64.ratio mantissa exponent
    if negative && mantissa ≠ 0 then none
    else Span.ofNanos? (roundHalfEven (num * nanosPerSecond) den)
  | _ => none

def period? (p : Policy) (ttl : Span) (roll : Roll) : Option Span :=
  let whole := secondsOf ttl
  let jitter := (whole.mul p.jitterRatio).mul roll.share
  spanOf? (((whole.sub jitter).sub (.ofNat roll.bufferSecs.toNat)).max shortestPeriod)

/-- The roll that takes nothing for jitter and the fewest seconds of the buffer. -/
def luckiest (p : Policy) : Roll := ⟨.zero, p.bufferRange.1⟩

def greatestShare : Binary64 := .ofRatio false (2 ^ 53 - 1) (2 ^ 53)

/-- The rolls at the ends of what chance can decide. The period falls or rises with the share, and
falls with the seconds of the buffer, so the shortest and the longest period are among theirs. -/
def extremeRolls (p : Policy) : List Roll :=
  [luckiest p, ⟨.zero, p.bufferRange.2⟩, ⟨greatestShare, p.bufferRange.1⟩,
    ⟨greatestShare, p.bufferRange.2⟩]

def periodsWithin (p : Policy) (ttl low high : Span) : Bool :=
  p.extremeRolls.all fun roll => match p.period? ttl roll with
    | some d => low.nanos ≤ d.nanos && d.nanos ≤ high.nanos
    | none => false

theorem delay?_constant {p : Policy} (h : p.backoff = .constant) (retry : Nat) :
    p.delay? retry = some p.wait := by
  simp [delay?, h]

end Policy

end Steward.Rotation
