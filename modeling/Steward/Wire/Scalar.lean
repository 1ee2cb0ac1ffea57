import Steward.Health.Level
import Steward.Json.Reader
import Steward.Build
import Steward.Time.Instant
import Steward.Time.Span
/-!
The JSON forms of the plain values that records are made of: names for statuses, phases, outcomes
and health, a number for a token, a dated text for a moment.
-/
namespace Steward

open Json (Reader)

namespace Status

def toJson (s : Status) : Json := .string s.name

def reader : Reader Status := Reader.named ofName?

end Status

namespace Phase

def toJson (p : Phase) : Json := .string p.name

def reader : Reader Phase := Reader.named ofName?

end Phase

namespace Outcome

def toJson (o : Outcome) : Json := .string o.name

def reader : Reader Outcome := Reader.named ofName?

end Outcome

namespace Health

def toJson (h : Health) : Json := .string h.name

def reader : Reader Health := Reader.named ofName?

end Health

namespace Token

def toJson (t : Token) : Json := .ofNat t.value.toNat

def reader : Reader Token := do return ⟨UInt32.ofNat (← Reader.natural (2 ^ 32))⟩

end Token

namespace Span

def toJson (d : Span) : Json :=
  .object [("secs", .ofNat d.seconds), ("nanos", .ofNat d.subNanos)]

end Span

namespace Instant

def toJson (t : Instant) : Json := .string t.text

def reader : Reader Instant := Reader.parsed fun s => read? s.toList

end Instant

end Steward
