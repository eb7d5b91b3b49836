import MiriWeirdness.BBRing
import Mathlib.Logic.Function.Basic

/-!
# Concurrent pushes

`BBRing::push` cut at its accesses to what the threads share: the `fetch_add` that reserves, the load of the capacity check, the
`fetch_sub` that takes the reservation back, the writes of the header and of the payload, the load of each turn of the wait, and the
`fetch_add` that publishes. Every call is a pusher with its own data; a schedule says which of them takes the next step.
-/

namespace MiriWeirdness

/-- Where a call of `push` is. -/
inductive Stage where
  | idle
  | reserved
  | rejected
  | accepted
  | headed
  | written
  | ready
  | published
  | rolledBack
  deriving DecidableEq, Repr

namespace Stage

/-- The push has a reservation that it has neither taken back nor published. -/
def outstanding : Stage → Bool
  | reserved | rejected | accepted | headed | written | ready => true
  | idle | published | rolledBack => false

/-- The push has passed the capacity check. -/
def admitted : Stage → Bool
  | accepted | headed | written | ready | published => true
  | idle | reserved | rejected | rolledBack => false

end Stage

/-- A ring, and for every call of `push` its stage and its local `marker`. -/
structure Pushers (ι : Type) where
  ring : BBRing
  stage : ι → Stage
  marker : ι → Marker 64

namespace Pushers

variable {ι : Type} [DecidableEq ι]

/-- A ring that no call has touched. -/
def start (r : BBRing) : Pushers ι := { ring := r, stage := fun _ => .idle, marker := fun _ => ⟨0⟩ }

/-- The next step of the call `i`, which pushes `data i`, and the call itself if the step publishes it. -/
def step (data : ι → List UInt8) (s : Pushers ι) (i : ι) : Except Fault (Pushers ι × List ι) :=
  match s.stage i with
  | .idle =>
    let (marker, ms) := s.ring.reserve (data i).length
    .ok ({
      ring := { s.ring with toMarkers := ms }
      stage := Function.update s.stage i .reserved
      marker := Function.update s.marker i marker }, [])
  | .reserved => do
    let full ← s.ring.full s.ring.cap (s.marker i) (data i).length
    .ok ({ s with stage := Function.update s.stage i (if full then .rejected else .accepted) }, [])
  | .rejected =>
    .ok ({ s with
      ring := { s.ring with toMarkers := s.ring.rollback (data i).length }
      stage := Function.update s.stage i .rolledBack }, [])
  | .accepted => do
    let ring ← s.ring.writeHeader (s.marker i) (data i)
    .ok ({ s with ring, stage := Function.update s.stage i .headed }, [])
  | .headed => do
    let ring ← s.ring.writePayload (s.marker i) (data i)
    .ok ({ s with ring, stage := Function.update s.stage i .written }, [])
  | .written =>
    if s.ring.isTurn (s.marker i) then .ok ({ s with stage := Function.update s.stage i .ready }, [])
    else .ok (s, [])
  | .ready =>
    .ok ({ s with
      ring := { s.ring with toMarkers := s.ring.publish }
      stage := Function.update s.stage i .published }, [i])
  | .published | .rolledBack => .ok (s, [])

end Pushers

end MiriWeirdness
