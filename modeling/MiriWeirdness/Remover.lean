import MiriWeirdness.Pushers

/-!
# The remover beside the pushers

The ring as `bbring.rs` says it is used, by one remover thread and many pusher threads. `BBRing::pop_front` is cut, as `push` is, at
its accesses to what the threads share: the `fetch_add` that counts the pop, the load of `marker`, the `fetch_sub` of a pop that finds
nothing, the load of each turn of the wait, and the read of the length. The guards that it has given out may be written through and
dropped at any time.
-/

namespace MiriWeirdness

/-- Where the remover is in its call of `pop_front`, with its local `rem`. -/
inductive Removal where
  | idle
  | counted (rem : Marker 64)
  | turnedAway
  | waiting (rem : Marker 64)
  | reading (rem : Marker 64)
  deriving DecidableEq, Repr

/-- The number of calls of `pop_front` that are counted and not over. -/
def Removal.calls : Removal → ℕ
  | .idle => 0
  | .counted _ | .turnedAway | .waiting _ | .reading _ => 1

namespace BBRing

/-- The guard that `pop_front` makes of a marker. -/
def guardAt (r : BBRing) (rem : Marker 64) : Except Fault BufGuard :=
  if r.cap = 0 then .error (.panic "attempt to calculate the remainder with a divisor of zero")
  else do
    let off := rem.head.toNat % r.cap
    let len := halfOfBytes (← r.read off headerSize)
    .ok { ptr := off + headerSize, len }

end BBRing

/-- The pushers and their ring, the remover, and the guards that are alive, the oldest first. -/
structure RingThreads (ι : Type) extends Pushers ι where
  removal : Removal
  guards : List BufGuard

/-- A move of a thread: the next step of a call of `push`, the next step of the remover's `pop_front`, which may be its first, a byte
that is written through a guard (`BufGuard::as_mut`), and the drop of a guard. -/
inductive RingMove (ι : Type) where
  | push (i : ι)
  | pop
  | write (k off : ℕ) (b : UInt8)
  | drop (k : ℕ)
  deriving DecidableEq, Repr

namespace RingThreads

variable {ι : Type}

/-- A ring that no thread has touched. -/
def start (r : BBRing) : RingThreads ι := { Pushers.start r with removal := .idle, guards := [] }

/-- The next step of `pop_front`. -/
def pop (s : RingThreads ι) : Except Fault (RingThreads ι × List (Fifo.Event (List UInt8))) :=
  match s.removal with
  | .idle =>
    .ok ({ s with
      ring := { s.ring with removeMarker := s.ring.removeMarker + (Marker.new 0 1 0).raw }
      removal := .counted ⟨s.ring.removeMarker⟩ }, [])
  | .counted rem =>
    let base : Marker 64 := ⟨s.ring.marker⟩
    if rem.len ≥ base.finishedLen then .ok ({ s with removal := .turnedAway }, [.empty])
    else if rem.finishedLen ≠ rem.len then .ok ({ s with removal := .waiting rem }, [])
    else .ok ({ s with removal := .reading rem }, [])
  | .turnedAway =>
    .ok ({ s with
      ring := { s.ring with removeMarker := s.ring.removeMarker - (Marker.new 0 1 0).raw }
      removal := .idle }, [])
  | .waiting rem =>
    let marker : Marker 64 := ⟨s.ring.removeMarker⟩
    if rem.len ≠ marker.finishedLen then .ok (s, []) else .ok ({ s with removal := .reading marker }, [])
  | .reading rem => do
    let g ← s.ring.guardAt rem
    let data ← s.ring.asRef g
    .ok ({ s with removal := .idle, guards := s.guards ++ [g] }, [.popped data])

/-- A byte is written through a guard; the slice that `as_mut` gives ends with the guard's bytes. -/
def write (s : RingThreads ι) (k off : ℕ) (b : UInt8) : Except Fault (RingThreads ι) :=
  match s.guards[k]? with
  | some g => if off < g.len then do .ok { s with ring := ← s.ring.write (g.ptr + off) [b] } else .ok s
  | none => .ok s

/-- A guard is dropped. -/
def drop (s : RingThreads ι) (k : ℕ) : RingThreads ι :=
  match s.guards[k]? with
  | some g => { s with ring := s.ring.dropGuard g, guards := s.guards.eraseIdx k }
  | none => s

/-- A move, and what it shows of the queue: a record is accepted when it is published, and popped when the guard on it is made. -/
def step [DecidableEq ι] (data : ι → List UInt8) (s : RingThreads ι) :
    RingMove ι → Except Fault (RingThreads ι × List (Fifo.Event (List UInt8)))
  | .push i => do
    let (p, published) ← Pushers.step data s.toPushers i
    .ok ({ s with toPushers := p }, published.map fun i => .accepted (data i))
  | .pop => s.pop
  | .write k off b => do
    let s ← s.write k off b
    .ok (s, [])
  | .drop k => .ok (s.drop k, [])

end RingThreads

end MiriWeirdness
