import MiriWeirdness.Faults
import MiriWeirdness.Library.Buffer
import MiriWeirdness.Library.Fifo

/-!
# The byte ring

`bbring.rs`. Two atomic words, each with a byte count, a number of reservations and a number of finished operations packed into it,
say which bytes of a buffer are in use. `Marker` is the packed word, read at any width of `usize`; the ring is that of a 64-bit target,
which stores its length headers in little-endian order. An operation that one thread runs from its start to its end is a function; a
wait for a condition that nobody else can bring about is the fault `hang`.
-/

namespace MiriWeirdness

open Buffer (Bytes)

/-! ## `Marker` -/

/-- `struct Marker(usize)`, where a `usize` has `B` bits. -/
structure Marker (B : ℕ) where
  raw : BitVec B
  deriving DecidableEq, Repr

namespace Marker

variable {B : ℕ}

/-- `u32::MAX as usize`. -/
def u32Max (B : ℕ) : BitVec B := BitVec.ofNat B (2 ^ 32 - 1)

/-- `u16::MAX as usize`. -/
def u16Max (B : ℕ) : BitVec B := BitVec.ofNat B (2 ^ 16 - 1)

/-- `Marker::new`. -/
def new (head len finishedLen : BitVec B) : Marker B :=
  ⟨head ||| (len <<< (B / 2)) ||| (finishedLen <<< (B / 2 + B / 2 / 2))⟩

/-- `Marker::head`. -/
def head (m : Marker B) : BitVec B := m.raw &&& u32Max B

/-- `Marker::len`. -/
def len (m : Marker B) : BitVec B :=
  let offset := B / 2
  (m.raw &&& (u16Max B <<< offset)) >>> offset

/-- `Marker::finished_len`. -/
def finishedLen (m : Marker B) : BitVec B :=
  let offset := B / 2 + B / 2 / 2
  (m.raw &&& (u16Max B <<< offset)) >>> offset

end Marker

/-! ## The markers of a ring -/

/-- `size_of::<UHalfSize>()`. -/
def headerSize : ℕ := 4

/-- The two atomic words of a ring. -/
structure Markers where
  marker : BitVec 64
  removeMarker : BitVec 64
  deriving DecidableEq, Repr

namespace Markers

/-- What the push of `n` bytes adds to `marker` when it reserves them. -/
def reservation (n : ℕ) : BitVec 64 := (Marker.new (BitVec.ofNat 64 (headerSize + n)) 1 0).raw

/-- `self.marker.fetch_add(..)` of `push`: the marker before, and the markers after. -/
def reserve (r : Markers) (n : ℕ) : Marker 64 × Markers :=
  (⟨r.marker⟩, { r with marker := r.marker + reservation n })

/-- The capacity check of `push`: whether the push is turned away. -/
def full (r : Markers) (cap : ℕ) (marker : Marker 64) (n : ℕ) : Except Fault Bool :=
  let remHead := (Marker.mk r.removeMarker).head.toNat
  if remHead ≤ marker.head.toNat then .ok (decide (marker.head.toNat - remHead + n + headerSize ≥ cap))
  else .error .overflow

/-- `self.marker.fetch_sub(..)` of `push`. -/
def rollback (r : Markers) (n : ℕ) : Markers := { r with marker := r.marker - reservation n }

/-- The condition that ends the wait of `push`. -/
def isTurn (r : Markers) (marker : Marker 64) : Bool := (Marker.mk r.marker).finishedLen = marker.len

/-- The last `self.marker.fetch_add(..)` of `push`. -/
def publish (r : Markers) : Markers := { r with marker := r.marker + (Marker.new 0 0 1).raw }

/-- A push of `n` bytes that one thread runs from its start to its end, without its writes. -/
def push (r : Markers) (cap n : ℕ) : Except Fault (Markers × Bool) := do
  let (marker, r) := r.reserve n
  if ← r.full cap marker n then .ok (r.rollback n, false)
  else if r.isTurn marker then .ok (r.publish, true)
  else .error .hang

/-- `pop_front`, without its reads: the markers after and the marker that says where to read, if there is anything to pop. -/
def popFront (r : Markers) : Except Fault (Markers × Option (Marker 64)) :=
  let rem : Marker 64 := ⟨r.removeMarker⟩
  let r' := { r with removeMarker := r.removeMarker + (Marker.new 0 1 0).raw }
  let base : Marker 64 := ⟨r.marker⟩
  if rem.len ≥ base.finishedLen then
    -- we don't have anything we could pop anymore
    .ok ({ r' with removeMarker := r'.removeMarker - (Marker.new 0 1 0).raw }, none)
  else if rem.finishedLen ≠ rem.len then
    let marker : Marker 64 := ⟨r'.removeMarker⟩
    if rem.len ≠ marker.finishedLen then .error .hang else .ok (r', some marker)
  else .ok (r', some rem)

/-- `BufGuard::drop` of a guard of `n` bytes. -/
def dropGuard (r : Markers) (n : ℕ) : Markers :=
  { r with removeMarker := r.removeMarker + (Marker.new (BitVec.ofNat 64 (n + headerSize)) 0 1).raw }

end Markers

/-! ## `BBRing` -/

/-- `struct BBRing`. -/
structure BBRing extends Markers where
  buf : Bytes
  cap : ℕ

/-- `struct BufGuard`: where its bytes start in the buffer, and how many they are. -/
structure BufGuard where
  ptr : ℕ
  len : ℕ
  deriving DecidableEq, Repr

/-- The bytes of a `UHalfSize`. -/
def halfBytes (n : ℕ) : List UInt8 := [UInt8.ofNat n, UInt8.ofNat (n / 2 ^ 8), UInt8.ofNat (n / 2 ^ 16), UInt8.ofNat (n / 2 ^ 24)]

/-- The `UHalfSize` with these bytes. -/
def halfOfBytes (bs : List UInt8) : ℕ := bs.foldr (fun b n => b.toNat + 2 ^ 8 * n) 0

namespace BBRing

/-- `BBRing::new`; `alloc` is the memory that the allocation gives, if it does. -/
def new (cap : ℕ) (alloc : Option Bytes) : Except Fault BBRing :=
  if cap ≥ (2 ^ 16 - 1) / 2 - 1 then .error (.panic "Capacity is too large!")
  else
    match alloc with
    | none => .error (.panic "There was an error allocating the ring buf")
    | some buf => .ok { buf, cap, marker := 0, removeMarker := 0 }

/-- Write bytes to the buffer. -/
def write (r : BBRing) (off : ℕ) (bs : List UInt8) : Except Fault BBRing :=
  if off + bs.length ≤ r.cap then .ok { r with buf := Buffer.write r.buf off bs } else .error .outOfBounds

/-- Read bytes of the buffer. -/
def read (r : BBRing) (off n : ℕ) : Except Fault (List UInt8) :=
  if off + n ≤ r.cap then .ok (Buffer.slice r.buf off n) else .error .outOfBounds

/-- The write of the length header. -/
def writeHeader (r : BBRing) (marker : Marker 64) (data : List UInt8) : Except Fault BBRing :=
  r.write marker.head.toNat (halfBytes data.length)

/-- The write of the payload. -/
def writePayload (r : BBRing) (marker : Marker 64) (data : List UInt8) : Except Fault BBRing :=
  r.write (marker.head.toNat + headerSize) data

/-- `BBRing::push`, run by one thread from its start to its end. -/
def push (r : BBRing) (data : List UInt8) : Except Fault (BBRing × Bool) := do
  let (marker, ms) := r.reserve data.length
  let r := { r with toMarkers := ms }
  if ← r.full r.cap marker data.length then .ok ({ r with toMarkers := r.rollback data.length }, false)
  else
    let r ← r.writeHeader marker data
    let r ← r.writePayload marker data
    if r.isTurn marker then .ok ({ r with toMarkers := r.publish }, true)
    else .error .hang

/-- `BBRing::pop_front`, run by one thread from its start to its end. -/
def popFront (r : BBRing) : Except Fault (BBRing × Option BufGuard) := do
  match ← r.toMarkers.popFront with
  | (ms, none) => .ok ({ r with toMarkers := ms }, none)
  | (ms, some rem) =>
    if r.cap = 0 then .error (.panic "attempt to calculate the remainder with a divisor of zero")
    else
      let off := rem.head.toNat % r.cap
      let len := halfOfBytes (← r.read off headerSize)
      .ok ({ r with toMarkers := ms }, some { ptr := off + headerSize, len })

/-- `BufGuard::as_ref`. -/
def asRef (r : BBRing) (g : BufGuard) : Except Fault (List UInt8) := r.read g.ptr g.len

/-- `BufGuard::drop`. -/
def dropGuard (r : BBRing) (g : BufGuard) : BBRing := { r with toMarkers := r.toMarkers.dropGuard g.len }

end BBRing

/-! ## Runs of one thread -/

/-- The operations of a thread: a push, a pop, and the drop of a guard that it holds. -/
inductive RingOp (α : Type) where
  | push (a : α)
  | popFront
  | drop (i : ℕ)
  deriving DecidableEq, Repr

/-- A ring and the guards that the thread holds, the oldest first. -/
structure Client where
  ring : BBRing
  guards : List BufGuard

/-- One operation on a ring, and what it shows of the queue the ring is. -/
def Client.step (s : Client) : RingOp (List UInt8) → Except Fault (Client × List (Fifo.Event (List UInt8)))
  | .push data => do
    let (ring, b) ← s.ring.push data
    .ok ({ s with ring }, [if b then .accepted data else .rejected data])
  | .popFront => do
    match ← s.ring.popFront with
    | (ring, none) => .ok ({ s with ring }, [.empty])
    | (ring, some g) =>
      let data ← ring.asRef g
      .ok ({ ring, guards := s.guards ++ [g] }, [.popped data])
  | .drop i =>
    match s.guards[i]? with
    | some g => .ok ({ ring := s.ring.dropGuard g, guards := s.guards.eraseIdx i }, [.other])
    | none => .ok (s, [])

/-- The markers of a ring, with the lengths of the records accepted, popped and dropped so far and of the guards that the thread
holds. -/
structure CountedClient where
  marks : Markers
  accepted : List ℕ
  popped : List ℕ
  dropped : List ℕ
  guards : List ℕ
  deriving DecidableEq, Repr

/-- One operation on the markers, where the length of a popped record is the one that was pushed. -/
def CountedClient.step (cap : ℕ) (s : CountedClient) : RingOp ℕ → Except Fault CountedClient
  | .push n => do
    let (marks, b) ← s.marks.push cap n
    .ok (if b then { s with marks, accepted := s.accepted ++ [n] } else { s with marks })
  | .popFront => do
    match ← s.marks.popFront with
    | (marks, none) => .ok { s with marks }
    | (marks, some _) =>
      match s.accepted[s.popped.length]? with
      | some n => .ok { s with marks, popped := s.popped ++ [n], guards := s.guards ++ [n] }
      | none => .error .outOfBounds
  | .drop i =>
    match s.guards[i]? with
    | some n =>
      .ok { s with marks := s.marks.dropGuard n, dropped := s.dropped ++ [n], guards := s.guards.eraseIdx i }
    | none => .ok s

end MiriWeirdness
