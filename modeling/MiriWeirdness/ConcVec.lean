import Mathlib.Logic.Function.Basic
import MiriWeirdness.Faults
import MiriWeirdness.Library.Words

/-!
# The concurrent vector

`conc_vec_2.rs` on a 64-bit target. `push` is cut at its atomic operations and at its allocations; what a thread does to memory that no
other thread can reach is part of the step that allocates it. Memory is given out by the schedule: an allocation is answered with an
address that is not in use, or with none. An access to memory that is not allocated is the fault `dangling` of the whole program, a panic
ends the thread it happens in. A shift by the width of its operand or more panics in a build with overflow checks and is reduced to that
width in one without (`checks`).
-/

namespace MiriWeirdness

/-- `PTR_WIDTH`. -/
abbrev ptrWidth : ℕ := 64

instance : NeZero ptrWidth := ⟨by decide⟩

/-- `usize`. -/
abbrev Usize := BitVec 64

/-- `HalfUsize`. -/
abbrev HalfUsize := BitVec 32

/-! ## Bits -/

/-- `most_sig_set_bit` of a `usize` with so many bits. -/
def mostSigSetBitOf {w : ℕ} (val : BitVec w) : Option ℕ :=
  (List.range w).foldl (fun ret i => if val &&& 1#w <<< i ≠ 0 then some i else ret) none

/-- `most_sig_set_bit`. -/
def mostSigSetBit (val : Usize) : Option ℕ := mostSigSetBitOf val

/-- `1 << i`, where the operand is a `HalfUsize`. -/
def halfBit (checks : Bool) (i : ℕ) : Except Fault HalfUsize :=
  if i < 32 then .ok ((1 : HalfUsize) <<< i) else if checks then .error .overflow else .ok ((1 : HalfUsize) <<< (i % 32))

/-- The loop of `first_free_bit` at `i`, with so many rounds left. -/
def firstFreeFrom (checks : Bool) (val : HalfUsize) : ℕ → ℕ → Except Fault (Option HalfUsize)
  | 0, _ => .ok none
  | rounds + 1, i => do
    let bit ← halfBit checks i
    if val &&& bit = 0 then .ok (some bit) else firstFreeFrom checks val rounds (i + 1)

/-- `first_free_bit`. The bound of its loop is the width of `usize`. -/
def firstFreeBit (checks : Bool) (val : HalfUsize) : Except Fault (Option HalfUsize) := firstFreeFrom checks val 64 0

/-- The low half of a metadata word, `BucketMeta::present`. -/
def present (word : Usize) : HalfUsize := (word &&& BitVec.ofNat 64 (2 ^ 32 - 1)).setWidth 32

/-- `1 << bucket`, the number of slots of a bucket in `index` and `Drop`. -/
def bucketSize (bucket : ℕ) : ℕ := 1 <<< bucket

/-! ## Positions

The place of a value in the buckets depends on the width `w` of `usize` alone, which is any here. -/

section

variable {w : ℕ}

/-- `index`: the bucket of a position, the size of that bucket and the place in it. -/
def index (checks : Bool) (val : BitVec w) : Except Fault (BitVec w × BitVec w × BitVec w) := do
  let next ← Words.add .overflow checks val 1#w
  -- `usize::from(PTR_WIDTH) - leading_zeros - 1`
  let used ← Words.sub .overflow checks (BitVec.ofNat w w) next.clz
  let bucket ← Words.sub .overflow checks used 1#w
  let bucketSize ← Words.shl .overflow checks 1#w bucket
  let before ← Words.sub .overflow checks bucketSize 1#w
  let index ← Words.sub .overflow checks val before
  .ok (bucket, bucketSize, index)

end

/-! ## The vector and its memory -/

namespace ConcVec

/-- An address that is not null. -/
abbrev Ptr := ℕ

/-- What an allocation holds: a metadata word, or a value. -/
inductive Cell (T : Type) where
  | word (w : Usize)
  | val (v : T)
  deriving DecidableEq, Repr

/-- Where a call of `push` is: before which of its steps. -/
inductive Pc (T : Type) where
  | idle
  | called (val : T)
  | allocating (val : T)
  | exchanging (val : T) (metaAlloc : Ptr)
  | won (val : T)
  | storing (valAlloc : Ptr)
  | marking
  | lost (val : T) (metaAlloc newMeta : Ptr)
  | searching (val : T) (newMeta : Ptr)
  | claiming (val : T) (newMeta : Ptr) (bit : HalfUsize)
  | panicked
  deriving DecidableEq, Repr

/-- `Layout::array` of metadata words, or of values, with so many of them. `Layout::new` is that of one. -/
inductive Layout where
  | words (n : ℕ)
  | vals (n : ℕ)
  deriving DecidableEq, Repr

/-- The layout that memory was allocated with. -/
def Cell.layout {T : Type} : Cell T → Layout
  | .word _ => .words 1
  | .val _ => .vals 1

/-- What a step did that the history is about. -/
inductive Event (ι T : Type) where
  | won (i : ι) (metaAlloc : Ptr) (val : T)
  | stored (i : ι) (valAlloc : Ptr)
  | freed (i : ι) (metaAlloc : Ptr)
  deriving DecidableEq, Repr

/-- What the scheduler lets a thread do: call `push`, or take its next step, with the allocator's answer if it allocates. -/
inductive Move (T : Type) where
  | push (val : T)
  | next (answer : Option Ptr)
  deriving DecidableEq, Repr

end ConcVec

open ConcVec

/-- `struct ConcVec`. -/
structure ConcVec (T : Type) where
  buckets : Fin ptrWidth → Option Ptr
  bucketMeta : Fin ptrWidth → Option Ptr
  metaAllocated : Usize

namespace ConcVec

variable {ι T : Type}

/-- `ConcVec::new`. -/
def new : ConcVec T := { buckets := fun _ => none, bucketMeta := fun _ => none, metaAllocated := 0 }

/-- A vector, the memory that is allocated, and where each thread is. -/
structure Threads (ι T : Type) where
  vec : ConcVec T
  mem : Ptr → Option (Cell T)
  pc : ι → Pc T

namespace Threads

/-- A vector that no thread has touched. -/
def start : Threads ι T := { vec := new, mem := fun _ => none, pc := fun _ => .idle }

variable [DecidableEq ι]

/-- The thread goes on at another place. -/
def goto (s : Threads ι T) (i : ι) (pc : Pc T) : Threads ι T := { s with pc := Function.update s.pc i pc }

/-- `alloc` and the initialisation of the new memory: a null pointer makes `unwrap` panic, and the allocator does not give out memory that
is in use. -/
def alloc (s : Threads ι T) (i : ι) (answer : Option Ptr) (cell : Cell T) (pc : Ptr → Pc T) : Threads ι T :=
  match answer with
  | none => s.goto i .panicked
  | some p =>
    match s.mem p with
    | some _ => s
    | none => { s.goto i (pc p) with mem := Function.update s.mem p (some cell) }

/-- The load of a metadata word. -/
def load (s : Threads ι T) (p : Ptr) : Except Fault Usize :=
  match s.mem p with
  | some (.word w) => .ok w
  | _ => .error .dangling

/-- The next step of a thread inside of `push`. -/
def advance (checks : Bool) (s : Threads ι T) (i : ι) (answer : Option Ptr) : Except Fault (Threads ι T × List (Event ι T)) :=
  match s.pc i with
  | .idle | .panicked => .ok (s, [])
  | .called val =>
    match mostSigSetBit s.vec.metaAllocated with
    | none => .ok (s.goto i (.allocating val), [])
    | some _ => .ok (s.goto i .idle, [])
  | .allocating val => .ok (s.alloc i answer (.word 1) (.exchanging val), [])
  | .exchanging val metaAlloc =>
    match s.vec.bucketMeta 0 with
    | none =>
      .ok ({ s.goto i (.won val) with vec.bucketMeta := Function.update s.vec.bucketMeta 0 (some metaAlloc) }, [.won i metaAlloc val])
    | some newMeta => .ok (s.goto i (.lost val metaAlloc newMeta), [])
  | .won val => .ok (s.alloc i answer (.val val) .storing, [])
  | .storing valAlloc =>
    .ok ({ s.goto i .marking with vec.buckets := Function.update s.vec.buckets 0 (some valAlloc) }, [.stored i valAlloc])
  | .marking => .ok ({ s.goto i .idle with vec.metaAllocated := s.vec.metaAllocated ||| (1 : Usize) <<< 0 }, [])
  | .lost val metaAlloc newMeta => do
    let _ ← s.load metaAlloc
    .ok ({ s.goto i (.searching val newMeta) with mem := Function.update s.mem metaAlloc none }, [.freed i metaAlloc])
  | .searching val newMeta => do
    let newMetaVal ← s.load newMeta
    match firstFreeBit checks (present newMetaVal) with
    | .error _ => .ok (s.goto i .panicked, [])
    -- the bucket is full: `self.push(val); return`
    | .ok none => .ok (s.goto i (.called val), [])
    | .ok (some bit) => .ok (s.goto i (.claiming val newMeta bit), [])
  | .claiming val newMeta bit => do
    let newMetaVal ← s.load newMeta
    -- the loop goes on, whether the bit was free or not
    .ok ({ s.goto i (.searching val newMeta) with
      mem := Function.update s.mem newMeta (some (.word (newMetaVal ||| bit.setWidth 64))) }, [])

/-- One step of a schedule. -/
def step (checks : Bool) (s : Threads ι T) (m : ι × Move T) : Except Fault (Threads ι T × List (Event ι T)) :=
  match m.2 with
  | .push val =>
    match s.pc m.1 with
    | .idle => .ok (s.goto m.1 (.called val), [])
    | _ => .ok (s, [])
  | .next answer => s.advance checks m.1 answer

end Threads

/-- `dealloc`. Memory is given back once, with the layout it was allocated with. -/
def dealloc (mem : Ptr → Option (Cell T)) (p : Ptr) (layout : Layout) : Except Fault (Ptr → Option (Cell T)) :=
  match mem p with
  | some cell => if cell.layout = layout then .ok (Function.update mem p none) else .error .dangling
  | none => .error .dangling

/-- The loop of `Drop` over one of the arrays of pointers, which stops at the first null pointer. -/
def dropFrom (layout : ℕ → Layout) (ptrs : Fin ptrWidth → Option Ptr) (mem : Ptr → Option (Cell T)) :
    List (Fin ptrWidth) → Except Fault (Ptr → Option (Cell T))
  | [] => .ok mem
  | i :: is =>
    match ptrs i with
    | none => .ok mem
    | some p => do
      let mem ← dealloc mem p (layout (bucketSize i))
      dropFrom layout ptrs mem is

/-- `Drop::drop`. The values themselves are not dropped. -/
def drop (v : ConcVec T) (mem : Ptr → Option (Cell T)) : Except Fault (Ptr → Option (Cell T)) := do
  let mem ← dropFrom .vals v.buckets mem (List.finRange ptrWidth)
  dropFrom .words v.bucketMeta mem (List.finRange ptrWidth)

end ConcVec

end MiriWeirdness
