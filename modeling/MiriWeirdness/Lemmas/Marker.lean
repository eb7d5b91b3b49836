import MiriWeirdness.BBRing
import MiriWeirdness.Library.Packed

/-!
# Packed words

What the shifts and masks of `Marker` compute on a 64-bit target. `word h l f` is the raw word with these three counters, whether they
fit their fields or not: it is what additions on the whole word lead to. The accessors give the counters back as long as they fit.
-/

namespace MiriWeirdness.Marker

/-- The raw word with these counters. -/
@[irreducible] def word (h l f : ℕ) : BitVec 64 := BitVec.ofNat 64 (Packed.pack 32 16 h l f)

/-- Adding words adds their counters. -/
theorem word_add (h l f h' l' f' : ℕ) : word h l f + word h' l' f' = word (h + h') (l + l') (f + f') := by
  unfold word
  rw [← Packed.pack_add, BitVec.ofNat_add]

section

variable {B : ℕ}

/-- A shift to the left that loses no bit. -/
theorem toNat_shiftLeft {x k : ℕ} (h : 2 ^ k * x < 2 ^ B) : (BitVec.ofNat B x <<< k).toNat = x <<< k := by
  have hx : x < 2 ^ B := Nat.lt_of_le_of_lt (Nat.le_mul_of_pos_left x (Nat.two_pow_pos k)) h
  rw [BitVec.toNat_shiftLeft, BitVec.toNat_ofNat, Nat.mod_eq_of_lt hx, Nat.shiftLeft_eq, Nat.mul_comm, Nat.mod_eq_of_lt h]

/-- `Marker::new` of values that fit their fields, at any width of `usize` that divides into a half and two quarters. -/
theorem toNat_raw_new {a b h l f : ℕ} (hB : a + b + b = B) (ha : B / 2 = a) (hb : a / 2 = b) (hh : h < 2 ^ a) (hl : l < 2 ^ b)
    (hf : f < 2 ^ b) :
    (Marker.new (BitVec.ofNat B h) (BitVec.ofNat B l) (BitVec.ofNat B f)).raw.toNat = Packed.pack a b h l f := by
  have hlt : Packed.pack a b h l f < 2 ^ B := hB ▸ Packed.pack_lt hh hl hf
  have hl' : 2 ^ a * l < 2 ^ B := by
    refine Nat.lt_of_le_of_lt ?_ hlt
    exact (Nat.mul_le_mul_left _ (Nat.le_add_right _ _)).trans (Nat.le_add_left _ _)
  have hf' : 2 ^ (a + b) * f < 2 ^ B := by
    refine Nat.lt_of_le_of_lt ?_ hlt
    rw [Nat.pow_add, Nat.mul_assoc]
    exact (Nat.mul_le_mul_left _ (Nat.le_add_left _ _)).trans (Nat.le_add_left _ _)
  have hh' : h < 2 ^ B := Nat.lt_of_le_of_lt (Nat.le_add_right _ _) hlt
  simp only [Marker.new, ha, hb, BitVec.toNat_or]
  rw [toNat_shiftLeft hl', toNat_shiftLeft hf', BitVec.toNat_ofNat, Nat.mod_eq_of_lt hh', Packed.or_shiftLeft hh hl]

/-- The sum of two markers is the marker of the sums, while these fit their fields. -/
theorem toNat_raw_add {a b h l f h' l' f' : ℕ} (hB : a + b + b = B) (ha : B / 2 = a) (hb : a / 2 = b) (hh : h + h' < 2 ^ a)
    (hl : l + l' < 2 ^ b) (hf : f + f' < 2 ^ b) :
    ((Marker.new (BitVec.ofNat B h) (BitVec.ofNat B l) (BitVec.ofNat B f)).raw +
      (Marker.new (BitVec.ofNat B h') (BitVec.ofNat B l') (BitVec.ofNat B f')).raw).toNat =
      Packed.pack a b (h + h') (l + l') (f + f') := by
  have hlt : Packed.pack a b (h + h') (l + l') (f + f') < 2 ^ B := hB ▸ Packed.pack_lt hh hl hf
  rw [BitVec.toNat_add, toNat_raw_new hB ha hb (by omega) (by omega) (by omega),
    toNat_raw_new hB ha hb (by omega) (by omega) (by omega), Packed.pack_add, Nat.mod_eq_of_lt hlt]

end

/-- `Marker::new` of values that fit their fields. -/
theorem raw_new {h l f : ℕ} (hh : h < 2 ^ 32) (hl : l < 2 ^ 16) (hf : f < 2 ^ 16) :
    (Marker.new (BitVec.ofNat 64 h) (BitVec.ofNat 64 l) (BitVec.ofNat 64 f)).raw = word h l f := by
  have hlt : Packed.pack 32 16 h l f < 2 ^ 64 := Packed.pack_lt hh hl hf
  refine BitVec.eq_of_toNat_eq ?_
  rw [toNat_raw_new rfl rfl rfl hh hl hf, word, BitVec.toNat_ofNat, Nat.mod_eq_of_lt hlt]

/-! ## The accessors -/

/-- The head is masked with 32 bits, whatever the width of `usize`. -/
theorem head_toNat {B : ℕ} (m : Marker B) : m.head.toNat = m.raw.toNat % 2 ^ 32 := by
  refine Nat.eq_of_testBit_eq fun i => ?_
  rw [Marker.head, BitVec.toNat_and, u32Max, BitVec.toNat_ofNat, Nat.testBit_and, Nat.testBit_mod_two_pow, Nat.testBit_mod_two_pow,
    Nat.testBit_two_pow_sub_one]
  by_cases hi : i < B
  · simp [hi, Bool.and_comm]
  · have hz : m.raw.toNat.testBit i = false :=
      Nat.testBit_lt_two_pow (Nat.lt_of_lt_of_le m.raw.isLt (Nat.pow_le_pow_right (by omega) (by omega)))
    simp [hz]

/-- The other fields are masked with 16 bits and shifted, whatever the width of `usize`. -/
theorem field_toNat {B : ℕ} (x : BitVec B) (k : ℕ) : ((x &&& (u16Max B <<< k)) >>> k).toNat = x.toNat / 2 ^ k % 2 ^ 16 := by
  refine Nat.eq_of_testBit_eq fun i => ?_
  rw [BitVec.toNat_ushiftRight, BitVec.toNat_and, BitVec.toNat_shiftLeft, u16Max, BitVec.toNat_ofNat, Nat.testBit_shiftRight,
    Nat.testBit_and, Nat.testBit_mod_two_pow, Nat.testBit_shiftLeft, Nat.testBit_mod_two_pow, Nat.testBit_two_pow_sub_one,
    Nat.testBit_mod_two_pow, ← Nat.shiftRight_eq_div_pow, Nat.testBit_shiftRight, Nat.add_sub_cancel_left]
  by_cases hi : k + i < B
  · have hiB : i < B := by omega
    simp [hi, hiB, Bool.and_comm]
  · have hz : x.toNat.testBit (k + i) = false :=
      Nat.testBit_lt_two_pow (Nat.lt_of_lt_of_le x.isLt (Nat.pow_le_pow_right (by omega) (by omega)))
    simp [hz]

theorem len_toNat (m : Marker 64) : m.len.toNat = m.raw.toNat / 2 ^ 32 % 2 ^ 16 :=
  field_toNat m.raw 32

theorem finishedLen_toNat (m : Marker 64) : m.finishedLen.toNat = m.raw.toNat / 2 ^ 48 % 2 ^ 16 :=
  field_toNat m.raw 48

/-- The accessors of a marker give these counters. -/
structure Reads {B : ℕ} (m : Marker B) (h l f : ℕ) : Prop where
  head : m.head.toNat = h
  len : m.len.toNat = l
  finishedLen : m.finishedLen.toNat = f

/-- The counters that a word of 64 bits packs are read back. -/
theorem reads_of_pack {x : BitVec 64} {h l f : ℕ} (hx : x.toNat = Packed.pack 32 16 h l f) (hh : h < 2 ^ 32)
    (hl : l < 2 ^ 16) (hf : f < 2 ^ 16) : Reads ⟨x⟩ h l f := by
  have hdiv : Packed.pack 32 16 h l f / 2 ^ 48 = f := Packed.pack_div_div hh hl
  refine ⟨?_, ?_, ?_⟩
  · rw [head_toNat, hx, Packed.pack_mod hh]
  · rw [len_toNat, hx, Packed.pack_div_mod hh hl]
  · rw [finishedLen_toNat, hx, hdiv, Nat.mod_eq_of_lt hf]

section

variable {h l f : ℕ} (hh : h < 2 ^ 32) (hl : l < 2 ^ 16) (hf : f < 2 ^ 16)

include hh hl hf

theorem word_toNat : (word h l f).toNat = Packed.pack 32 16 h l f := by
  have hlt : Packed.pack 32 16 h l f < 2 ^ 64 := Packed.pack_lt hh hl hf
  rw [word, BitVec.toNat_ofNat, Nat.mod_eq_of_lt hlt]

theorem reads_word : Reads ⟨word h l f⟩ h l f :=
  reads_of_pack (word_toNat hh hl hf) hh hl hf

theorem head_word : (Marker.mk (word h l f)).head.toNat = h := (reads_word hh hl hf).head

theorem len_word : (Marker.mk (word h l f)).len.toNat = l := (reads_word hh hl hf).len

theorem finishedLen_word : (Marker.mk (word h l f)).finishedLen.toNat = f := (reads_word hh hl hf).finishedLen

end

/-! ## A word of 32 bits -/

/-- The masks of 32 and 16 bits are wider than the fields of a word of 32 bits: the head is the whole word, and the count of
reservations has the count of finished operations above it. -/
theorem reads_iff_of_pack {x : BitVec 32} {h l f : ℕ} (hx : x.toNat = Packed.pack 16 8 h l f) (hh : h < 2 ^ 16) (hl : l < 2 ^ 8)
    (hf : f < 2 ^ 8) : Reads ⟨x⟩ h l f ↔ l = 0 ∧ f = 0 := by
  have hhead : (Marker.mk x).head.toNat = h + 2 ^ 16 * (l + 2 ^ 8 * f) := by
    rw [head_toNat, hx, Nat.mod_eq_of_lt (Packed.pack_lt hh hl hf), Packed.pack]
  have hlen : (Marker.mk x).len.toNat = l + 2 ^ 8 * f := by
    have hfield : (Marker.mk x).len.toNat = x.toNat / 2 ^ 16 % 2 ^ 16 := field_toNat x 16
    rw [hfield, hx, Packed.pack_div hh, Nat.mod_eq_of_lt (by omega)]
  have hfin : (Marker.mk x).finishedLen.toNat = f := by
    have hfield : (Marker.mk x).finishedLen.toNat = x.toNat / 2 ^ (16 + 8) % 2 ^ 16 := field_toNat x 24
    rw [hfield, hx, Packed.pack_div_div hh hl, Nat.mod_eq_of_lt (by omega)]
  constructor
  · intro hr
    have h₁ := hr.head
    rw [hhead] at h₁
    omega
  · rintro ⟨rfl, rfl⟩
    exact ⟨by simpa using hhead, by simpa using hlen, hfin⟩

/-! ## Carries -/

/-- A count of reservations that overflows carries into the count of finished operations, which wraps when it is full too. -/
theorem finishedLen_word_carry {h l : ℕ} (hh : h < 2 ^ 32) (hl : l + 1 = 2 ^ 16) :
    (Marker.mk (word h (l + 1) l)).finishedLen.toNat = 0 := by
  rw [finishedLen_toNat, word, BitVec.toNat_ofNat]
  unfold Packed.pack
  omega

end MiriWeirdness.Marker

/-! ## The operations on the markers of a ring -/

namespace MiriWeirdness.Markers

open Marker (word)

/-- The markers with these counters: bytes, reservations and finished pushes, and bytes, number and finished pops. -/
def counting (h l f rh rl rf : ℕ) : Markers := { marker := word h l f, removeMarker := word rh rl rf }

@[simp] theorem counting_marker (h l f rh rl rf : ℕ) : (counting h l f rh rl rf).marker = word h l f := rfl

@[simp] theorem counting_removeMarker (h l f rh rl rf : ℕ) : (counting h l f rh rl rf).removeMarker = word rh rl rf := rfl

/-- A rejected push that nobody interferes with leaves the markers as they were. -/
theorem rollback_reserve (r : Markers) (n : ℕ) : (r.reserve n).2.rollback n = r := by
  simp only [reserve, rollback, BitVec.add_sub_cancel]

theorem reservation_eq {n : ℕ} (hn : headerSize + n < 2 ^ 32) : reservation n = word (headerSize + n) 1 0 :=
  Marker.raw_new (l := 1) (f := 0) hn (by decide) (by decide)

section

variable {h l f rh rl rf n cap : ℕ}

theorem reserve_counting (hn : headerSize + n < 2 ^ 32) :
    (counting h l f rh rl rf).reserve n = (⟨word h l f⟩, counting (h + (headerSize + n)) (l + 1) f rh rl rf) := by
  simp only [reserve, counting, reservation_eq hn, Marker.word_add, Nat.add_zero]

theorem rollback_counting (hn : headerSize + n < 2 ^ 32) :
    (counting (h + (headerSize + n)) (l + 1) f rh rl rf).rollback n = counting h l f rh rl rf := by
  have hadd : word h l f + word (headerSize + n) 1 0 = word (h + (headerSize + n)) (l + 1) f :=
    Marker.word_add h l f (headerSize + n) 1 0
  simp only [rollback, counting, reservation_eq hn]
  rw [← hadd, BitVec.add_sub_cancel]

theorem publish_counting : (counting h l f rh rl rf).publish = counting h l (f + 1) rh rl rf := by
  have hone : (Marker.new 0 0 1 : Marker 64).raw = word 0 0 1 :=
    Marker.raw_new (h := 0) (l := 0) (f := 1) (by decide) (by decide) (by decide)
  simp only [publish, counting, hone, Marker.word_add, Nat.add_zero]

theorem dropGuard_counting (hn : n + headerSize < 2 ^ 32) :
    (counting h l f rh rl rf).dropGuard n = counting h l f (rh + (n + headerSize)) rl (rf + 1) := by
  have hone : (Marker.new (BitVec.ofNat 64 (n + headerSize)) 0 1).raw = word (n + headerSize) 0 1 :=
    Marker.raw_new (l := 0) (f := 1) hn (by decide) (by decide)
  simp only [dropGuard, counting, hone, Marker.word_add, Nat.add_zero]

/-- The capacity check, against the bytes that are not removed yet. -/
theorem full_eq {r : Markers} {m : Marker 64} (hm : m.head.toNat = h) (hr : (Marker.mk r.removeMarker).head.toNat = rh) (hle : rh ≤ h) :
    r.full cap m n = .ok (decide (h - rh + n + headerSize ≥ cap)) := by
  simp [full, hm, hr, hle]

/-- The condition of the wait. -/
theorem isTurn_iff {r : Markers} {m : Marker 64} (hr : (Marker.mk r.marker).finishedLen.toNat = f) (hm : m.len.toNat = l) :
    r.isTurn m = true ↔ f = l := by
  rw [isTurn, decide_eq_true_iff, ← BitVec.toNat_inj, hr, hm]

/-- A pop when every record has been popped. -/
theorem popFront_empty {r : Markers} (hf : (Marker.mk r.marker).finishedLen.toNat = f)
    (hl : (Marker.mk r.removeMarker).len.toNat = rl) (hle : f ≤ rl) : r.popFront = .ok (r, none) := by
  have hge : (Marker.mk r.removeMarker).len ≥ (Marker.mk r.marker).finishedLen := by
    rw [ge_iff_le, BitVec.le_def, hf, hl]
    exact hle
  simp only [popFront, hge, if_true, BitVec.add_sub_cancel]

/-- A pop when there is a record and no guard is alive. -/
theorem popFront_some {r : Markers} (hf : (Marker.mk r.marker).finishedLen.toNat = f)
    (hl : (Marker.mk r.removeMarker).len.toNat = rl) (hrf : (Marker.mk r.removeMarker).finishedLen.toNat = rl) (hlt : rl < f) :
    r.popFront =
      .ok ({ r with removeMarker := r.removeMarker + (Marker.new 0 1 0).raw }, some ⟨r.removeMarker⟩) := by
  have hge : ¬(Marker.mk r.removeMarker).len ≥ (Marker.mk r.marker).finishedLen := by
    rw [ge_iff_le, BitVec.le_def, hf, hl]
    omega
  have heq : (Marker.mk r.removeMarker).finishedLen = (Marker.mk r.removeMarker).len := by
    rw [← BitVec.toNat_inj, hrf, hl]
  simp [popFront, hge, heq]

theorem popFront_counting (hlt : rl < f) (hf : f < 2 ^ 16) (hh : h < 2 ^ 32) (hl : l < 2 ^ 16) (hrh : rh < 2 ^ 32) :
    (counting h l f rh rl rl).popFront = .ok (counting h l f rh (rl + 1) rl, some ⟨word rh rl rl⟩) := by
  have hone : (Marker.new 0 1 0 : Marker 64).raw = word 0 1 0 :=
    Marker.raw_new (h := 0) (l := 1) (f := 0) (by decide) (by decide) (by decide)
  have hrl : rl < 2 ^ 16 := Nat.lt_trans hlt hf
  rw [@popFront_some f rl _ (by rw [counting_marker, Marker.finishedLen_word hh hl hf])
    (by rw [counting_removeMarker, Marker.len_word hrh hrl hrl])
    (by rw [counting_removeMarker, Marker.finishedLen_word hrh hrl hrl]) hlt]
  simp only [counting, hone, Marker.word_add, Nat.add_zero]

/-- A pop when there is a record and the pops before it are not all finished: it waits for the thread that calls it. -/
theorem popFront_unfinished (hlt : rl < f) (hf : f < 2 ^ 16) (hh : h < 2 ^ 32) (hl : l < 2 ^ 16) (hrh : rh < 2 ^ 32) (hrf : rf < rl) :
    (counting h l f rh rl rf).popFront = .error .hang := by
  have hone : (Marker.new 0 1 0 : Marker 64).raw = word 0 1 0 :=
    Marker.raw_new (h := 0) (l := 1) (f := 0) (by decide) (by decide) (by decide)
  have hrem : word rh rl rf + word 0 1 0 = word rh (rl + 1) rf := Marker.word_add rh rl rf 0 1 0
  have hfin : (Marker.mk (word h l f)).finishedLen.toNat = f := Marker.finishedLen_word hh hl hf
  have hlen : (Marker.mk (word rh rl rf)).len.toNat = rl := Marker.len_word hrh (by omega) (by omega)
  have hrfin : (Marker.mk (word rh rl rf)).finishedLen.toNat = rf := Marker.finishedLen_word hrh (by omega) (by omega)
  have hrfin' : (Marker.mk (word rh (rl + 1) rf)).finishedLen.toNat = rf := Marker.finishedLen_word hrh (by omega) (by omega)
  have hge : ¬(Marker.mk (word rh rl rf)).len ≥ (Marker.mk (word h l f)).finishedLen := by
    rw [ge_iff_le, BitVec.le_def, hfin, hlen]
    omega
  have hne : (Marker.mk (word rh rl rf)).finishedLen ≠ (Marker.mk (word rh rl rf)).len := by
    rw [ne_eq, ← BitVec.toNat_inj, hrfin, hlen]
    omega
  have hne' : (Marker.mk (word rh rl rf)).len ≠ (Marker.mk (word rh (rl + 1) rf)).finishedLen := by
    rw [ne_eq, ← BitVec.toNat_inj, hrfin', hlen]
    omega
  simp only [popFront, counting_marker, counting_removeMarker, hone, hrem, hge, hne, hne', if_false, ne_eq, not_false_eq_true, if_true]

/-- The capacity check of a push, after its reservation. -/
theorem full_reserve (hh : h < 2 ^ 32) (hl : l < 2 ^ 16) (hf : f < 2 ^ 16) (hrh : rh ≤ h) (hrl : rl < 2 ^ 16) (hrf : rf < 2 ^ 16) :
    ((counting h l f rh rl rf).reserve n).2.full cap ⟨word h l f⟩ n = .ok (decide (h - rh + n + headerSize ≥ cap)) :=
  full_eq (Marker.head_word hh hl hf) (Marker.head_word (by omega) hrl hrf) hrh

/-- The turn of a push has come when it starts, with as many pushes finished as reserved, unless its reservation carries into the count
that it waits for. -/
theorem isTurn_reserve (hn : h + (headerSize + n) < 2 ^ 32) (hl : l < 2 ^ 16) :
    ((counting h l l rh rl rf).reserve n).2.isTurn ⟨word h l l⟩ = true ↔ l + 1 < 2 ^ 16 := by
  rw [reserve_counting (by omega)]
  have hlen : (Marker.mk (word h l l)).len.toNat = l := Marker.len_word (by omega) hl hl
  by_cases hcarry : l + 1 < 2 ^ 16
  · rw [isTurn_iff (by rw [counting_marker, Marker.finishedLen_word hn hcarry hl]) hlen]
    exact iff_of_true rfl hcarry
  · rw [isTurn_iff (by rw [counting_marker, Marker.finishedLen_word_carry hn (by omega)]) hlen]
    omega

/-- A push of one thread, with as many pushes finished as reserved: it is turned away, or it is published, or its reservation carries
and it waits for ever. -/
theorem push_counting (hh : h + cap < 2 ^ 32) (hl : l < 2 ^ 16) (hrh : rh ≤ h) (hrl : rl < 2 ^ 16) (hrf : rf < 2 ^ 16) :
    (counting h l l rh rl rf).push cap n =
      if h - rh + n + headerSize ≥ cap then .ok (counting h l l rh rl rf, false)
      else if l + 1 < 2 ^ 16 then .ok (counting (h + (headerSize + n)) (l + 1) (l + 1) rh rl rf, true)
      else .error .hang := by
  have hcheck := @full_reserve h l l rh rl rf n cap (by omega) hl hl hrh hrl hrf
  by_cases hfull : h - rh + n + headerSize ≥ cap
  · rw [decide_eq_true hfull] at hcheck
    have hback := rollback_reserve (counting h l l rh rl rf) n
    rw [if_pos hfull]
    simp only [push, reserve, counting] at hcheck hback ⊢
    simp [hcheck, hback]
  · have hn : headerSize + n < 2 ^ 32 := by omega
    have hturn := @isTurn_reserve h l rh rl rf n (by omega) hl
    rw [decide_eq_false hfull] at hcheck
    rw [if_neg hfull]
    by_cases hcarry : l + 1 < 2 ^ 16
    · have hturn := hturn.mpr hcarry
      rw [reserve_counting hn] at hcheck hturn
      rw [if_pos hcarry]
      simp [push, reserve_counting hn, hcheck, hturn, publish_counting]
    · have hturn := mt hturn.mp hcarry
      rw [reserve_counting hn] at hcheck hturn
      rw [if_neg hcarry]
      simp [push, reserve_counting hn, hcheck, hturn]

end

end MiriWeirdness.Markers
