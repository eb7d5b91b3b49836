import MiriWeirdness.Lemmas.ConcVecIndex

/-!
# Positions and slots

`index` maps the positions before the last value of `usize` one-to-one onto the slots of as many buckets as `usize` has bits, in their
order, and no step of it leaves the word, in a build with overflow checks or without.
-/

namespace MiriWeirdness

variable {w : ℕ} {checks : Bool} {val b s i : BitVec w}

/-- The slot that stands at a position before the last. -/
theorem bucket_ofPosition_lt (h : val.toNat < 2 ^ w - 1) : (Slot.ofPosition val.toNat).bucket < w := by
  rw [Slot.bucket_lt_iff, Slot.position_ofPosition]
  exact h

/-- `index` gives the slot that stands at the position. -/
theorem index_eq (checks : Bool) (h : val.toNat < 2 ^ w - 1) : index checks val = .ok (slotWords w (Slot.ofPosition val.toNat)) := by
  have hindex := index_position (bucket_ofPosition_lt h) checks
  rw [Slot.position_ofPosition, BitVec.ofNat_toNat, BitVec.setWidth_eq] at hindex
  exact hindex

/-- The words of a slot hold its numbers. -/
theorem toNat_slotWords {t : Slot} (h : t.bucket < w) : (slotWords w t).1.toNat = t.bucket ∧
    (slotWords w t).2.1.toNat = 2 ^ t.bucket ∧ (slotWords w t).2.2.toNat = t.place := by
  have hsize : 2 ^ t.bucket < 2 ^ w := Nat.pow_lt_pow_right (by decide) h
  refine ⟨?_, ?_, ?_⟩
  · exact Nat.mod_eq_of_lt (h.trans Nat.lt_two_pow_self)
  · exact Nat.mod_eq_of_lt hsize
  · exact Nat.mod_eq_of_lt (t.inside.trans hsize)

/-- What `index` gave back is the slot that stands at the position. -/
theorem toNat_of_index_eq (hval : val.toNat < 2 ^ w - 1) (h : index checks val = .ok (b, s, i)) :
    b.toNat = (Slot.ofPosition val.toNat).bucket ∧ s.toNat = 2 ^ (Slot.ofPosition val.toNat).bucket ∧
      i.toNat = (Slot.ofPosition val.toNat).place := by
  have hwords : slotWords w (Slot.ofPosition val.toNat) = (b, s, i) := Except.ok.inj ((index_eq checks hval).symm.trans h)
  have hnumbers := toNat_slotWords (bucket_ofPosition_lt hval)
  rw [hwords] at hnumbers
  exact hnumbers

/-- A position before the last has its slot. -/
theorem index_spec (checks : Bool) (h : val.toNat < 2 ^ w - 1) :
    ∃ b s i : BitVec w, index checks val = .ok (b, s, i) ∧ b.toNat < w ∧ s.toNat = 2 ^ b.toNat ∧ i.toNat < s.toNat ∧
      val.toNat = (s.toNat - 1) + i.toNat ∧ mostSigSetBitOf (val + 1) = some b.toNat := by
  obtain ⟨⟨b, s, i⟩, hindex⟩ : ∃ r, index checks val = .ok r := ⟨_, index_eq checks h⟩
  obtain ⟨hb, hs, hi⟩ := toNat_of_index_eq h hindex
  have hnext : val + 1 = BitVec.ofNat w (val.toNat + 1) := by
    rw [BitVec.ofNat_add, BitVec.ofNat_toNat, BitVec.setWidth_eq]
    rfl
  refine ⟨b, s, i, hindex, ?_, ?_, ?_, ?_, ?_⟩
  · rw [hb]
    exact bucket_ofPosition_lt h
  · rw [hs, hb]
  · rw [hi, hs]
    exact (Slot.ofPosition val.toNat).inside
  · rw [hi, hs]
    exact (Slot.position_ofPosition val.toNat).symm
  · rw [hnext, mostSigSetBitOf_ofNat val.toNat.succ_ne_zero (by omega), hb]
    rfl

/-- A slot is that of one position. -/
theorem existsUnique_index_eq (checks : Bool) (hb : b.toNat < w) (hi : i.toNat < 2 ^ b.toNat) :
    ∃! val : BitVec w, val.toNat < 2 ^ w - 1 ∧ ∃ s, index checks val = .ok (b, s, i) := by
  obtain ⟨t, htb, hti⟩ : ∃ t : Slot, t.bucket = b.toNat ∧ t.place = i.toNat := ⟨⟨b.toNat, i.toNat, hi⟩, rfl, rfl⟩
  have hbucket : t.bucket < w := by rwa [htb]
  have hpos : t.position < 2 ^ w - 1 := Slot.bucket_lt_iff.mp hbucket
  have hval : (BitVec.ofNat w t.position).toNat = t.position := Nat.mod_eq_of_lt (by omega)
  have hindex : index checks (BitVec.ofNat w t.position) = .ok (b, BitVec.ofNat w (2 ^ t.bucket), i) := by
    rw [index_position hbucket]
    unfold slotWords
    rw [htb, hti, BitVec.ofNat_toNat, BitVec.ofNat_toNat, BitVec.setWidth_eq, BitVec.setWidth_eq]
  refine ⟨BitVec.ofNat w t.position, ⟨by rwa [hval], _, hindex⟩, ?_⟩
  intro val ⟨hlt, s, h⟩
  obtain ⟨hb', -, hi'⟩ := toNat_of_index_eq hlt h
  have hslot : Slot.ofPosition val.toNat = t := Slot.ext (hb'.symm.trans htb.symm) (hi'.symm.trans hti.symm)
  rw [← hslot, Slot.position_ofPosition, BitVec.ofNat_toNat, BitVec.setWidth_eq]

/-- The slots come in the order of their positions. -/
theorem lt_iff_index_lt {val' b' s' i' : BitVec w} (hval : val.toNat < 2 ^ w - 1) (hval' : val'.toNat < 2 ^ w - 1)
    (h : index checks val = .ok (b, s, i)) (h' : index checks val' = .ok (b', s', i')) : val < val' ↔ b < b' ∨ b = b' ∧ i < i' := by
  obtain ⟨hb, -, hi⟩ := toNat_of_index_eq hval h
  obtain ⟨hb', -, hi'⟩ := toNat_of_index_eq hval' h'
  have horder := @Slot.position_lt_iff (Slot.ofPosition val.toNat) (Slot.ofPosition val'.toNat)
  rw [Slot.position_ofPosition, Slot.position_ofPosition, ← hb, ← hb', ← hi, ← hi'] at horder
  rw [BitVec.lt_def, BitVec.lt_def, BitVec.lt_def, ← BitVec.toNat_inj]
  exact horder

/-- Whatever the width of `usize`: `index` takes every position before the last, without an overflow, to a place in the bucket whose
number is the leading bit of the next position, every place of every bucket comes from one position, and their order is that of the
buckets and then of the places. -/
theorem index_slots (w : ℕ) (checks : Bool) :
    (∀ val : BitVec w, val.toNat < 2 ^ w - 1 → ∃ b s i : BitVec w, index checks val = .ok (b, s, i) ∧ b.toNat < w ∧
      s.toNat = 2 ^ b.toNat ∧ i.toNat < s.toNat ∧ val.toNat = (s.toNat - 1) + i.toNat ∧ mostSigSetBitOf (val + 1) = some b.toNat) ∧
    (∀ b i : BitVec w, b.toNat < w → i.toNat < 2 ^ b.toNat →
      ∃! val : BitVec w, val.toNat < 2 ^ w - 1 ∧ ∃ s, index checks val = .ok (b, s, i)) ∧
    (∀ val val' b s i b' s' i' : BitVec w, val.toNat < 2 ^ w - 1 → val'.toNat < 2 ^ w - 1 → index checks val = .ok (b, s, i) →
      index checks val' = .ok (b', s', i') → (val < val' ↔ b < b' ∨ b = b' ∧ i < i')) :=
  ⟨fun _ h => index_spec checks h, fun _ _ hb hi => existsUnique_index_eq checks hb hi,
    fun _ _ _ _ _ _ _ _ hval hval' h h' => lt_iff_index_lt hval hval' h h'⟩

/-- The last position of a 64-bit word that has a slot, the last place of the last bucket. -/
theorem index_slots_last :
    (∃ b s i : Usize, index true 18446744073709551614#64 = .ok (b, s, i) ∧ 18446744073709551614 = (s.toNat - 1) + i.toNat) ∧
    (∃! val : Usize, val.toNat < 2 ^ 64 - 1 ∧ ∃ s, index true val = .ok (63#64, s, 9223372036854775807#64)) ∧
    (9223372036854775806#64 < 9223372036854775807#64 ↔ 62#64 < 63#64 ∨ 62#64 = 63#64 ∧ 4611686018427387903#64 < 0#64) := by
  obtain ⟨hspec, hunique, horder⟩ := index_slots 64 true
  refine ⟨?_, ?_, ?_⟩
  · obtain ⟨b, s, i, h, -, -, -, hval, -⟩ := hspec 18446744073709551614#64 (by decide)
    exact ⟨b, s, i, h, hval⟩
  · exact hunique 63#64 9223372036854775807#64 (by decide) (by decide)
  · exact horder _ _ 62#64 _ 4611686018427387903#64 63#64 _ 0#64 (by decide) (by decide) rfl rfl

end MiriWeirdness
