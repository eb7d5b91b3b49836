import MiriWeirdness.Lemmas.RingCounters

/-!
# Records in the buffer

A record is a payload behind its length. `Stored` says that a buffer holds some records back to back from its start, which is where
pushes put them as long as the ring has not gone round.
-/

namespace MiriWeirdness

open Buffer (Bytes slice)

/-- The bytes of a payload and its header. -/
def record (data : List UInt8) : List UInt8 := halfBytes data.length ++ data

/-- The bytes of some records, back to back. -/
def records (ds : List (List UInt8)) : List UInt8 := ds.flatMap record

/-- The size of some records. -/
def recordsSize (ds : List (List UInt8)) : ℕ := (records ds).length

@[simp] theorem halfBytes_length (n : ℕ) : (halfBytes n).length = headerSize := rfl

@[simp] theorem records_nil : records [] = [] := rfl

@[simp] theorem records_append (ds es : List (List UInt8)) : records (ds ++ es) = records ds ++ records es := by
  simp [records]

@[simp] theorem records_cons (d : List UInt8) (ds : List (List UInt8)) : records (d :: ds) = halfBytes d.length ++ d ++ records ds := by
  simp [records, record]

@[simp] theorem recordsSize_nil : recordsSize [] = 0 := rfl

@[simp] theorem recordsSize_append (ds es : List (List UInt8)) : recordsSize (ds ++ es) = recordsSize ds + recordsSize es := by
  simp [recordsSize]

@[simp] theorem recordsSize_cons (d : List UInt8) (ds : List (List UInt8)) :
    recordsSize (d :: ds) = headerSize + d.length + recordsSize ds := by
  simp [recordsSize, Nat.add_assoc]

/-- Every record has a header. -/
theorem length_le_recordsSize (ds : List (List UInt8)) : ds.length * headerSize ≤ recordsSize ds := by
  induction ds with
  | nil => simp
  | cons d ds ih =>
    rw [recordsSize_cons, List.length_cons, Nat.succ_mul]
    omega

/-- A header of 32 bits is read back. -/
theorem halfOfBytes_halfBytes {n : ℕ} (hn : n < 2 ^ 32) : halfOfBytes (halfBytes n) = n := by
  simp only [halfOfBytes, halfBytes, List.foldr_cons, List.foldr_nil, UInt8.toNat_ofNat']
  omega

/-- A write that stays inside of the buffer. -/
theorem BBRing.write_eq_ok {r r' : BBRing} {off : ℕ} {bs : List UInt8} :
    r.write off bs = .ok r' ↔ off + bs.length ≤ r.cap ∧ { r with buf := Buffer.write r.buf off bs } = r' := by
  unfold BBRing.write
  by_cases h : off + bs.length ≤ r.cap
  · simp [h]
  · simp [h]

/-- The buffer holds the records back to back from its start. -/
def Stored (buf : Bytes) (ds : List (List UInt8)) : Prop := slice buf 0 (recordsSize ds) = records ds

theorem stored_nil (buf : Bytes) : Stored buf [] := rfl

/-- Records that are stored, followed by others. -/
theorem stored_append_iff {buf : Bytes} {ds es : List (List UInt8)} :
    Stored buf (ds ++ es) ↔ Stored buf ds ∧ slice buf (recordsSize ds) (recordsSize es) = records es := by
  have := @Buffer.slice_append_iff buf 0 (records ds) (records es)
  simpa [Stored, recordsSize] using this

/-- The header and the payload of a record that is stored. -/
theorem Stored.read {buf : Bytes} {ds es : List (List UInt8)} {d : List UInt8} (h : Stored buf (ds ++ d :: es)) :
    slice buf (recordsSize ds) headerSize = halfBytes d.length ∧ slice buf (recordsSize ds + headerSize) d.length = d := by
  have hd := (stored_append_iff.mp h).2
  have hsize : recordsSize (d :: es) = (halfBytes d.length ++ d).length + (records es).length := by
    simp [recordsSize, Nat.add_assoc]
  rw [records_cons, hsize, Buffer.slice_append_iff] at hd
  have hrec := hd.1
  rw [List.length_append, Buffer.slice_append_iff] at hrec
  exact hrec

/-- A record that is written behind those that are stored. -/
theorem Stored.write {buf : Bytes} {ds : List (List UInt8)} (h : Stored buf ds) (d : List UInt8) :
    Stored (Buffer.write (Buffer.write buf (recordsSize ds) (halfBytes d.length)) (recordsSize ds + headerSize) d) (ds ++ [d]) := by
  refine stored_append_iff.mpr ⟨?_, ?_⟩
  · unfold Stored at h ⊢
    rw [Buffer.slice_write_of_disjoint (by omega), Buffer.slice_write_of_disjoint (by omega), h]
  · have hrec : records [d] = halfBytes d.length ++ d := by simp
    have hsize : recordsSize [d] = (halfBytes d.length).length + d.length := by simp
    rw [hrec, hsize, Buffer.slice_append_iff]
    refine ⟨?_, ?_⟩
    · rw [Buffer.slice_write_of_disjoint (by simp), Buffer.slice_write_self]
    · exact Buffer.slice_write_self

/-- The records that are stored depend only on the bytes they take. -/
theorem Stored.congr {buf buf' : Bytes} {ds : List (List UInt8)} (h : Stored buf ds)
    (hb : ∀ i < recordsSize ds, buf' i = buf i) : Stored buf' ds := by
  unfold Stored at h ⊢
  rw [Buffer.slice_congr fun i _ hi => hb i (by omega), h]

end MiriWeirdness
