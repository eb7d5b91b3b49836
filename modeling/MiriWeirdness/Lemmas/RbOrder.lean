import MiriWeirdness.Library.Runs
import MiriWeirdness.Lemmas.RbInsert
import MiriWeirdness.Lemmas.RbBalance

/-!
# Runs of inserts

What an insert adds to the entries of a tree and to their order, what a run of inserts keeps, and how far from the root a node of a
balanced tree is.
-/

namespace MiriWeirdness.RbTree

open BinaryTree

variable {K T : Type}

/-! ## The order -/

/-- The entries after an insert at the end of a path, in order. -/
theorem entries_grown (path : Path K T) (a : Label K T) :
    entries (grown path a) = (before path).map Label.entry ++ a.entry :: (after path).map Label.entry := by
  rw [grown, entries_paint, entries_fixup _ _ rfl, entries_plug]
  simp

section

variable [LinearOrder K]

/-- At every node, the keys of the left subtree are smaller and those of the right subtree are larger. -/
def SearchOrdered (s : Shape K T) : Prop := s.Ordered fun a b => a.key < b.key

instance : IsTrans (Label K T) fun a b => a.key < b.key := ⟨fun _ _ _ => lt_trans⟩

theorem searchOrdered_iff {s : Shape K T} : SearchOrdered s ↔ (entries s).Pairwise fun a b => a.1 < b.1 := by
  rw [SearchOrdered, ordered_iff_pairwise, entries, List.pairwise_map]
  rfl

/-- The order of a tree is that of its entries. -/
theorem searchOrdered_congr {s s' : Shape K T} (h : entries s = entries s') : SearchOrdered s ↔ SearchOrdered s' := by
  rw [searchOrdered_iff, searchOrdered_iff, h]

theorem SearchOrdered.nodup {s : Shape K T} (h : SearchOrdered s) : ((entries s).map Prod.fst).Nodup := by
  rw [List.Nodup, List.pairwise_map]
  exact (searchOrdered_iff.mp h).imp ne_of_lt

/-- The descent keeps the key between the labels before and after the subtree. -/
theorem between_of_descend {key : K} {s : Shape K T} {path path' : Path K T} (h : descend key s path = some path')
    (ho : SearchOrdered s) (hb : ∀ a ∈ before path, a.key < key) (ha : ∀ a ∈ after path, key < a.key) :
    (∀ a ∈ before path', a.key < key) ∧ ∀ a ∈ after path', key < a.key := by
  induction s generalizing path with
  | nil =>
    cases h
    exact ⟨hb, ha⟩
  | node a l r ihl ihr =>
    obtain ⟨hol, hor, hla, har⟩ := ho
    simp only [descend] at h
    cases hc : compare a.key key with
    | lt =>
      have hlt := compare_lt_iff_lt.mp hc
      simp only [hc] at h
      refine ihr h hor (fun b hbm => ?_) ha
      simp only [before, List.mem_append, List.mem_singleton] at hbm
      rcases hbm with (hbm | hbm) | rfl
      · exact hb b hbm
      · exact lt_trans (hla b hbm) hlt
      · exact hlt
    | eq => simp [hc] at h
    | gt =>
      have hgt := compare_gt_iff_gt.mp hc
      simp only [hc] at h
      refine ihl h hol hb fun b hbm => ?_
      simp only [after, List.cons_append, List.mem_cons, List.mem_append] at hbm
      rcases hbm with rfl | hbm | hbm
      · exact hgt
      · exact lt_trans hgt (har b hbm)
      · exact ha b hbm

/-- The descent ends below the tree unless it meets the key. -/
theorem descend_of_not_mem {key : K} {s : Shape K T} (path : Path K T) (hk : key ∉ (entries s).map Prod.fst) :
    ∃ path', descend key s path = some path' := by
  induction s generalizing path with
  | nil => exact ⟨path, rfl⟩
  | node a l r ihl ihr =>
    simp only [entries_node, List.map_append, List.map_cons, List.mem_append, List.mem_cons, not_or] at hk
    obtain ⟨hl, hne, hr⟩ := hk
    cases hc : compare a.key key with
    | lt => simpa [descend, hc] using ihr _ hr
    | eq => exact absurd (compare_eq_iff_eq.mp hc).symm hne
    | gt => simpa [descend, hc] using ihl _ hl

/-- An insert adds its entry. -/
theorem entries_grown_perm {path : Path K T} {s : Shape K T} {key : K} (a : Label K T) (h : descend key s [] = some path) :
    (entries (grown path a)).Perm (entries s ++ [a.entry]) := by
  have hs : entries s = (before path).map Label.entry ++ (after path).map Label.entry := by
    have := entries_plug path (.nil : Shape K T)
    rw [plug_of_descend h] at this
    simpa using this
  rw [entries_grown, hs]
  exact List.perm_middle.trans (List.perm_append_singleton _ _).symm

/-- An insert keeps the order. -/
theorem grown_searchOrdered {path : Path K T} {s : Shape K T} {a : Label K T} (h : descend a.key s [] = some path)
    (ho : SearchOrdered s) : SearchOrdered (grown path a) := by
  obtain ⟨hb, ha⟩ := between_of_descend h ho (by simp [before]) (by simp [after])
  have hsorted : (before path ++ after path).Pairwise fun a b => a.key < b.key := by
    have hplug : SearchOrdered (plug path .nil) := (plug_of_descend h).symm ▸ ho
    rw [SearchOrdered, ordered_iff_pairwise, inorder_plug] at hplug
    simpa using hplug
  have hplug : SearchOrdered (plug path (.node a .nil .nil)) := by
    rw [SearchOrdered, ordered_iff_pairwise, inorder_plug]
    simp only [inorder_node, inorder_nil, List.nil_append, List.append_assoc, List.cons_append, List.pairwise_append,
      List.pairwise_cons, List.mem_cons] at hsorted ⊢
    obtain ⟨hpb, hpa, hba⟩ := hsorted
    refine ⟨hpb, ⟨ha, hpa⟩, ?_⟩
    rintro b hbm c (rfl | hc)
    · exact hb b hbm
    · exact hba b hbm c hc
  have hentries : entries (grown path a) = entries (plug path (.node a .nil .nil)) := by
    rw [grown, entries_paint, entries_fixup _ _ rfl]
  exact (searchOrdered_congr hentries).mpr hplug

/-! ## One insert -/

/-- `insert` on the entries of a run, whose allocations succeed. -/
def insertStep (t : RbTree K T) (kv : K × T) : Except Fault (RbTree K T) := insert t kv.1 kv.2 true

/-- The last of several inputs with distinct keys has a new one. -/
theorem key_not_mem {ι κ : Type} {key : ι → κ} {is done : List ι} {i : ι} (hd : (is.map key).Nodup) (hp : done ++ [i] <+: is) :
    key i ∉ done.map key := by
  have hnd : ((done ++ [i]).map key).Nodup := hd.sublist (hp.sublist.map key)
  rw [List.map_append, List.nodup_append] at hnd
  intro hm
  exact hnd.2.2 (key i) hm (key i) (by simp) rfl

/-- The tree holds a search tree with a black root and these entries. -/
structure Stores (t : RbTree K T) (s : Shape K T) (kvs : List (K × T)) : Prop where
  represents : Represents t s
  black : rootColor s = .black
  ordered : SearchOrdered s
  perm : (entries s).Perm kvs

theorem new_stores : Stores (new : RbTree K T) .nil [] :=
  ⟨new_represents, rfl, trivial, List.Perm.refl _⟩

/-- An insert of an absent key: it adds its entry at the end of its descent when all its rotations relink, and fails when one
asserts. -/
theorem Stores.insert {t : RbTree K T} {s : Shape K T} {kvs : List (K × T)} {kv : K × T} (hs : Stores t s kvs)
    (hk : kv.1 ∉ kvs.map Prod.fst) (hrot : ∀ q ∈ insertRotations t kv.1, q.relinks = true ∨ q.asserts = true) :
    ((∃ q ∈ insertRotations t kv.1, q.relinks = false) ∧ ∃ e, insertStep t kv = .error e) ∨
      (∀ q ∈ insertRotations t kv.1, q.relinks = true) ∧
        ∃ t' path, insertStep t kv = .ok t' ∧ descend kv.1 s [] = some path ∧ insertRotations t kv.1 = rotations .red path ∧
          Stores t' (grown path { ptr := t.heap.size, color := .red, key := kv.1, val := kv.2 }) (kvs ++ [kv]) := by
  have hks : kv.1 ∉ (entries s).map Prod.fst := fun h => hk ((hs.perm.map Prod.fst).mem_iff.mp h)
  obtain ⟨path, hpath⟩ := descend_of_not_mem [] hks
  have hrots : insertRotations t kv.1 = rotations .red path := by
    simp [insertRotations, hs.represents.shape_eq, hpath]
  rw [hrots] at hrot ⊢
  rcases @insert_follows _ _ _ _ _ _ _ kv.2 hs.represents hs.black hpath hrot with herr | ⟨hall, t', ht', -, hr⟩
  · exact Or.inl herr
  · refine Or.inr ⟨hall, t', path, ht', hpath, rfl, hr, ?_, grown_searchOrdered hpath hs.ordered, ?_⟩
    · exact rootColor_paint_black _
    · exact (entries_grown_perm _ hpath).trans (hs.perm.append_right _)

/-- What `get` and `contains` find in a tree with these entries. -/
theorem Stores.get {t : RbTree K T} {s : Shape K T} {kvs : List (K × T)} (hs : Stores t s kvs) (k : K) :
    (∀ v, (k, v) ∈ kvs → t.get k = .ok (some v) ∧ t.contains k = .ok true) ∧
      (k ∉ kvs.map Prod.fst → t.get k = .ok none ∧ t.contains k = .ok false) := by
  refine ⟨fun v hm => get_of_mem hs.represents hs.ordered.nodup (hs.perm.mem_iff.mpr hm), fun hk => ?_⟩
  exact get_of_not_mem hs.represents fun h => hk ((hs.perm.map Prod.fst).mem_iff.mp h)

/-- An insert of a red node whose rotations keep the colours leaves a balanced tree. -/
theorem grown_balanced {path : Path K T} {s : Shape K T} {a : Label K T} {n : Nat} (h : descend a.key s [] = some path)
    (hb : Balanced s n) (hc : rootColor s = .black) (ha : a.color = .red)
    (hq : ∀ q ∈ rotations .red path, q.keepsColors = true) : ∃ m, Balanced (grown path a) m := by
  have hplug : plug path .nil = s := plug_of_descend h
  rw [← hplug] at hb hc
  obtain ⟨m, hm, hp, -⟩ := balanced_of_plug hb
  obtain rfl : m = 0 := hm
  have hleaf : Balanced (.node a .nil .nil) 0 := balanced_red ha rfl rfl rfl rfl
  obtain ⟨m, hm⟩ := fixup_balanced hp hleaf (blackTop_of_rootColor hc) (by rwa [rootColor_node, ha])
  exact hm.paint_black

/-! ## Runs -/

/-- An insert whose allocation may fail (`op.1` says whether it succeeds). -/
def allocStep (t : RbTree K T) (op : Bool × K × T) : Except Fault (RbTree K T) := insert t op.2.1 op.2.2 op.1

/-- The condition on an insert under which the tree is red-black where it returns: each of its rotations is a left one, or is made at
the root and is not one of two rotations of a black node, or fails its assertion. -/
def StepKeepsColors (t : RbTree K T) (op : Bool × K × T) : Prop :=
  op.1 = true → ∀ q ∈ insertRotations t op.2.1, q.asserts = true ∨ q.keepsColors = true

instance (t : RbTree K T) (op : Bool × K × T) : Decidable (StepKeepsColors t op) :=
  inferInstanceAs (Decidable (op.1 = true → ∀ q ∈ insertRotations t op.2.1, q.asserts = true ∨ q.keepsColors = true))

theorem Rotation.relinks_of_keepsColors {q : Rotation} (h : q.keepsColors = true) : q.relinks = true := by
  rw [Rotation.keepsColors, Bool.and_eq_true] at h
  exact h.1

theorem Rotation.relinks_of_asserts {q : Rotation} (h : q.asserts = true) : q.relinks = false := by
  simp only [Rotation.asserts, Bool.and_eq_true, decide_eq_true_eq] at h
  simp [Rotation.relinks, h.1, h.2]

theorem Rotation.relinks_or_asserts {q : Rotation} (h : q.asserts = true ∨ q.keepsColors = true) :
    q.relinks = true ∨ q.asserts = true :=
  h.symm.imp Rotation.relinks_of_keepsColors id

theorem Rotation.keepsColors_of_relinks {q : Rotation} (h : q.asserts = true ∨ q.keepsColors = true) (hr : q.relinks = true) :
    q.keepsColors = true := by
  rcases h with ha | hk
  · rw [Rotation.relinks_of_asserts ha] at hr
    cases hr
  · exact hk

/-- An insert that returns keeps the tree balanced when its rotations keep the colours. -/
theorem Represents.insert_balanced {t t' : RbTree K T} {s : Shape K T} {key : K} {val : T} {n : Nat} (hr : Represents t s)
    (hb : Balanced s n) (hc : rootColor s = .black)
    (hq : ∀ q ∈ insertRotations t key, q.asserts = true ∨ q.keepsColors = true) (h : RbTree.insert t key val true = .ok t') :
    ∃ path m, descend key s [] = some path ∧ Represents t' (grown path { ptr := t.heap.size, color := .red, key, val }) ∧
      Balanced (grown path { ptr := t.heap.size, color := .red, key, val }) m := by
  cases hpath : descend key s [] with
  | none =>
    rw [insert_met hr hpath] at h
    cases h
  | some path =>
    have hrots : insertRotations t key = rotations .red path := by
      simp [insertRotations, hr.shape_eq, hpath]
    rw [hrots] at hq
    rcases @insert_follows _ _ _ _ _ _ _ val hr hc hpath fun q hm => Rotation.relinks_or_asserts (hq q hm) with
      ⟨-, e, he⟩ | ⟨hall, t'', ht'', -, hr'⟩
    · rw [he] at h
      cases h
    · obtain rfl : t'' = t' := Except.ok.inj (ht''.symm.trans h)
      obtain ⟨m, hm⟩ := grown_balanced (a := { ptr := t.heap.size, color := .red, key, val }) hpath hb hc rfl fun q hm =>
        Rotation.keepsColors_of_relinks (hq q hm) (hall q hm)
      exact ⟨path, m, rfl, hr', hm⟩

/-- It adds its entry to those of the tree. -/
theorem Stores.insert_balanced {t t' : RbTree K T} {s : Shape K T} {kvs : List (K × T)} {kv : K × T} {n : Nat} (hs : Stores t s kvs)
    (hb : Balanced s n) (hk : kv.1 ∉ kvs.map Prod.fst)
    (hq : ∀ q ∈ insertRotations t kv.1, q.asserts = true ∨ q.keepsColors = true) (h : insertStep t kv = .ok t') :
    ∃ s' m, Stores t' s' (kvs ++ [kv]) ∧ Balanced s' m := by
  rcases hs.insert hk fun q hm => Rotation.relinks_or_asserts (hq q hm) with ⟨-, e, he⟩ | ⟨-, t'', path, ht'', -, -, hs'⟩
  · rw [he] at h
    cases h
  · obtain rfl : t'' = t' := Except.ok.inj (ht''.symm.trans h)
    obtain ⟨path', m, -, hr, hm⟩ := hs.represents.insert_balanced hb hs.black hq h
    have hshape := Option.some.inj (hr.shape_eq.symm.trans hs'.represents.shape_eq)
    exact ⟨_, m, hs', by rwa [← hshape]⟩

/-- After a run of inserts of distinct keys whose rotations all keep the colours, the tree is balanced and has the entries of the inserts
whose allocation succeeded. -/
theorem balanced_of_run {ops : List (Bool × K × T)} {t : RbTree K T} (hd : (ops.map (·.2.1)).Nodup)
    (hc : Runs.Along allocStep StepKeepsColors new ops) (ht : Runs.exec allocStep new ops = .ok t) :
    ∃ s kvs n, Stores t s kvs ∧ Balanced s n ∧ ∀ k ∈ kvs.map Prod.fst, k ∈ ops.map (·.2.1) :=
  Runs.invariant_history
    (fun done t => ∃ s kvs n, Stores t s kvs ∧ Balanced s n ∧ ∀ k ∈ kvs.map Prod.fst, k ∈ done.map (·.2.1))
    ⟨_, [], 0, new_stores, rfl, by simp⟩
    (fun done op t t' hp hI hcol h => by
      obtain ⟨s, kvs, n, hs, hb, hsub⟩ := hI
      obtain ⟨alloc, kv⟩ := op
      cases alloc with
      | false =>
        obtain rfl := insert_noAlloc h
        exact ⟨s, kvs, n, hs, hb, fun k hk => by simp [hsub k hk]⟩
      | true =>
        have hk : kv.1 ∉ kvs.map Prod.fst := fun hm => key_not_mem hd hp (hsub _ hm)
        obtain ⟨s', m, hs', hb'⟩ := hs.insert_balanced hb hk (hcol rfl) h
        refine ⟨s', _, m, hs', hb', fun k hk => ?_⟩
        rw [List.map_append, List.mem_append] at hk ⊢
        exact hk.imp (hsub k) id) hc ht

end

end MiriWeirdness.RbTree
