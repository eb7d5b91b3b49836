import Mathlib.Analysis.SpecialFunctions.Log.Base
import MiriWeirdness.Library.Runs
import MiriWeirdness.Lemmas.RbLinks

/-!
# What the red-black tree keeps, and where its rotations break it

`rot_right_par` does not write the child pointer of the node above. A right rotation below the root therefore loses the subtree it turns,
and as the first of two rotations it makes the second one fail its assertion. Two rotations of a black node, to which the loop comes
after a rotation further down, leave paths with different numbers of black nodes. Runs without these rotations keep what a red-black
tree is for, and ascending keys make no other rotations than the good ones.
-/

namespace MiriWeirdness.RbTree

open BinaryTree

variable {K T : Type} [LinearOrder K]

/-! ## Lookups -/

/-- The condition on an insert under which no node is lost and no assertion fails: each of its rotations is a left one, or is made at
the root. -/
def StepRelinks (t : RbTree K T) (kv : K × T) : Prop := ∀ q ∈ insertRotations t kv.1, q.relinks = true

instance (t : RbTree K T) (kv : K × T) : Decidable (StepRelinks t kv) :=
  inferInstanceAs (Decidable (∀ q ∈ insertRotations t kv.1, q.relinks = true))

/-- In a run of inserts of distinct keys whose rotations all relink, no insert fails, and after each of them every key is found with
its value and no other key is found. -/
theorem insert_finds_all (ops : List (K × T)) (hd : (ops.map Prod.fst).Nodup) (hc : Runs.Along insertStep StepRelinks new ops)
    (pre : List (K × T)) (hpre : pre <+: ops) :
    ∃ t, Runs.exec insertStep new pre = .ok t ∧ ∀ k,
      (∀ v, (k, v) ∈ pre → t.get k = .ok (some v) ∧ t.contains k = .ok true) ∧
        (k ∉ pre.map Prod.fst → t.get k = .ok none ∧ t.contains k = .ok false) := by
  have hdpre : (pre.map Prod.fst).Nodup := hd.sublist (hpre.sublist.map Prod.fst)
  have hcpre : Runs.Along insertStep StepRelinks new pre := by
    obtain ⟨post, rfl⟩ := hpre
    exact hc.prefix
  obtain ⟨t, ht, s, hs⟩ := Runs.progress_history (fun done t => ∃ s, Stores t s done) ⟨_, new_stores⟩
    (fun done kv t hp hI hrel => by
      obtain ⟨s, hs⟩ := hI
      have hk := key_not_mem hdpre hp
      rcases hs.insert hk fun q hq => Or.inl (hrel q hq) with ⟨⟨q, hq, hql⟩, -⟩ | ⟨-, t', path, ht', -, -, hs'⟩
      · exact absurd (hrel q hq) (by simp [hql])
      · exact ⟨t', ht', _, hs'⟩) hcpre
  exact ⟨t, ht, hs.get⟩

/-- A run that rotates right at the root, twice at the root and left below it. -/
theorem insert_finds_all_run :
    ∃ t, Runs.exec insertStep (new : RbTree ℕ ℕ) [(5, 50), (3, 30), (4, 40), (6, 60), (7, 70)] = .ok t ∧ ∀ k,
      (∀ v, (k, v) ∈ [(5, 50), (3, 30), (4, 40), (6, 60), (7, 70)] → t.get k = .ok (some v) ∧ t.contains k = .ok true) ∧
        (k ∉ ([(5, 50), (3, 30), (4, 40), (6, 60), (7, 70)] : List (ℕ × ℕ)).map Prod.fst →
          t.get k = .ok none ∧ t.contains k = .ok false) :=
  insert_finds_all [(5, 50), (3, 30), (4, 40), (6, 60), (7, 70)] (by decide) (by decide) _ (List.prefix_refl _)

/-- A left child of a right child fails an assertion, and a right rotation below the root loses the subtree it turns: 3 is stored
and is not found. -/
theorem insert_loses_nodes :
    Runs.exec insertStep (new : RbTree ℕ ℕ) [(1, 10), (3, 30), (2, 20)] = .error assertion ∧
      ∃ t, Runs.exec insertStep (new : RbTree ℕ ℕ) [(10, 0), (5, 0), (20, 0), (3, 0), (2, 0)] = .ok t ∧ t.get 3 = .ok none := by
  refine ⟨rfl, _, rfl, rfl⟩

/-! ## Colours -/

/-- A red-black search tree. -/
structure RedBlack (s : Shape K T) : Prop where
  ordered : SearchOrdered s
  rootBlack : rootColor s = .black
  noRedRed : NoRedRed s
  blackHeight : ∃ n, ∀ c ∈ blackCounts s, c = n

/-- In a run of inserts of distinct keys whose rotations all keep the colours, the tree is a red-black search tree after every insert
that returns. -/
theorem insert_redBlack (ops : List (Bool × K × T)) (hd : (ops.map (·.2.1)).Nodup)
    (hc : Runs.Along allocStep StepKeepsColors new ops) (pre : List (Bool × K × T)) (hpre : pre <+: ops) (t : RbTree K T)
    (ht : Runs.exec allocStep new pre = .ok t) : ∃ s, t.shape = some s ∧ RedBlack s := by
  have hdpre : (pre.map (·.2.1)).Nodup := hd.sublist (hpre.sublist.map _)
  have hcpre : Runs.Along allocStep StepKeepsColors new pre := by
    obtain ⟨post, rfl⟩ := hpre
    exact hc.prefix
  obtain ⟨s, kvs, n, hs, hb, -⟩ := balanced_of_run hdpre hcpre ht
  exact ⟨s, hs.represents.shape_eq, hs.ordered, hs.black, hb.noRedRed, n, hb.blackCounts⟩

/-- A run with a failed allocation, a right rotation and two rotations at the root, and a left one below it. -/
theorem insert_redBlack_run :
    ∃ t, Runs.exec allocStep (new : RbTree ℕ ℕ)
        [(true, 5, 50), (true, 3, 30), (false, 9, 90), (true, 4, 40), (true, 6, 60), (true, 7, 70)] = .ok t ∧
      ∃ s, t.shape = some s ∧ RedBlack s := by
  obtain ⟨t, ht⟩ : ∃ t, Runs.exec allocStep (new : RbTree ℕ ℕ)
      [(true, 5, 50), (true, 3, 30), (false, 9, 90), (true, 4, 40), (true, 6, 60), (true, 7, 70)] = .ok t := ⟨_, rfl⟩
  exact ⟨t, ht, insert_redBlack _ (by decide) (by decide) _ (List.prefix_refl _) t ht⟩

/-- A right rotation below the root leaves red 5 and black 20 below 10. Two rotations of the black node 3, to which a rotation further
down has led, lose no node and leave as unequal a tree. -/
theorem insert_breaks_colors :
    (∃ t s, Runs.exec allocStep (new : RbTree ℕ ℕ) ([10, 5, 20, 3, 2].map fun k => (true, k, 0)) = .ok t ∧ t.shape = some s ∧
      ¬RedBlack s) ∧
    ∃ t s, Runs.exec allocStep (new : RbTree ℕ ℕ) ([5, 6, 1, 2, 0, 3, 4].map fun k => (true, k, 0)) = .ok t ∧ t.shape = some s ∧
      ¬RedBlack s := by
  refine ⟨⟨_, _, rfl, rfl, fun h => ?_⟩, ⟨_, _, rfl, rfl, fun h => ?_⟩⟩
  · obtain ⟨n, hn⟩ := h.blackHeight
    exact absurd ((hn 1 (by decide)).trans (hn 2 (by decide)).symm) (by decide)
  · obtain ⟨n, hn⟩ := h.blackHeight
    exact absurd ((hn 1 (by decide)).trans (hn 2 (by decide)).symm) (by decide)

/-! ## Ascending keys -/

/-- An insert of a key above all others: its descent goes right all the way, and its rotations are left ones. -/
theorem Stores.insert_above {t : RbTree K T} {s : Shape K T} {kvs : List (K × T)} {kv : K × T} {n : Nat} (hs : Stores t s kvs)
    (hb : Balanced s n) (habove : ∀ k ∈ kvs.map Prod.fst, k < kv.1) :
    ∃ t', insertStep t kv = .ok t' ∧ ∃ s' m, Stores t' s' (kvs ++ [kv]) ∧ Balanced s' m := by
  have hk : kv.1 ∉ kvs.map Prod.fst := fun hm => lt_irrefl _ (habove _ hm)
  have hup : ∀ kv' ∈ entries s, kv'.1 < kv.1 := fun kv' hm => habove _ (List.mem_map_of_mem (hs.perm.mem_iff.mp hm))
  obtain ⟨path, hpath, hright⟩ := descend_of_above hup (List.forall_mem_nil _)
  have hrots : insertRotations t kv.1 = rotations .red path := by
    simp [insertRotations, hs.represents.shape_eq, hpath]
  have hq : ∀ q ∈ insertRotations t kv.1, q.keepsColors = true := by
    intro q hm
    rw [hrots] at hm
    obtain ⟨h1, h2⟩ := rotations_of_right .red hright q hm
    simp [Rotation.keepsColors, Rotation.relinks, h1, h2]
  rcases hs.insert hk fun q hm => Or.inl (Rotation.relinks_of_keepsColors (hq q hm)) with ⟨⟨q, hm, hql⟩, -⟩ | ⟨-, t', -, ht', -⟩
  · exact absurd (Rotation.relinks_of_keepsColors (hq q hm)) (by simp [hql])
  · exact ⟨t', ht', hs.insert_balanced hb hk (fun q hm => Or.inr (hq q hm)) ht'⟩

/-- Inserts of ascending keys do not fail, and after each of them every child's parent pointer names its parent, the root has none, no
node is deeper than twice the logarithm of the number of nodes, and every key is found with its value and no other is. -/
theorem insert_ascending (ops : List (K × T)) (ha : (ops.map Prod.fst).Pairwise (· < ·)) (pre : List (K × T)) (hpre : pre <+: ops) :
    ∃ t, Runs.exec insertStep new pre = .ok t ∧ WellLinked t ∧
      (∀ p d, DepthAt t p d → (d : ℝ) ≤ 2 * Real.logb 2 (pre.length + 1)) ∧
      ∀ k, (∀ v, (k, v) ∈ pre → t.get k = .ok (some v)) ∧ (k ∉ pre.map Prod.fst → t.get k = .ok none) := by
  have hapre : (pre.map Prod.fst).Pairwise (· < ·) := ha.sublist (hpre.sublist.map _)
  have htrue : Runs.Along insertStep (fun _ _ => True) (new : RbTree K T) pre := Runs.Along.of_forall fun _ _ => trivial
  obtain ⟨t, ht, s, n, hs, hb⟩ := Runs.progress_history (fun done t => ∃ s n, Stores t s done ∧ Balanced s n) ⟨_, 0, new_stores, rfl⟩
    (fun done kv t hp hI _ => by
      obtain ⟨s, n, hs, hb⟩ := hI
      have hsorted := hapre.sublist (hp.sublist.map Prod.fst)
      rw [List.map_append, List.pairwise_append] at hsorted
      exact hs.insert_above hb fun k hk => hsorted.2.2 k hk kv.1 (by simp)) htrue
  refine ⟨t, ht, hs.represents.wellLinked, fun p d hd => ?_, fun k => ?_⟩
  · have hlen : s.numNodes = pre.length := by
      rw [← hs.perm.length_eq, entries, List.length_map, inorder_length]
    have hdepth : d ≤ 2 * n := (hs.represents.depth_le hd).trans (hb.height_le.2 hs.black)
    have hpow := hb.numNodes_ge
    rw [hlen] at hpow
    have hlog : (n : ℝ) ≤ Real.logb 2 (pre.length + 1) := by
      rw [Real.le_logb_iff_rpow_le (by norm_num) (by positivity), Real.rpow_natCast]
      exact_mod_cast hpow
    calc (d : ℝ) ≤ 2 * n := by exact_mod_cast hdepth
      _ ≤ 2 * Real.logb 2 (pre.length + 1) := by linarith
  · exact ⟨fun v hm => ((hs.get k).1 v hm).1, fun hm => ((hs.get k).2 hm).1⟩

/-- The first keys of the repository's own test. -/
theorem insert_ascending_run :
    ∃ t, Runs.exec insertStep (new : RbTree ℕ ℕ) [(0, 10), (1, 20), (2, 30), (3, 40)] = .ok t ∧ WellLinked t ∧
      (∀ p d, DepthAt t p d → (d : ℝ) ≤ 2 * Real.logb 2 (([(0, 10), (1, 20), (2, 30), (3, 40)] : List (ℕ × ℕ)).length + 1)) ∧
      ∀ k, (∀ v, (k, v) ∈ [(0, 10), (1, 20), (2, 30), (3, 40)] → t.get k = .ok (some v)) ∧
        (k ∉ ([(0, 10), (1, 20), (2, 30), (3, 40)] : List (ℕ × ℕ)).map Prod.fst → t.get k = .ok none) :=
  insert_ascending [(0, 10), (1, 20), (2, 30), (3, 40)] (by decide) _ (List.prefix_refl _)

end MiriWeirdness.RbTree
