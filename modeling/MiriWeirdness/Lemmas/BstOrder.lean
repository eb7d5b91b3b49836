import MiriWeirdness.Lemmas.BstEntries
import Mathlib.Order.RelClasses

/-!
# The order of the binary search tree

The order is mirrored: the keys of a left subtree are greater than the node's, those of a right subtree smaller. An insert keeps it.
A removal keeps it exactly when it does not pull an entry past a subtree that belongs on the other side (`keepsOrder`).
-/

namespace MiriWeirdness.BinarySearchTree

variable {K T : Type*} [LinearOrder K]

/-- `a` stands to the left of `b`: its key is the greater one. -/
def Precedes (a b : Entry K T) : Prop := b.key < a.key

instance : IsTrans (Entry K T) Precedes := ⟨fun _ _ _ hab hbc => lt_trans hbc hab⟩

/-- The tree is ordered as `insert`'s descent assumes: every key of a node's left subtree is greater than the node's key, every
key of its right subtree smaller. -/
abbrev SearchOrdered (t : Slot K T) : Prop := t.Ordered Precedes

/-- An ordered tree stores no key twice. -/
theorem SearchOrdered.nodup {t : Slot K T} (h : SearchOrdered t) : (keys t).Nodup := by
  rw [keys, List.nodup_iff_pairwise_ne, List.pairwise_map]
  exact ((BinaryTree.ordered_iff_pairwise t).mp h).imp fun hab => ne_of_gt hab

/-! ## Inserts -/

theorem insert_ordered {alloc : Bool} {k : K} {v : T} {t t' : Slot K T} (h : insert alloc k v t = .ok t')
    (ho : SearchOrdered t) : SearchOrdered t' := by
  induction t generalizing t' with
  | nil =>
    cases h
    cases alloc <;> simp [place, BinaryTree.Ordered]
  | node e l r ihl ihr =>
    obtain ⟨hl, hr, hle, her⟩ := ho
    rw [insert] at h
    split at h
    · rename_i hc
      cases hi : insert alloc k v l with
      | error f => simp [hi, Except.map] at h
      | ok l' =>
        simp only [hi, Except.map, Except.ok.injEq] at h
        subst h
        refine ⟨ihl hi hl, hr, fun b hb => ?_, her⟩
        rcases List.mem_append.mp ((insert_perm hi).mem_iff.mp hb) with hb | hb
        · obtain ⟨-, rfl⟩ := mem_place.mp hb
          exact compare_lt_iff_lt.mp hc
        · exact hle b hb
    · cases h
    · rename_i hc
      cases hi : insert alloc k v r with
      | error f => simp [hi, Except.map] at h
      | ok r' =>
        simp only [hi, Except.map, Except.ok.injEq] at h
        subst h
        refine ⟨hl, ihr hi hr, hle, fun b hb => ?_⟩
        rcases List.mem_append.mp ((insert_perm hi).mem_iff.mp hb) with hb | hb
        · obtain ⟨-, rfl⟩ := mem_place.mp hb
          exact compare_gt_iff_gt.mp hc
        · exact her b hb

/-- In an ordered tree the descent of an insert meets its key when the key is stored. -/
theorem insert_error_of_mem {alloc : Bool} {k : K} {v : T} {t : Slot K T} (ho : SearchOrdered t) (hk : k ∈ keys t) :
    insert alloc k v t = .error .keyPresent := by
  induction t with
  | nil => simp at hk
  | node e l r ihl ihr =>
    obtain ⟨hl, hr, hle, her⟩ := ho
    rw [mem_keys_node] at hk
    rw [insert]
    rcases hk with hk | rfl | hk
    · obtain ⟨b, hb, rfl⟩ := mem_keys.mp hk
      rw [compare_lt_iff_lt.mpr (hle b hb), ihl hl hk]
      rfl
    · rw [compare_eq_iff_eq.mpr rfl]
    · obtain ⟨b, hb, rfl⟩ := mem_keys.mp hk
      rw [compare_gt_iff_gt.mpr (her b hb), ihr hr hk]
      rfl

/-- In an ordered tree an insert panics exactly at a key that is stored. -/
theorem insert_error_iff {alloc : Bool} {k : K} {v : T} {t : Slot K T} (ho : SearchOrdered t) :
    (∃ f, insert alloc k v t = .error f) ↔ contains k t = true := by
  rw [contains_iff]
  constructor
  · rintro ⟨f, hf⟩
    exact (mem_keys_of_insert_error hf).1
  · intro hk
    exact ⟨_, insert_error_of_mem ho hk⟩

/-! ## Removals -/

/-- The condition under which `TreeNode::remove` keeps the order: the child that holds the key has no subtree on its inner side,
the side towards the node that takes its entry over. -/
def TreeNode.keepsOrder (key : K) : Slot K T → Bool
  | .node _ (.node le ll lr) _ => if le.key = key then lr.isNil else TreeNode.keepsOrder key (.node le ll lr)
  | .node _ .nil (.node re rl rr) => if re.key = key then rl.isNil else TreeNode.keepsOrder key (.node re rl rr)
  | .node _ .nil .nil => true
  | .nil => true

/-- The condition under which `remove` keeps the order. At the root: one of its children is missing, or its left child has no right
subtree. -/
def keepsOrder (key : K) : Slot K T → Bool
  | .nil => true
  | .node e left right =>
    if e.key = key then
      match left, right with
      | .node _ _ lr, .node _ _ _ => lr.isNil
      | _, _ => true
    else TreeNode.keepsOrder key (.node e left right)

/-- A tree that is ordered stays so when entries are left out of it without reordering the others. -/
theorem SearchOrdered.of_sublist {t t' : Slot K T} (ho : SearchOrdered t) (h : t'.inorder.Sublist t.inorder) :
    SearchOrdered t' :=
  (BinaryTree.ordered_iff_pairwise t').mpr (((BinaryTree.ordered_iff_pairwise t).mp ho).sublist h)

/-- An entry that is left in the left subtree of a node with a greater key breaks the order. -/
theorem not_ordered_of_left {e x : Entry K T} {l r : Slot K T} (hx : x ∈ l.inorder) (hlt : x.key < e.key) :
    ¬SearchOrdered (.node e l r) :=
  fun h => lt_asymm hlt (h.2.2.1 x hx)

/-- An entry that is left in the right subtree of a node with a smaller key breaks the order. -/
theorem not_ordered_of_right {e x : Entry K T} {l r : Slot K T} (hx : x ∈ r.inorder) (hlt : e.key < x.key) :
    ¬SearchOrdered (.node e l r) :=
  fun h => lt_asymm hlt (h.2.2.2 x hx)

/-- Removing the root keeps the order of an ordered tree exactly when the entry of the left child moves up past no right subtree
of it. -/
theorem removeNode_ordered_iff {e : Entry K T} {l r t' : Slot K T} (ho : SearchOrdered (.node e l r))
    (h : removeNode (.node e l r) = some (e, t')) : SearchOrdered t' ↔ keepsOrder e.key (.node e l r) = true := by
  cases l with
  | nil =>
    rw [removeNode_nil_left] at h
    cases h
    simp [keepsOrder, ho.2.1]
  | node le ll lr =>
    cases r with
    | nil =>
      rw [removeNode_nil_right] at h
      cases h
      simp [keepsOrder, ho.1]
    | node re rl rr =>
      obtain ⟨left, hrec, hp⟩ := removeNode_perm le ll lr
      rw [removeNode_two hrec] at h
      cases h
      have hk : keepsOrder e.key (.node e (.node le ll lr) (.node re rl rr)) = lr.isNil := by simp [keepsOrder]
      rw [hk]
      cases hlr : lr.isNil with
      | true =>
        rw [BinaryTree.isNil_iff] at hlr
        subst hlr
        rw [removeNode_nil_right] at hrec
        cases hrec
        refine iff_of_true (ho.of_sublist ?_) rfl
        simp only [BinaryTree.inorder_node, BinaryTree.inorder_nil]
        simp
      | false =>
        -- an entry of the right subtree of the left child is smaller than the left child's, and stays to its left
        obtain ⟨x, hx⟩ := BinaryTree.exists_mem_of_isNil_eq_false hlr
        have hlt : x.key < le.key := ho.1.2.2.2 x hx
        have hxt : x ∈ left.inorder := by
          have : x ∈ le :: left.inorder := hp.mem_iff.mpr (by simp [hx])
          rcases List.mem_cons.mp this with rfl | h
          · exact absurd hlt (lt_irrefl _)
          · exact h
        exact iff_of_false (not_ordered_of_left hxt hlt) (by simp)

/-- The entries left by a removal are entries of the tree. -/
theorem mem_of_treeNode_remove {key : K} {t : Slot K T} {x : Entry K T} (h : x ∈ (TreeNode.remove key t).2.inorder) :
    x ∈ t.inorder := by
  rcases treeNode_remove_takesParent key t with ⟨-, heq⟩ | ⟨-, p, -, hp, -⟩
  · rwa [heq] at h
  · exact hp.subset (List.mem_cons_of_mem p h)

theorem treeNode_remove_ordered_iff {key : K} {t : Slot K T} (ho : SearchOrdered t) :
    SearchOrdered (TreeNode.remove key t).2 ↔ TreeNode.keepsOrder key t = true := by
  induction t with
  | nil => exact iff_of_true trivial rfl
  | node e l r ihl ihr =>
    obtain ⟨hl, hr, hle, her⟩ := ho
    cases l with
    | node le ll lr =>
      by_cases hk : le.key = key
      · obtain ⟨l', htake, hp⟩ := takeOver_perm e le ll lr
        simp only [TreeNode.remove, TreeNode.keepsOrder, hk, if_true, htake]
        cases hlr : lr.isNil with
        | true =>
          rw [BinaryTree.isNil_iff] at hlr
          subst hlr
          rw [takeOver, removeNode_nil_right] at htake
          cases htake
          refine iff_of_true (SearchOrdered.of_sublist (t := .node e (.node le ll .nil) r) ⟨hl, hr, hle, her⟩ ?_) rfl
          simp
        | false =>
          obtain ⟨x, hx⟩ := BinaryTree.exists_mem_of_isNil_eq_false hlr
          have hlt : x.key < le.key := hl.2.2.2 x hx
          have hxt : x ∈ l'.inorder := by
            have : x ∈ le :: l'.inorder := hp.mem_iff.mpr (by simp [hx])
            rcases List.mem_cons.mp this with rfl | h
            · exact absurd hlt (lt_irrefl _)
            · exact h
          exact iff_of_false (not_ordered_of_left hxt hlt) (by simp)
      · have hsub : ∀ b ∈ (TreeNode.remove key (.node le ll lr)).2.inorder, Precedes b e :=
          fun b hb => hle b (mem_of_treeNode_remove hb)
        simp only [TreeNode.remove, TreeNode.keepsOrder, hk, if_false, BinaryTree.Ordered]
        rw [← ihl hl]
        exact ⟨fun h => h.1, fun h => ⟨h, hr, hsub, her⟩⟩
    | nil =>
      cases r with
      | node re rl rr =>
        by_cases hk : re.key = key
        · obtain ⟨r', htake, hp⟩ := takeOver_perm e re rl rr
          simp only [TreeNode.remove, TreeNode.keepsOrder, hk, if_true, htake]
          cases hrl : rl.isNil with
          | true =>
            rw [BinaryTree.isNil_iff] at hrl
            subst hrl
            rw [takeOver, removeNode_nil_left] at htake
            cases htake
            refine iff_of_true (SearchOrdered.of_sublist (t := .node e .nil (.node re .nil rr)) ⟨hl, hr, hle, her⟩ ?_) rfl
            simp
          | false =>
            obtain ⟨x, hx⟩ := BinaryTree.exists_mem_of_isNil_eq_false hrl
            have hlt : re.key < x.key := hr.2.2.1 x hx
            have hxt : x ∈ r'.inorder := by
              have : x ∈ re :: r'.inorder := hp.mem_iff.mpr (by simp [hx])
              rcases List.mem_cons.mp this with rfl | h
              · exact absurd hlt (lt_irrefl _)
              · exact h
            exact iff_of_false (not_ordered_of_right hxt hlt) (by simp)
        · have hsub : ∀ b ∈ (TreeNode.remove key (.node re rl rr)).2.inorder, Precedes e b :=
            fun b hb => her b (mem_of_treeNode_remove hb)
          simp only [TreeNode.remove, TreeNode.keepsOrder, hk, if_false, BinaryTree.Ordered]
          rw [← ihr hr]
          exact ⟨fun h => h.2.1, fun h => ⟨hl, h, hle, hsub⟩⟩
      | nil => exact iff_of_true ⟨hl, hr, hle, her⟩ rfl

/-- A removal keeps the order of an ordered tree exactly when it meets `keepsOrder`. -/
theorem remove_ordered_iff {key : K} {t : Slot K T} (ho : SearchOrdered t) :
    SearchOrdered (remove key t).2 ↔ keepsOrder key t = true := by
  cases t with
  | nil => exact iff_of_true trivial rfl
  | node e l r =>
    by_cases hk : e.key = key
    · obtain ⟨t', h, -⟩ := removeNode_perm e l r
      subst hk
      rw [← removeNode_ordered_iff ho h]
      simp [remove, h]
    · have := @treeNode_remove_ordered_iff _ _ _ key _ ho
      simpa [remove, keepsOrder, hk] using this

end MiriWeirdness.BinarySearchTree
