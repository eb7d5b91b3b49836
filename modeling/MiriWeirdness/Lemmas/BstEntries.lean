import MiriWeirdness.BinarySearchTree
import Mathlib.Data.List.Nodup

/-!
# The entries of the binary search tree

Statements about which entries a tree holds, whatever their order: what `get` finds, what an insert adds, what `remove_node`,
`takeOver` and the two `remove` take out.
-/

namespace MiriWeirdness.BinarySearchTree

variable {K T : Type*}

/-- The keys that `remove` compares its key with: the root's, then down the left child where there is one, else the right. -/
def searchPath : Slot K T → List K
  | .nil => []
  | .node e left right => e.key :: (if left.isNil then searchPath right else searchPath left)

@[simp] theorem keys_nil : keys (.nil : Slot K T) = [] := rfl

theorem mem_keys {k : K} {t : Slot K T} : k ∈ keys t ↔ ∃ e ∈ t.inorder, e.key = k := by
  simp [keys]

theorem mem_keys_node {k : K} {e : Entry K T} {l r : Slot K T} :
    k ∈ keys (.node e l r) ↔ k ∈ keys l ∨ k = e.key ∨ k ∈ keys r := by
  simp [keys]

/-- Keys that `remove` compares its key with are keys of the tree. -/
theorem searchPath_subset (t : Slot K T) : ∀ k ∈ searchPath t, k ∈ keys t := by
  induction t with
  | nil => simp [searchPath]
  | node e l r ihl ihr =>
    intro k hk
    rw [searchPath, List.mem_cons] at hk
    rw [mem_keys_node]
    rcases hk with rfl | hk
    · exact Or.inr (Or.inl rfl)
    · split at hk
      · exact Or.inr (Or.inr (ihr k hk))
      · exact Or.inl (ihl k hk)

/-- With distinct keys an entry is determined by its key. -/
theorem entry_unique {t : Slot K T} (hd : (keys t).Nodup) {e e' : Entry K T} (he : e ∈ t.inorder) (he' : e' ∈ t.inorder)
    (hk : e.key = e'.key) : e = e' :=
  List.inj_on_of_nodup_map hd he he' hk

/-- The entries of a fresh node: none when the allocation fails. -/
theorem mem_place {alloc : Bool} {k : K} {v : T} {e : Entry K T} :
    e ∈ (place alloc k v).inorder ↔ alloc = true ∧ e = ⟨k, v⟩ := by
  cases alloc <;> simp [place]

/-! ## What is taken out -/

/-- A node without a right subtree is replaced by its left one. -/
theorem removeNode_nil_right (e : Entry K T) (l : Slot K T) : removeNode (.node e l .nil) = some (e, l) := by
  cases l <;> rfl

/-- A node without a left subtree is replaced by its right one. -/
theorem removeNode_nil_left (e : Entry K T) (r : Slot K T) : removeNode (.node e .nil r) = some (e, r) := by
  cases r <;> rfl

/-- A node with two children takes the entry of its left child's root, which is removed from the left slot. Clearing that slot
changes nothing: where the left child is a leaf, its removal has emptied the slot. -/
theorem removeNode_two {e le re : Entry K T} {ll lr rl rr left : Slot K T}
    (h : removeNode (.node le ll lr) = some (le, left)) :
    removeNode (.node e (.node le ll lr) (.node re rl rr)) = some (e, .node le left (.node re rl rr)) := by
  have hclear : (if ll.isNil && lr.isNil then .nil else left) = left := by
    cases ll with
    | nil =>
      rw [removeNode_nil_left] at h
      cases h
      cases lr <;> rfl
    | node _ _ _ => rfl
  simp only [removeNode, h, Option.bind_eq_bind, Option.bind_some, hclear]

/-- `remove_node` on a slot that is not empty returns the root's entry and leaves exactly the others. -/
theorem removeNode_perm (e : Entry K T) (l r : Slot K T) :
    ∃ t', removeNode (.node e l r) = some (e, t') ∧ (e :: t'.inorder).Perm (BinaryTree.node e l r).inorder := by
  induction l generalizing e r with
  | nil =>
    cases r with
    | nil => exact ⟨.nil, rfl, by simp⟩
    | node re rl rr => exact ⟨.node re rl rr, rfl, by simp⟩
  | node le ll lr ihl _ =>
    cases r with
    | nil => exact ⟨.node le ll lr, rfl, (List.perm_append_singleton e (BinaryTree.node le ll lr).inorder).symm⟩
    | node re rl rr =>
      obtain ⟨left, hrec, hp⟩ := ihl le lr
      refine ⟨.node le left (.node re rl rr), removeNode_two hrec, ?_⟩
      have h1 : (left.inorder ++ le :: (BinaryTree.node re rl rr).inorder).Perm
          ((BinaryTree.node le ll lr).inorder ++ (BinaryTree.node re rl rr).inorder) := by
        refine List.perm_middle.trans ?_
        simpa using hp.append_right (BinaryTree.node re rl rr).inorder
      exact (h1.cons e).trans List.perm_middle.symm

/-- `TreeNode::remove_node` without the assignment that clears the left slot. -/
def removeNodeUncleared : Slot K T → Option (Entry K T × Slot K T)
  | .nil => none
  | .node e (.node le ll lr) .nil => some (e, .node le ll lr)
  | .node e (.node le ll lr) (.node re rl rr) => do
    let (other, left) ← removeNodeUncleared (.node le ll lr)
    some (e, .node other left (.node re rl rr))
  | .node e .nil (.node re rl rr) => some (e, .node re rl rr)
  | .node e .nil .nil => some (e, .nil)

/-- Clearing the left slot changes nothing, on any tree. -/
theorem removeNodeUncleared_eq (t : Slot K T) : removeNodeUncleared t = removeNode t := by
  induction t with
  | nil => rfl
  | node e l r ihl _ =>
    cases l with
    | nil => cases r <;> rfl
    | node le ll lr =>
      cases r with
      | nil => rfl
      | node re rl rr =>
        obtain ⟨left, hrec, -⟩ := removeNode_perm le ll lr
        rw [removeNode_two hrec, removeNodeUncleared, ihl, hrec]
        rfl

/-- Where a child holds the key, its entry moves up into the node and the node's own entry is gone. -/
theorem takeOver_perm (e c : Entry K T) (l r : Slot K T) :
    ∃ t', takeOver e (.node c l r) = (some e.val, c, t') ∧ (c :: t'.inorder).Perm (BinaryTree.node c l r).inorder := by
  obtain ⟨t', h, hp⟩ := removeNode_perm c l r
  exact ⟨t', by simp [takeOver, h], hp⟩

/-- What `TreeNode::remove` does to a tree: nothing, when the key is not on the search path below the root; else it takes the entry
`p` of the parent of the key's node out, returns its value, and the removed key is still stored. -/
def TakesParent (key : K) (t : Slot K T) (res : Option T × Slot K T) : Prop :=
  (key ∉ (searchPath t).tail ∧ res = (none, t)) ∨
    (key ∈ (searchPath t).tail ∧ ∃ p : Entry K T, res.1 = some p.val ∧ (p :: res.2.inorder).Perm t.inorder ∧
      ∃ c ∈ res.2.inorder, c.key = key)

/-- The path below its first key, which is another one. -/
theorem mem_tail_iff {key : K} {path : List K} (h : ∀ x ∈ path.head?, x ≠ key) : key ∈ path ↔ key ∈ path.tail := by
  cases path with
  | nil => exact Iff.rfl
  | cons x xs =>
    have hne : x ≠ key := h x rfl
    rw [List.mem_cons, List.tail_cons]
    exact or_iff_right hne.symm

/-- A removal in a subtree whose root does not hold the key, seen from the tree whose search path goes through that root. -/
theorem TakesParent.inChild {key : K} {s s' t t' : Slot K T} {ret : Option T} (h : TakesParent key s (ret, s'))
    (hk : ∀ x ∈ (searchPath s).head?, x ≠ key) (hpath : (searchPath t).tail = searchPath s) (hsame : s' = s → t' = t)
    (hperm : ∀ p : Entry K T, (p :: s'.inorder).Perm s.inorder → (p :: t'.inorder).Perm t.inorder)
    (hsub : ∀ c ∈ s'.inorder, c ∈ t'.inorder) : TakesParent key t (ret, t') := by
  unfold TakesParent at h ⊢
  rw [hpath, mem_tail_iff hk]
  rcases h with ⟨hn, heq⟩ | ⟨hm, p, hret, hp, c, hc, hck⟩
  · obtain ⟨rfl, hs⟩ := Prod.mk.inj heq
    rw [hsame hs]
    exact Or.inl ⟨hn, rfl⟩
  · exact Or.inr ⟨hm, p, hret, hperm p hp, c, hsub c hc, hck⟩

/-- A removal in the left subtree, seen from the node. -/
theorem TakesParent.inLeft {key : K} {e : Entry K T} {l r l' : Slot K T} {ret : Option T} (hl : l.isNil = false)
    (hk : ∀ x ∈ (searchPath l).head?, x ≠ key) (h : TakesParent key l (ret, l')) :
    TakesParent key (.node e l r) (ret, .node e l' r) := by
  refine h.inChild hk ?_ (fun heq => by rw [heq]) (fun p hp => ?_) (fun c hc => by simp [hc])
  · simp only [searchPath, hl, Bool.false_eq_true, if_false, List.tail_cons]
  · simpa using hp.append_right (e :: r.inorder)

/-- A removal in the right subtree, seen from the node. -/
theorem TakesParent.inRight {key : K} {e : Entry K T} {r r' : Slot K T} {ret : Option T}
    (hk : ∀ x ∈ (searchPath r).head?, x ≠ key) (h : TakesParent key r (ret, r')) :
    TakesParent key (.node e .nil r) (ret, .node e .nil r') := by
  refine h.inChild hk ?_ (fun heq => by rw [heq]) (fun p hp => ?_) (fun c hc => by simp [hc])
  · simp only [searchPath, BinaryTree.isNil_nil, if_true, List.tail_cons]
  · simpa using (List.Perm.swap e p r'.inorder).trans (hp.cons e)

variable [LinearOrder K]

/-! ## What `get` finds -/

/-- `get` scans the whole tree: it finds nothing exactly when the key is not stored. -/
theorem get_eq_none_iff {k : K} (t : Slot K T) : get k t = none ↔ k ∉ keys t := by
  induction t with
  | nil => simp [get]
  | node e l r ihl ihr =>
    rw [mem_keys_node, get]
    by_cases hk : e.key = k
    · simp [hk]
    · rw [if_neg hk]
      cases hl : get k l with
      | some v =>
        have : k ∈ keys l := by
          by_contra hn
          rw [ihl.mpr hn] at hl
          cases hl
        simp [this]
      | none => simp [ihl.mp hl, ihr, Ne.symm hk]

theorem contains_iff {k : K} (t : Slot K T) : contains k t = true ↔ k ∈ keys t := by
  rw [contains, Option.isSome_iff_ne_none, ne_eq, get_eq_none_iff, not_not]

/-- What `get` finds is the value of an entry with the key. -/
theorem mem_of_get {k : K} {v : T} (t : Slot K T) (h : get k t = some v) : ⟨k, v⟩ ∈ t.inorder := by
  induction t with
  | nil => cases h
  | node e l r ihl ihr =>
    rw [BinaryTree.mem_inorder_node]
    rw [get] at h
    split at h
    · rename_i hk
      cases h
      exact Or.inr (Or.inl (by cases e; simp_all))
    · split at h
      · rename_i hl
        cases h
        exact Or.inl (ihl hl)
      · exact Or.inr (Or.inr (ihr h))

/-- With distinct keys `get` finds exactly the values of the stored entries. -/
theorem get_eq_some_iff {k : K} {v : T} {t : Slot K T} (hd : (keys t).Nodup) : get k t = some v ↔ ⟨k, v⟩ ∈ t.inorder := by
  refine ⟨mem_of_get t, fun h => ?_⟩
  cases hg : get k t with
  | none => exact absurd (mem_keys.mpr ⟨_, h, rfl⟩) ((get_eq_none_iff t).mp hg)
  | some w =>
    have := entry_unique hd (mem_of_get t hg) h rfl
    simp_all

/-- The key and the value of a stored entry, read through `get`. -/
theorem get_of_mem {t : Slot K T} (hd : (keys t).Nodup) {e : Entry K T} (he : e ∈ t.inorder) : get e.key t = some e.val :=
  (get_eq_some_iff hd).mpr he

/-- Two trees with distinct keys that store the same entries under a key answer `get` of it alike. -/
theorem get_congr {k : K} {t t' : Slot K T} (hd : (keys t).Nodup) (hd' : (keys t').Nodup)
    (h : ∀ v, (⟨k, v⟩ : Entry K T) ∈ t.inorder ↔ ⟨k, v⟩ ∈ t'.inorder) : get k t = get k t' := by
  apply Option.ext
  intro v
  rw [get_eq_some_iff hd, get_eq_some_iff hd', h v]

/-! ## What an insert adds -/

/-- An insert that returns adds its entry, when the allocation succeeds, and nothing else. -/
theorem insert_perm {alloc : Bool} {k : K} {v : T} {t t' : Slot K T} (h : insert alloc k v t = .ok t') :
    t'.inorder.Perm ((place alloc k v).inorder ++ t.inorder) := by
  induction t generalizing t' with
  | nil =>
    cases h
    simp
  | node e l r ihl ihr =>
    rw [insert] at h
    split at h
    · cases hl : insert alloc k v l with
      | error f => simp [hl, Except.map] at h
      | ok l' =>
        simp only [hl, Except.map, Except.ok.injEq] at h
        subst h
        have := (ihl hl).append_right (e :: r.inorder)
        simpa [List.append_assoc] using this
    · cases h
    · cases hr : insert alloc k v r with
      | error f => simp [hr, Except.map] at h
      | ok r' =>
        simp only [hr, Except.map, Except.ok.injEq] at h
        subst h
        have h1 : (l.inorder ++ e :: r'.inorder).Perm ((l.inorder ++ [e]) ++ ((place alloc k v).inorder ++ r.inorder)) := by
          simpa using ((ihr hr).cons e).append_left l.inorder
        refine h1.trans ?_
        have h2 := (@List.perm_append_comm _ (l.inorder ++ [e]) (place alloc k v).inorder).append_right r.inorder
        simpa [List.append_assoc] using h2

/-- An insert panics only at a key that is stored. -/
theorem mem_keys_of_insert_error {alloc : Bool} {k : K} {v : T} {t : Slot K T} {f : Fault} (h : insert alloc k v t = .error f) :
    k ∈ keys t ∧ f = .keyPresent := by
  induction t with
  | nil => cases h
  | node e l r ihl ihr =>
    rw [mem_keys_node]
    rw [insert] at h
    split at h
    · cases hl : insert alloc k v l with
      | error f' =>
        simp only [hl, Except.map, Except.error.injEq] at h
        subst h
        exact ⟨Or.inl (ihl hl).1, (ihl hl).2⟩
      | ok l' => simp [hl, Except.map] at h
    · rename_i hc
      cases h
      exact ⟨Or.inr (Or.inl (compare_eq_iff_eq.mp hc).symm), rfl⟩
    · cases hr : insert alloc k v r with
      | error f' =>
        simp only [hr, Except.map, Except.error.injEq] at h
        subst h
        exact ⟨Or.inr (Or.inr (ihr hr).1), (ihr hr).2⟩
      | ok r' => simp [hr, Except.map] at h

/-- An insert of a key that is not stored keeps the keys distinct. -/
theorem insert_nodup {alloc : Bool} {k : K} {v : T} {t t' : Slot K T} (h : insert alloc k v t = .ok t') (hd : (keys t).Nodup)
    (hk : k ∉ keys t) : (keys t').Nodup := by
  have hp : (keys t').Perm (keys (place alloc k v) ++ keys t) := by
    simpa [keys] using (insert_perm h).map (·.key)
  rw [hp.nodup_iff]
  cases alloc
  · simpa [place] using hd
  · simpa [place, keys] using ⟨by simpa [keys] using hk, hd⟩

/-! ## What `TreeNode::remove` takes out -/

theorem treeNode_remove_takesParent (key : K) (t : Slot K T) : TakesParent key t (TreeNode.remove key t) := by
  induction t with
  | nil => exact Or.inl ⟨by simp [searchPath], rfl⟩
  | node e l r ihl ihr =>
    cases l with
    | node le ll lr =>
      by_cases hk : le.key = key
      · obtain ⟨l', htake, hp⟩ := takeOver_perm e le ll lr
        refine Or.inr ⟨by simp [searchPath, hk], e, ?_, ?_, le, ?_, hk⟩
        · simp [TreeNode.remove, hk, htake]
        · simp only [TreeNode.remove, hk, if_true, htake]
          have h1 : (l'.inorder ++ le :: r.inorder).Perm ((BinaryTree.node le ll lr).inorder ++ r.inorder) :=
            List.perm_middle.trans (by simpa using hp.append_right r.inorder)
          exact (h1.cons e).trans List.perm_middle.symm
        · simp [TreeNode.remove, hk, htake]
      · have := ihl.inLeft (e := e) (r := r) rfl (by simp [searchPath, hk])
        simpa [TreeNode.remove, hk] using this
    | nil =>
      cases r with
      | node re rl rr =>
        by_cases hk : re.key = key
        · obtain ⟨r', htake, hp⟩ := takeOver_perm e re rl rr
          refine Or.inr ⟨by simp [searchPath, hk], e, ?_, ?_, re, ?_, hk⟩
          · simp [TreeNode.remove, hk, htake]
          · simpa [TreeNode.remove, hk, htake] using hp
          · simp [TreeNode.remove, hk, htake]
        · have := ihr.inRight (e := e) (by simp [searchPath, hk])
          simpa [TreeNode.remove, hk] using this
      | nil => exact Or.inl ⟨by simp [searchPath], rfl⟩

end MiriWeirdness.BinarySearchTree
