import Mathlib.Data.Nat.Basic
import MiriWeirdness.Lemmas.BstOrder

/-!
# What the binary search tree keeps, and what its removals lose

`BinarySearchTree::remove` is right at the root, as far as the entries go. Below the root it works on the parent of the key's node
and writes the key and the value that come out of `remove_node` over the parent's own: the parent's entry is lost, its value is
returned and the key is still stored. The search for the key goes down one path only, and the order is lost where an entry is pulled
past a subtree that belongs on its other side. Each of these is stated with the exact condition under which it does not happen.
-/

namespace MiriWeirdness.BinarySearchTree

variable {K T : Type*} [LinearOrder K]

/-! ## The order -/

/-- The condition on a call under which it keeps the order: an insert always does, a removal when `keepsOrder`. -/
def StepKeepsOrder (t : Slot K T) : Op K T → Prop
  | .insert _ _ _ => True
  | .remove key => keepsOrder key t = true

instance (t : Slot K T) (op : Op K T) : Decidable (StepKeepsOrder t op) :=
  match op with
  | .insert _ _ _ => isTrue trivial
  | .remove key => inferInstanceAs (Decidable (keepsOrder key t = true))

theorem new_ordered : SearchOrdered (new : Slot K T) := trivial

/-- A call that returns and meets its condition keeps the order. -/
theorem step_ordered {t t' : Slot K T} {op : Op K T} (ho : SearchOrdered t) (hs : StepKeepsOrder t op)
    (h : step t op = .ok t') : SearchOrdered t' := by
  cases op with
  | insert alloc key val => exact insert_ordered h ho
  | remove key =>
    cases h
    exact (remove_ordered_iff ho).mpr hs

/-- Along a run that does not panic and whose removals pull no entry past a subtree of its other side, every state is ordered and
stores no key twice, and an insert panics exactly at a key that is stored. -/
theorem ordered_of_keepsOrder (ops : List (Op K T)) (t : Slot K T) (hs : Runs.Along step StepKeepsOrder new ops)
    (h : Runs.exec step new ops = .ok t) :
    SearchOrdered t ∧ (keys t).Nodup ∧ ∀ alloc k v, (∃ f, insert alloc k v t = .error f) ↔ contains k t = true := by
  have ho : SearchOrdered t := Runs.invariant SearchOrdered (fun _ _ _ ho hs h => step_ordered ho hs h)
    new_ordered hs h
  exact ⟨ho, ho.nodup, fun alloc k v => insert_error_iff ho⟩

/-- A run with a removal at the root, one at a left child and one of a key that is not stored, all of which keep the order. -/
theorem ordered_of_keepsOrder_run :
    SearchOrdered (.node ⟨3, 0⟩ .nil .nil : Slot ℕ ℕ) ∧ (keys (.node ⟨3, 0⟩ .nil .nil : Slot ℕ ℕ)).Nodup ∧
      ∀ alloc k v, (∃ f, insert alloc k v (.node ⟨3, 0⟩ .nil .nil : Slot ℕ ℕ) = .error f) ↔
        contains k (.node ⟨3, 0⟩ .nil .nil : Slot ℕ ℕ) = true :=
  ordered_of_keepsOrder
    [.insert true 1 0, .insert true 2 0, .insert true 3 0, .remove 7, .remove 2, .remove 2] _ (by decide) rfl

/-- The order is lost in both ways a removal can lose it. Taking 3 over into the node of 1 leaves 2 to the left of 3, and 2 can then
be stored a second time. Removing the root 1 of a tree with two children puts 3 there, again with 2 to its left. -/
theorem remove_loses_order :
    (∃ t t' : Slot ℕ ℕ,
      Runs.exec step new [.insert true 1 0, .insert true 3 0, .insert true 2 0, .remove 3] = .ok t ∧ ¬SearchOrdered t ∧
        contains 2 t = true ∧ insert true 2 0 t = .ok t' ∧ ¬(keys t').Nodup) ∧
    ∃ t : Slot ℕ ℕ,
      Runs.exec step new [.insert true 1 0, .insert true 3 0, .insert true 2 0, .insert true 0 0, .remove 1] = .ok t ∧
        ¬SearchOrdered t := by
  refine ⟨⟨.node ⟨3, 0⟩ (.node ⟨2, 0⟩ .nil .nil) .nil, _, rfl, ?_, rfl, rfl, by decide⟩,
    ⟨.node ⟨3, 0⟩ (.node ⟨2, 0⟩ .nil .nil) (.node ⟨0, 0⟩ .nil .nil), rfl, ?_⟩⟩
  · exact not_ordered_of_left List.mem_cons_self (by decide)
  · exact not_ordered_of_left List.mem_cons_self (by decide)

/-! ## Inserts only -/

/-- The tree after an insert, whether it returns or panics: the panic comes before anything is written. -/
def insertOrPanic (t : Slot K T) (e : Entry K T) : Slot K T :=
  match insert true e.key e.val t with
  | .ok t' => t'
  | .error _ => t

/-- The value that a history of inserts puts under a key: that of the first insert of the key, the others panic. -/
def inserted (es : List (Entry K T)) (j : K) : Option T := (es.find? fun e => decide (e.key = j)).map (·.val)

/-- A history of inserts puts nothing under a key exactly when it does not insert it. -/
theorem inserted_eq_none_iff {es : List (Entry K T)} {j : K} : inserted es j = none ↔ j ∉ es.map (·.key) := by
  simp [inserted, List.find?_eq_none]

theorem inserted_append_singleton (es : List (Entry K T)) (e : Entry K T) (j : K) :
    inserted (es ++ [e]) j = (inserted es j).or (if e.key = j then some e.val else none) := by
  by_cases h : e.key = j
  · simp [inserted, List.find?_append, h]
  · simp [inserted, List.find?_append, h]

/-- The tree is the one that a history of inserts leaves: it is ordered, and `get` finds what was inserted. -/
structure Holds (es : List (Entry K T)) (t : Slot K T) : Prop where
  ordered : SearchOrdered t
  get : ∀ j, get j t = inserted es j

/-- The keys stored are the keys inserted. -/
theorem Holds.mem_keys_iff {es : List (Entry K T)} {t : Slot K T} (h : Holds es t) {k : K} : k ∈ keys t ↔ k ∈ es.map (·.key) := by
  rw [← not_iff_not, ← get_eq_none_iff, h.get, inserted_eq_none_iff]

/-- An insert panics exactly at a key that was inserted before. -/
theorem Holds.insert_error_iff {es : List (Entry K T)} {t : Slot K T} (h : Holds es t) (e : Entry K T) :
    (∃ f, insert true e.key e.val t = .error f) ↔ e.key ∈ es.map (·.key) := by
  rw [← h.mem_keys_iff, ← contains_iff]
  exact BinarySearchTree.insert_error_iff h.ordered

/-- An insert that returns adds its key and its value to what was inserted. -/
theorem Holds.insert_ok {es : List (Entry K T)} {t t' : Slot K T} (h : Holds es t) {e : Entry K T}
    (hok : insert true e.key e.val t = .ok t') : Holds (es ++ [e]) t' := by
  have ho' := insert_ordered hok h.ordered
  have hp := insert_perm hok
  have hk : e.key ∉ keys t := by
    intro hk
    rw [insert_error_of_mem h.ordered hk] at hok
    cases hok
  refine ⟨ho', fun j => ?_⟩
  rw [inserted_append_singleton, ← h.get]
  by_cases hj : e.key = j
  · subst hj
    rw [(get_eq_none_iff t).mpr hk, if_pos rfl, Option.none_or]
    exact get_of_mem ho'.nodup (hp.symm.subset (by simp [place]))
  · rw [if_neg hj, Option.or_none]
    refine get_congr ho'.nodup h.ordered.nodup fun v => ?_
    rw [hp.mem_iff, List.mem_append, mem_place]
    constructor
    · rintro (⟨-, heq⟩ | hm)
      · exact absurd (congrArg Entry.key heq).symm hj
      · exact hm
    · exact Or.inr

/-- An insert that panics leaves what was inserted before. -/
theorem Holds.insert_panic {es : List (Entry K T)} {t : Slot K T} (h : Holds es t) {e : Entry K T} (hk : e.key ∈ es.map (·.key)) :
    Holds (es ++ [e]) t := by
  refine ⟨h.ordered, fun j => ?_⟩
  rw [inserted_append_singleton, ← h.get]
  by_cases hj : e.key = j
  · subst hj
    cases hg : BinarySearchTree.get e.key t with
    | some v => rfl
    | none => exact absurd (h.mem_keys_iff.mpr hk) ((get_eq_none_iff t).mp hg)
  · rw [if_neg hj, Option.or_none]

/-- Every history of inserts leaves a tree that is ordered and in which `get` finds what was inserted. -/
theorem holds_history (es : List (Entry K T)) : Holds es (es.foldl insertOrPanic new) := by
  induction es using List.reverseRecOn with
  | nil => exact ⟨new_ordered, fun j => rfl⟩
  | append_singleton es e ih =>
    rw [List.foldl_append, List.foldl_cons, List.foldl_nil, insertOrPanic]
    cases hi : insert true e.key e.val (es.foldl insertOrPanic new) with
    | ok t' => exact ih.insert_ok hi
    | error f => exact ih.insert_panic ((ih.insert_error_iff e).mp ⟨f, hi⟩)

/-- After any history of inserts into a new tree, in any order and with repeated keys, the next insert panics if and only if its key was
inserted before; and if it returns, the tree is ordered and `get` finds under every key the value that was inserted with it, and
nothing under a key that was not inserted. -/
theorem insert_agrees_with_get (es : List (Entry K T)) (e : Entry K T) :
    match insert true e.key e.val (es.foldl insertOrPanic new) with
    | .error _ => e.key ∈ es.map (·.key)
    | .ok t' => e.key ∉ es.map (·.key) ∧ SearchOrdered t' ∧ ∀ j, get j t' = inserted (es ++ [e]) j := by
  have h := holds_history es
  have herr := h.insert_error_iff e
  cases hi : insert true e.key e.val (es.foldl insertOrPanic new) with
  | error f => exact herr.mp ⟨f, hi⟩
  | ok t' =>
    have hk : e.key ∉ es.map (·.key) := by
      intro hk
      obtain ⟨f, hf⟩ := herr.mpr hk
      rw [hi] at hf
      cases hf
    have h' := h.insert_ok hi
    exact ⟨hk, h'.ordered, h'.get⟩

/-- A history in which the key 2 comes twice: the second insert of it panics and its value is dropped. -/
example : ∃ t, insert true 4 40 ([⟨2, 20⟩, ⟨3, 30⟩, ⟨2, 21⟩].foldl insertOrPanic (new : Slot ℕ ℕ)) = .ok t ∧ get 2 t = some 20 :=
  ⟨_, rfl, rfl⟩

/-! ## `remove_node` at a slot that is not empty -/

/-- `remove_node` on a slot that is not empty, whatever the shape and the order of its tree, returns the entry of the root and leaves
exactly the others, and does the same without the assignment that clears the left slot; so with distinct keys a `remove` of the root's
key returns its value, leaves nothing under the key and every other key as it was. -/
theorem removeNode_root (e : Entry K T) (l r : Slot K T) (hd : (keys (.node e l r)).Nodup) :
    ∃ t', removeNode (.node e l r) = some (e, t') ∧ (e :: t'.inorder).Perm (BinaryTree.node e l r).inorder ∧
      removeNodeUncleared (.node e l r) = some (e, t') ∧ remove e.key (.node e l r) = (some e.val, t') ∧ get e.key t' = none ∧
      ∀ j, j ≠ e.key → get j t' = get j (.node e l r) := by
  obtain ⟨t', h, hp⟩ := removeNode_perm e l r
  have hd' : (e.key :: keys t').Nodup := (hp.map Entry.key).nodup_iff.mpr hd
  obtain ⟨hk, hd'⟩ := List.nodup_cons.mp hd'
  refine ⟨t', h, hp, (removeNodeUncleared_eq _).trans h, by simp [remove, h], (get_eq_none_iff t').mpr hk, fun j hj => ?_⟩
  refine get_congr hd' hd fun v => ?_
  rw [← hp.mem_iff, List.mem_cons]
  exact ⟨Or.inr, fun hm => hm.resolve_left fun he => hj (by rw [← he])⟩

/-- A root with two children, the left one with a subtree of its own. -/
theorem removeNode_root_two :
    ∃ t' : Slot ℕ ℕ, removeNode (.node ⟨5, 50⟩ (.node ⟨8, 80⟩ .nil (.node ⟨6, 60⟩ .nil .nil)) (.node ⟨1, 10⟩ .nil .nil)) = some (⟨5, 50⟩, t') ∧
      (⟨5, 50⟩ :: t'.inorder).Perm
        (BinaryTree.node (⟨5, 50⟩ : Entry ℕ ℕ) (.node ⟨8, 80⟩ .nil (.node ⟨6, 60⟩ .nil .nil)) (.node ⟨1, 10⟩ .nil .nil)).inorder ∧
      removeNodeUncleared (.node ⟨5, 50⟩ (.node ⟨8, 80⟩ .nil (.node ⟨6, 60⟩ .nil .nil)) (.node ⟨1, 10⟩ .nil .nil)) = some (⟨5, 50⟩, t') ∧
      remove 5 (.node ⟨5, 50⟩ (.node ⟨8, 80⟩ .nil (.node ⟨6, 60⟩ .nil .nil)) (.node ⟨1, 10⟩ .nil .nil)) = (some 50, t') ∧
      get 5 t' = none ∧
      ∀ j, j ≠ 5 → get j t' = get j (.node ⟨5, 50⟩ (.node ⟨8, 80⟩ .nil (.node ⟨6, 60⟩ .nil .nil)) (.node ⟨1, 10⟩ .nil .nil)) :=
  removeNode_root ⟨5, 50⟩ (.node ⟨8, 80⟩ .nil (.node ⟨6, 60⟩ .nil .nil)) (.node ⟨1, 10⟩ .nil .nil) (by decide)

/-! ## What `remove` returns and leaves -/

/-- The condition on a call of a run that inserts absent keys only. -/
def InsertsAbsent (t : Slot K T) : Op K T → Prop
  | .insert _ key _ => contains key t = false
  | .remove _ => True

instance (t : Slot K T) (op : Op K T) : Decidable (InsertsAbsent t op) :=
  match op with
  | .insert _ key _ => inferInstanceAs (Decidable (contains key t = false))
  | .remove _ => isTrue trivial

/-- The entries after a `remove`: those before it, but for at most one. -/
theorem remove_perm (key : K) (t : Slot K T) :
    (remove key t = (none, t) ∧ key ∉ searchPath t) ∨
      ∃ p : Entry K T, (remove key t).1 = some p.val ∧ (p :: (remove key t).2.inorder).Perm t.inorder ∧ key ∈ searchPath t ∧
        ((searchPath t).head? = some key → p.key = key) ∧
        ((searchPath t).head? ≠ some key → ∃ c ∈ (remove key t).2.inorder, c.key = key) := by
  cases t with
  | nil => exact Or.inl ⟨rfl, by simp [searchPath]⟩
  | node e l r =>
    by_cases hk : e.key = key
    · obtain ⟨t', h, hp⟩ := removeNode_perm e l r
      exact Or.inr ⟨e, by simp [remove, hk, h], by simpa [remove, hk, h] using hp, by simp [searchPath, hk], fun _ => hk,
        fun hn => absurd (by simp [searchPath, hk]) hn⟩
    · have hne : (searchPath (.node e l r)).head? ≠ some key := by simp [searchPath, hk]
      have hmem : key ∈ searchPath (.node e l r) ↔ key ∈ (searchPath (.node e l r)).tail := by
        simp [searchPath, Ne.symm hk]
      have hrem : remove key (.node e l r) = TreeNode.remove key (.node e l r) := by simp [remove, hk]
      rw [hmem, hrem]
      rcases treeNode_remove_takesParent key (.node e l r) with ⟨hn, heq⟩ | ⟨hm, p, hret, hp, hc⟩
      · exact Or.inl ⟨heq, hn⟩
      · exact Or.inr ⟨p, hret, hp, hm, fun h => absurd h hne, fun _ => hc⟩

/-- A removal takes the value it returns out of the tree, and no other. -/
theorem remove_vals_perm (key : K) (t : Slot K T) :
    ((remove key t).1.toList ++ (remove key t).2.inorder.map (·.val)).Perm (t.inorder.map (·.val)) := by
  rcases remove_perm key t with ⟨hnone, -⟩ | ⟨p, hret, hperm, -⟩
  · rw [hnone]
    exact List.Perm.refl _
  · rw [hret]
    exact hperm.map (·.val)

/-- A removal keeps the keys distinct. -/
theorem remove_nodup {key : K} {t : Slot K T} (hd : (keys t).Nodup) : (keys (remove key t).2).Nodup := by
  rcases remove_perm key t with ⟨h, -⟩ | ⟨p, -, hp, -⟩
  · rwa [h]
  · have : (p.key :: keys (remove key t).2).Nodup := (hp.map Entry.key).nodup_iff.mpr hd
    exact (List.nodup_cons.mp this).2

/-- A run that inserts absent keys only stores no key twice. -/
theorem nodup_of_insertsAbsent {ops : List (Op K T)} {t : Slot K T} (hs : Runs.Along step InsertsAbsent new ops)
    (h : Runs.exec step new ops = .ok t) : (keys t).Nodup := by
  refine Runs.invariant (fun t => (keys t).Nodup) (fun t op t' hd hs h => ?_) new_ordered.nodup hs h
  cases op with
  | insert alloc key val =>
    refine insert_nodup h hd fun hk => ?_
    have hs : contains key t = false := hs
    rw [(contains_iff t).mpr hk] at hs
    cases hs
  | remove key =>
    cases h
    exact remove_nodup hd

/-- What `remove` of a key owes its caller: the value found under the key before, the key gone and every other key untouched; and
where it returns nothing, nothing changed. -/
def RemovesEntry (key : K) (t : Slot K T) : Prop :=
  match remove key t with
  | (some v, t') => get key t = some v ∧ get key t' = none ∧ ∀ j, j ≠ key → get j t' = get j t
  | (none, t') => ∀ j, get j t' = get j t

/-- In every state that a run inserting absent keys reaches, `remove` takes out the key's entry, and only it, exactly when the key is
the root's or the search does not meet it. -/
theorem removesEntry_iff (ops : List (Op K T)) (t : Slot K T) (hs : Runs.Along step InsertsAbsent new ops)
    (h : Runs.exec step new ops = .ok t) (key : K) :
    RemovesEntry key t ↔ (searchPath t).head? = some key ∨ key ∉ searchPath t := by
  have hd := nodup_of_insertsAbsent hs h
  have hd' : (keys (remove key t).2).Nodup := remove_nodup hd
  rcases remove_perm key t with ⟨heq, hn⟩ | ⟨p, hret, hp, hm, hroot, hbelow⟩
  · simp [RemovesEntry, heq, hn]
  · have hpk : p.key ∉ keys (remove key t).2 := by
      have : (p.key :: keys (remove key t).2).Nodup := (hp.map Entry.key).nodup_iff.mpr hd
      exact (List.nodup_cons.mp this).1
    rw [RemovesEntry]
    generalize hrem : remove key t = res at hret hp hbelow hpk hd'
    obtain ⟨ret, t'⟩ := res
    simp only at hret hp hbelow hpk hd'
    subst hret
    simp only [hm, not_true_eq_false, or_false]
    by_cases hr : (searchPath t).head? = some key
    · -- at the root the entry taken out is the key's
      obtain rfl := hroot hr
      refine iff_of_true ⟨?_, ?_, fun j hj => ?_⟩ hr
      · exact get_of_mem hd (hp.subset List.mem_cons_self)
      · exact (get_eq_none_iff t').mpr hpk
      · refine get_congr hd' hd fun v => ?_
        rw [← hp.mem_iff, List.mem_cons]
        exact ⟨Or.inr, fun h => h.resolve_left fun he => hj (by rw [← he])⟩
    · -- below the root the key is still stored
      obtain ⟨c, hc, hck⟩ := hbelow hr
      refine iff_of_false (fun hx => ?_) hr
      exact (get_eq_none_iff t').mp hx.2.1 (mem_keys.mpr ⟨c, hc, hck⟩)

/-- The chain 1, 2 and the key at its root. -/
theorem removesEntry_iff_chain :
    RemovesEntry 1 (.node ⟨1, 10⟩ (.node ⟨2, 20⟩ .nil .nil) .nil : Slot ℕ ℕ) ↔
      (searchPath (.node ⟨1, 10⟩ (.node ⟨2, 20⟩ .nil .nil) .nil : Slot ℕ ℕ)).head? = some 1 ∨
        1 ∉ searchPath (.node ⟨1, 10⟩ (.node ⟨2, 20⟩ .nil .nil) .nil : Slot ℕ ℕ) :=
  removesEntry_iff [.insert true 1 10, .insert true 2 20] _ (by decide) rfl 1

/-- In the chain 1, 2 the removal of 2 returns the value of 1, keeps 2 and loses 1. -/
theorem remove_below_root_loses_parent :
    ∃ t t' : Slot ℕ ℕ, Runs.exec step new [.insert true 1 10, .insert true 2 20] = .ok t ∧ remove 2 t = (some 10, t') ∧
      get 2 t = some 20 ∧ get 2 t' = some 20 ∧ get 1 t = some 10 ∧ get 1 t' = none :=
  ⟨_, _, rfl, rfl, rfl, rfl, rfl, rfl⟩

/-! ## Which keys `remove` finds -/

/-- `remove` returns a value exactly at the keys of its search path. -/
theorem remove_isSome_iff (key : K) (t : Slot K T) : (remove key t).1.isSome = true ↔ key ∈ searchPath t := by
  rcases remove_perm key t with ⟨heq, hn⟩ | ⟨p, hret, -, hm, -⟩
  · simp [heq, hn]
  · simp [hret, hm]

/-- In every tree, whatever its shape, `remove` finds a key exactly when `contains` does if and only if a stored key is on the path
that goes to the left child where there is one, and else to the right child. -/
theorem remove_finds_iff (t : Slot K T) (key : K) :
    ((remove key t).1.isSome = true ↔ contains key t = true) ↔ (contains key t = true → key ∈ searchPath t) := by
  rw [remove_isSome_iff, contains_iff]
  exact ⟨fun h => h.mpr, fun h => ⟨fun hk => searchPath_subset t key hk, h⟩⟩

/-- A right child is not found where there is a left one. -/
theorem remove_misses_right_child :
    ∃ t : Slot ℕ ℕ, Runs.exec step new [.insert true 1 10, .insert true 2 20, .insert true 0 30] = .ok t ∧
      contains 0 t = true ∧ (remove 0 t).1 = none :=
  ⟨_, rfl, rfl, rfl⟩

end MiriWeirdness.BinarySearchTree
