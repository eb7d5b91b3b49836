import MiriWeirdness.Lemmas.RbRounds

/-!
# The rounds of `recolor_2`

How the loop of `recolor_2` ends, and what its rotations do to the colours.
-/

namespace MiriWeirdness.RbTree

open BinaryTree

variable {K T : Type}

/-- The heap in which `attach` calls `recolor_2`: the new node is linked below `slf`. -/
def attached (t : RbTree K T) (slf : Ptr) (dir : Direction) (key : K) (val : T) : Except Fault (Heap K T) :=
  Heap.update (t.heap.alloc { parent := some slf, left := none, right := none, color := .red, key, val }) slf
    fun n => n.setChild dir t.heap.size

theorem attach_eq (fuel : Nat) (t : RbTree K T) (slf : Ptr) (dir : Direction) (key : K) (val : T) :
    attach fuel t slf dir key val true = (attached t slf dir key val >>= fun h => h.node slf >>= fun n =>
      if n.color = .red then recolor2 fuel { t with heap := h } t.heap.size else .ok { t with heap := h }) :=
  rfl

/-! ## How the loop ends -/

/-- In every tree whose links agree and whose root has no parent, whatever its colours, and for every key that an insert attaches below
one of its nodes: `recolor_2`, and the insert, return or panic with as many rounds as the new node has proper ancestors; and a round that
goes on shortens the chain of parents above `curr`. -/
theorem recolor2_ends [LinearOrder K] {t : RbTree K T} {s : Shape K T} (hr : Represents t s) {key : K} {f : Frame (Label K T)}
    {path : Path K T} (hdesc : descend key s [] = some (f :: path)) (val : T) :
    ∃ h d, attached t f.label.ptr (side f) key val = .ok h ∧ Ancestors h t.heap.size d ∧
      (∀ rounds, d ≤ rounds → Ends (recolor2 rounds { t with heap := h } t.heap.size) ∧
        ∀ slf, t.val = some slf → Ends (insertNode rounds (t.heap.size + 1) t slf key val true)) ∧
      ∀ s', Relation.ReflTransGen Continues (h, t.heap.size) s' →
        ∃ d', Ancestors s'.1 s'.2 d' ∧ ∀ s'', Continues s' s'' → ∃ d'', Ancestors s''.1 s''.2 d'' ∧ d'' < d' := by
  have hplug := plug_of_descend hdesc
  rw [plug_nil] at hplug
  have hf : Focus t.heap (f :: path) .nil := focus_plug_iff.mp (by rw [hplug]; exact hr.heap)
  obtain ⟨h, hupd, -, hf'⟩ := hf.attach key val
  have hatt : attached t f.label.ptr (side f) key val = .ok h := hupd
  have hc := hf'.climbing
  obtain ⟨n, hn, -, hcol, -⟩ := hf'.frame
  refine ⟨h, (f :: path).length, hatt, hc.ancestors, fun rounds hrounds => ?_, fun s' hs' => ?_⟩
  · have hend : Ends (recolor2 rounds { t with heap := h } t.heap.size) := Climbing.recolor2 hc hrounds
    refine ⟨hend, fun slf hslf => ?_⟩
    obtain ⟨f', above, hpath, heq⟩ := insertNode_eq_attach rounds val true hr.heap (hr.val.symm.trans hslf) hdesc
      (Nat.le_succ_of_le hr.heap.numNodes_le)
    cases hpath
    rw [heq, attach_eq, hatt, ok_bind, hn, ok_bind]
    split
    · exact hend
    · exact Or.inl ⟨_, rfl⟩
  · obtain ⟨below', path', hc'⟩ : ∃ below' path', Climbing s'.1 below' s'.2 path' := by
      induction hs' with
      | refl => exact ⟨_, _, hc⟩
      | tail _ hstep ih =>
        obtain ⟨b, q, hcb⟩ := ih
        obtain ⟨b', q', hcb', -⟩ := hcb.continues hstep
        exact ⟨b', q', hcb'⟩
    refine ⟨path'.length, hc'.ancestors, fun s'' hstep => ?_⟩
    obtain ⟨b, q, hcb, hlt⟩ := hc'.continues hstep
    exact ⟨q.length, hcb.ancestors, hlt⟩

/-- The tree of the keys 10, 5, 20 and 3, with the pointers as the addresses of its nodes. -/
def fourKeys : RbTree ℕ ℕ :=
  { val := some 0
    heap := ⟨[⟨none, some 1, some 2, .black, 10, 0⟩, ⟨some 0, some 3, none, .black, 5, 0⟩, ⟨some 0, none, none, .black, 20, 0⟩,
      ⟨some 1, none, none, .red, 3, 0⟩]⟩ }

/-- An insert of 2 rotates right below the root, and leaves a child pointer that is not right. -/
theorem recolor2_ends_four :
    ∃ h d, attached fourKeys 3 .left 2 0 = .ok h ∧ Ancestors h 4 d ∧
      (∀ rounds, d ≤ rounds → Ends (recolor2 rounds { fourKeys with heap := h } 4) ∧
        ∀ slf, fourKeys.val = some slf → Ends (insertNode rounds 5 fourKeys slf 2 0 true)) ∧
      ∀ s', Relation.ReflTransGen Continues (h, 4) s' →
        ∃ d', Ancestors s'.1 s'.2 d' ∧ ∀ s'', Continues s' s'' → ∃ d'', Ancestors s''.1 s''.2 d'' ∧ d'' < d' :=
  recolor2_ends (t := fourKeys)
    (s := .node ⟨0, .black, 10, 0⟩ (.node ⟨1, .black, 5, 0⟩ (.node ⟨3, .red, 3, 0⟩ .nil .nil) .nil) (.node ⟨2, .black, 20, 0⟩ .nil .nil))
    ⟨rfl, trivial, ⟨rfl, ⟨rfl, ⟨rfl, trivial, trivial⟩, trivial⟩, rfl, trivial, trivial⟩, by decide⟩
    (f := .left ⟨3, .red, 3, 0⟩ .nil) rfl 0

/-! ## What a round leaves where the grandparent stood -/

/-- A round of the loop that goes on and whose rotation, if it makes one, keeps the colours. -/
def KeepsOn (s s' : Heap K T × Ptr) : Prop :=
  Continues s s' ∧ ∀ parent gp q, Rotates s.1 s.2 parent gp q → q.keepsColors = true

/-- In the insert of a key, the loop of `recolor_2` gets to the heap and `curr`, by rounds whose rotations keep the colours. -/
def Reaches [LinearOrder K] (t : RbTree K T) (key : K) (val : T) (s : Heap K T × Ptr) : Prop :=
  ∃ f path h, (t.shape.bind fun s => descend key s []) = some (f :: path) ∧ attached t f.label.ptr (side f) key val = .ok h ∧
    Relation.ReflTransGen KeepsOn (h, t.heap.size) s

/-- The loop starts in a tree that is red-black but for the new node. -/
theorem fixing_of_attached {t : RbTree K T} {s : Shape K T} {f : Frame (Label K T)} {path : Path K T} {n : Nat} {key : K} {val : T}
    {h : Heap K T} (hr : Represents t s) (hb : Balanced s n) (hc : rootColor s = .black) (hplug : plug (f :: path) .nil = s)
    (hatt : attached t f.label.ptr (side f) key val = .ok h) : ∃ path' t' m, Fixing h t.heap.size path' t' m := by
  have hf : Focus t.heap (f :: path) .nil := focus_plug_iff.mp (by rw [hplug]; exact hr.heap)
  obtain ⟨h', hupd, -, hf'⟩ := hf.attach key val
  obtain rfl : h' = h := Except.ok.inj (hupd.symm.trans hatt)
  rw [← hplug] at hb hc
  obtain ⟨m, hm, hp, -⟩ := balanced_of_plug hb
  obtain rfl : m = 0 := hm
  exact ⟨_, _, 0, hf', rfl, hp, balanced_red rfl rfl rfl rfl rfl, blackTop_of_rootColor hc⟩

theorem Reaches.fixing [LinearOrder K] {t : RbTree K T} {shape : Shape K T} {n : Nat} {key : K} {val : T} {s : Heap K T × Ptr}
    (hs : Reaches t key val s) (hr : Represents t shape) (hb : Balanced shape n) (hc : rootColor shape = .black) :
    ∃ path t n, Fixing s.1 s.2 path t n := by
  obtain ⟨f, path, h, hdesc, hatt, hloop⟩ := hs
  rw [hr.shape_eq, Option.bind_some] at hdesc
  induction hloop with
  | refl => exact fixing_of_attached hr hb hc (plug_of_descend hdesc) hatt
  | tail _ hstep ih =>
    obtain ⟨path', t', m, hfix⟩ := ih
    exact hfix.continues hstep.1 hstep.2

/-- In a run of inserts of distinct keys, whose allocations may fail: as long as the rotations made so far keep the colours, a round of
`recolor_2` that rotates leaves, where the grandparent stood, a subtree with as many black nodes on every path as before and without a
red node below a red one, if and only if its rotation keeps the colours. -/
theorem rotation_keepsSubtree_iff [LinearOrder K] (ops : List (Bool × K × T)) (hd : (ops.map (·.2.1)).Nodup)
    (hc : Runs.Along allocStep StepKeepsColors new ops) {t : RbTree K T} (ht : Runs.exec allocStep new ops = .ok t) {key : K}
    {val : T} {s : Heap K T × Ptr} (hs : Reaches t key val s) {parent gp : Ptr} {q : Rotation} (hq : Rotates s.1 s.2 parent gp q)
    {h' : Heap K T} {res : Round} (hround : recolorRound s.1 s.2 parent = .ok (h', res)) :
    KeepsSubtree s.1 h' gp ↔ q.keepsColors = true := by
  obtain ⟨shape, kvs, n, hstores, hb, -⟩ := balanced_of_run hd hc ht
  obtain ⟨path, t', m, hfix⟩ := hs.fixing hstores.represents hb hstores.black
  exact hfix.keepsSubtree_iff hq hround

/-- A left rotation at the root, in the insert of the third of three ascending keys. -/
theorem rotation_keepsSubtree_iff_three :
    ∃ t h h' res, Runs.exec allocStep (new : RbTree ℕ ℕ) [(true, 1, 0), (true, 2, 0)] = .ok t ∧ attached t 1 .right 3 0 = .ok h ∧
      recolorRound h 2 1 = .ok (h', res) ∧
        (KeepsSubtree h h' 0 ↔ Rotation.keepsColors { parentDir := .right, childDir := .right, atRoot := true, curr := .red } = true) := by
  refine ⟨_, _, _, _, rfl, rfl, rfl, ?_⟩
  have hs : ∀ t h, Runs.exec allocStep (new : RbTree ℕ ℕ) [(true, 1, 0), (true, 2, 0)] = .ok t → attached t 1 .right 3 0 = .ok h →
      Reaches t 3 0 (h, 2) := by
    intro t h ht hatt
    cases ht
    cases hatt
    exact ⟨_, _, _, rfl, rfl, .refl⟩
  exact rotation_keepsSubtree_iff [(true, 1, 0), (true, 2, 0)] (by decide) (by decide) rfl (hs _ _ rfl rfl)
    ⟨⟨_, rfl, rfl, rfl⟩, ⟨_, rfl, rfl, rfl, rfl⟩, ⟨_, rfl, rfl, rfl, _, rfl, by rintro u m ⟨⟩⟩⟩ rfl

/-- The tree of the keys 5, 6, 1, 2, 0 and 3. -/
def sixKeys : RbTree ℕ ℕ :=
  { val := some 0
    heap := ⟨[⟨none, some 2, some 1, .black, 5, 0⟩, ⟨some 0, none, none, .black, 6, 0⟩, ⟨some 0, some 4, some 3, .red, 1, 0⟩,
      ⟨some 2, none, some 5, .black, 2, 0⟩, ⟨some 2, none, none, .black, 0, 0⟩, ⟨some 3, none, none, .red, 3, 0⟩]⟩ }

/-- A right rotation below the root, in the insert of 2: it leaves red 5 below 10, where black 5 stood. Two rotations of the black node 3,
to which the left rotation in the insert of 4 has led: a path through 2 has one black node less than before. -/
theorem rotation_breaks_subtree :
    (∃ h h' res q, Runs.exec allocStep (new : RbTree ℕ ℕ) ([10, 5, 20, 3].map fun k => (true, k, 0)) = .ok fourKeys ∧
      Reaches fourKeys 2 0 (h, 4) ∧ Rotates h 4 3 1 q ∧ recolorRound h 4 3 = .ok (h', res) ∧ ¬KeepsSubtree h h' 1) ∧
    ∃ h h' res q, Runs.exec allocStep (new : RbTree ℕ ℕ) ([5, 6, 1, 2, 0, 3].map fun k => (true, k, 0)) = .ok sixKeys ∧
      Reaches sixKeys 4 0 (h, 5) ∧ Rotates h 5 2 0 q ∧ recolorRound h 5 2 = .ok (h', res) ∧ ¬KeepsSubtree h h' 0 := by
  constructor
  · have hrun : Runs.exec allocStep (new : RbTree ℕ ℕ) ([10, 5, 20, 3].map fun k => (true, k, 0)) = .ok fourKeys := rfl
    obtain ⟨shape, kvs, n, hstores, hb, -⟩ := balanced_of_run (by decide) (by decide) hrun
    obtain ⟨h, hatt⟩ : ∃ h, attached fourKeys 3 .left 2 0 = .ok h := ⟨_, rfl⟩
    have hreach : Reaches fourKeys 2 0 (h, 4) := ⟨_, _, h, rfl, hatt, .refl⟩
    have hq : Rotates h 4 3 1 { parentDir := .left, childDir := .left, atRoot := false, curr := .red } := by
      cases hatt
      exact ⟨⟨_, rfl, rfl, rfl⟩, ⟨_, rfl, rfl, rfl, rfl⟩, ⟨_, rfl, rfl, rfl, _, rfl, by rintro u m ⟨⟩⟩⟩
    obtain ⟨h', res, hround⟩ : ∃ h' res, recolorRound h 4 3 = .ok (h', res) := by
      cases hatt
      exact ⟨_, _, rfl⟩
    obtain ⟨path, t', m, hfix⟩ := hreach.fixing hstores.represents hb hstores.black
    exact ⟨h, h', res, _, hrun, hreach, hq, hround, fun hk => absurd ((hfix.keepsSubtree_iff hq hround).mp hk) (by decide)⟩
  · have hrun : Runs.exec allocStep (new : RbTree ℕ ℕ) ([5, 6, 1, 2, 0, 3].map fun k => (true, k, 0)) = .ok sixKeys := rfl
    obtain ⟨shape, kvs, n, hstores, hb, -⟩ := balanced_of_run (by decide) (by decide) hrun
    obtain ⟨h₀, hatt⟩ : ∃ h, attached sixKeys 5 .right 4 0 = .ok h := ⟨_, rfl⟩
    -- the first round rotates left around 2
    obtain ⟨h, hfirst⟩ : ∃ h, recolorRound h₀ 6 5 = .ok (h, .next 5) := by
      cases hatt
      exact ⟨_, rfl⟩
    have hstep : KeepsOn (h₀, 6) (h, 5) := by
      cases hatt
      refine ⟨⟨_, _, rfl, rfl, hfirst⟩, ?_⟩
      rintro parent gp ⟨pd, cd, ar, col⟩ ⟨⟨c, hc, hcp, -⟩, ⟨p, hp, hpp, -, hpd⟩, ⟨g, hg, hgd, -, -⟩⟩
      cases hc
      cases hcp
      cases hp
      cases hpp
      cases hpd
      cases hg
      cases hgd
      rfl
    have hreach : Reaches sixKeys 4 0 (h, 5) := ⟨_, _, h₀, rfl, hatt, .single hstep⟩
    have hq : Rotates h 5 2 0 { parentDir := .left, childDir := .right, atRoot := true, curr := .black } := by
      cases hatt
      cases hfirst
      exact ⟨⟨_, rfl, rfl, rfl⟩, ⟨_, rfl, rfl, rfl, rfl⟩, ⟨_, rfl, rfl, rfl, _, rfl, by rintro u m ⟨⟩ ⟨⟩; rfl⟩⟩
    obtain ⟨h', res, hround⟩ : ∃ h' res, recolorRound h 5 2 = .ok (h', res) := by
      cases hatt
      cases hfirst
      exact ⟨_, _, rfl⟩
    obtain ⟨path, t', m, hfix⟩ := hreach.fixing hstores.represents hb hstores.black
    exact ⟨h, h', res, _, hrun, hreach, hq, hround, fun hk => absurd ((hfix.keepsSubtree_iff hq hround).mp hk) (by decide)⟩

end MiriWeirdness.RbTree
