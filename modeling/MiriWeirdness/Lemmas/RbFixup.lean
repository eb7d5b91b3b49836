import MiriWeirdness.Lemmas.RbRotate

/-!
# The fix-up as a function on trees

What `recolor_2` is meant to compute, on the tree itself: `fixup` goes up a path two frames at a time, the parent's and the
grandparent's, as a round of the loop does. `rotations` lists the rotations it makes on the way. The heap follows `fixup` as long as
each of them relinks the node above the grandparent (`Lemmas/RbRecolor`).
-/

namespace MiriWeirdness.RbTree

open BinaryTree

variable {K T : Type}

/-- The colour of the root; a missing node is not red. -/
def rootColor : Shape K T → Color
  | .nil => .black
  | .node a _ _ => a.color

/-- The frame with another colour at the root of its sibling. -/
def paintSibling (c : Color) : Frame (Label K T) → Frame (Label K T)
  | .left a r => .left a (paint c r)
  | .right l a => .right (paint c l) a

@[simp] theorem rootColor_nil : rootColor (.nil : Shape K T) = .black := rfl
@[simp] theorem rootColor_node (a : Label K T) (l r : Shape K T) : rootColor (.node a l r) = a.color := rfl
@[simp] theorem root_fill (f : Frame (Label K T)) (t : Shape K T) : root (f.fill t) = some f.label.ptr := by
  cases f <;> rfl

/-- Painting a node whose child is left out. -/
theorem paint_fill (c : Color) (f : Frame (Label K T)) : ∃ f' : Frame (Label K T), ∀ t, paint c (f.fill t) = f'.fill t := by
  cases f with
  | left a r => exact ⟨.left { a with color := c } r, fun _ => rfl⟩
  | right l a => exact ⟨.right l { a with color := c }, fun _ => rfl⟩

/-! ## The fix-up -/

/-- The tree after the round of a red uncle. -/
def recolored (f g : Frame (Label K T)) (t : Shape K T) : Shape K T :=
  (paintSibling .black g).fill (paint .black (f.fill t))

/-- The tree after a left rotation of the parent `fa`, with the colours of `rotateAndRecolor`. -/
def turnedLeft (ga fa : Label K T) (gl fl t : Shape K T) : Shape K T :=
  .node { fa with color := .black } (.node { ga with color := .red } gl fl) t

/-- The tree after a right rotation of the parent `fa`, with the colours of `rotateAndRecolor`. -/
def turnedRight (ga fa : Label K T) (gr fr t : Shape K T) : Shape K T :=
  .node { fa with color := .black } t (.node { ga with color := .red } fr gr)

/-- The tree after a left and a right rotation of a right child of a left child, with the colours of `rotateAndRecolor`. -/
def turnedTwice (ga fa : Label K T) (gr fl : Shape K T) : Shape K T → Shape K T
  | .nil => .nil
  | .node x l r =>
    .node { x with color := .black } (.node { fa with color := .red } fl l) (.node { ga with color := .red } r gr)

/-- The tree after the loop of `recolor_2`, started at the root of the subtree. Two rotations of a left child of a right child always
end in a failed assertion, and two rotations of the other kind end the loop at the root. -/
def fixup : Path K T → Shape K T → Shape K T
  | [], t => t
  | [f], t => f.fill t
  | f :: g :: path, t =>
    if f.label.color = .black then plug (f :: g :: path) t
    else if rootColor g.sibling = .red then
      if path.isEmpty then recolored f g t else fixup path (paint .red (recolored f g t))
    else
      match g, f with
      | .right gl ga, .right fl fa => fixup path (turnedLeft ga fa gl fl t)
      | .left ga gr, .left fa fr => fixup path (turnedRight ga fa gr fr t)
      | .left ga gr, .right fl fa => plug path (turnedTwice ga fa gr fl t)
      | .right gl ga, .left fa fr => plug path (.node ga gl (.node fa t fr))

/-- Below a black parent nothing is done. -/
theorem fixup_of_black {f : Frame (Label K T)} (path : Path K T) (t : Shape K T) (hf : f.label.color = .black) :
    fixup (f :: path) t = plug (f :: path) t := by
  cases path with
  | nil => rfl
  | cons g path => cases f <;> cases g <;> rw [fixup, if_pos hf]

/-- A rotation of the loop: the sides that the parent and `curr` are on, whether the grandparent is the root, and the colour of
`curr`. -/
structure Rotation where
  parentDir : Direction
  childDir : Direction
  atRoot : Bool
  curr : Color
  deriving DecidableEq, Repr

/-- The rotations that the loop makes from below a path, with `curr` of the given colour; above a right-left pair, in which it panics, those
that would follow. -/
def rotations : Color → Path K T → List Rotation
  | curr, f :: g :: path =>
    if f.label.color = .black then []
    else if rootColor g.sibling = .red then rotations .red path
    else
      { parentDir := side g, childDir := side f, atRoot := path.isEmpty, curr } ::
        if side g = side f then rotations .black path
        else
          match path with
          | [] => []
          | k :: path => rotations k.label.color path
  | _, _ => []

theorem rotations_black (curr : Color) {f : Frame (Label K T)} (path : Path K T) (hf : f.label.color = .black) :
    rotations curr (f :: path) = [] := by
  rcases path with _ | ⟨g, _ | ⟨k, path⟩⟩ <;> simp [rotations, hf]

/-- A round of a red uncle has no rotation, and the fix-up goes on above. -/
theorem rotations_red (curr : Color) {f g : Frame (Label K T)} (path : Path K T) (hf : f.label.color ≠ .black)
    (hg : rootColor g.sibling = .red) : rotations curr (f :: g :: path) = rotations .red path := by
  cases path <;> simp [rotations, hf, hg]

/-- A round of an uncle that is not red has a rotation. -/
theorem rotations_rotate (curr : Color) {f g : Frame (Label K T)} (path : Path K T) (hf : f.label.color ≠ .black)
    (hg : rootColor g.sibling ≠ .red) :
    ({ parentDir := side g, childDir := side f, atRoot := path.isEmpty, curr } : Rotation) ∈ rotations curr (f :: g :: path) := by
  cases path <;> simp [rotations, hf, hg]

/-- After a rotation of one direction the fix-up goes on above, with a black node. -/
theorem rotations_single (curr : Color) {f g : Frame (Label K T)} (path : Path K T) (hf : f.label.color ≠ .black)
    (hg : rootColor g.sibling ≠ .red) (hs : side g = side f) :
    rotations curr (f :: g :: path) =
      [{ parentDir := side g, childDir := side f, atRoot := path.isEmpty, curr }] ++ rotations .black path := by
  cases path with
  | nil => simp [rotations, hf, hg, hs]
  | cons k path => simp [rotations, hf, hg, hs]

/-- Two rotations at the root are the last. -/
theorem rotations_double (curr : Color) {f g : Frame (Label K T)} (hf : f.label.color ≠ .black) (hg : rootColor g.sibling ≠ .red)
    (hs : side g ≠ side f) :
    rotations curr [f, g] = [{ parentDir := side g, childDir := side f, atRoot := true, curr }] := by
  simp [rotations, hf, hg, hs]

/-- The rotation leaves the child pointer above the grandparent right: a left rotation writes it, and where there is none a right
rotation need not. -/
def Rotation.relinks (r : Rotation) : Bool :=
  match r.parentDir, r.childDir with
  | .right, .right => true
  | .right, .left => false
  | .left, _ => r.atRoot

/-- The rotation leaves a red-black tree: two rotations do so only of a red node. -/
def Rotation.keepsColors (r : Rotation) : Bool :=
  r.relinks && (r.parentDir = r.childDir || r.curr = .red)

/-- The second of two rotations fails its assertion. -/
def Rotation.asserts (r : Rotation) : Bool :=
  r.parentDir = .right && r.childDir = .left

/-- The last frame of a path, the root's, is black. -/
def BlackTop : Path K T → Prop
  | [] => True
  | [f] => f.label.color = .black
  | _ :: g :: path => BlackTop (g :: path)

theorem BlackTop.tail {f : Frame (Label K T)} {path : Path K T} (h : BlackTop (f :: path)) : BlackTop path := by
  cases path with
  | nil => trivial
  | cons g path => exact h

/-- The root of a tree seen from below a path is that of its last frame, whatever the subtree. -/
theorem root_plug {path : Path K T} (hp : path ≠ []) (t t' : Shape K T) : root (plug path t) = root (plug path t') := by
  induction path generalizing t t' with
  | nil => exact absurd rfl hp
  | cons f path ih =>
    cases path with
    | nil => simp
    | cons g path => exact ih (List.cons_ne_nil _ _) _ _

theorem rootColor_plug {f : Frame (Label K T)} {path : Path K T} (t : Shape K T) (h : BlackTop (f :: path)) :
    rootColor (plug (f :: path) t) = .black := by
  induction path generalizing f t with
  | nil => cases f <;> exact h
  | cons g path ih => exact ih _ h

/-- The nodes above a subtree of a tree with a black root. -/
theorem blackTop_of_rootColor {path : Path K T} {t : Shape K T} (h : rootColor (plug path t) = .black) : BlackTop path := by
  induction path generalizing t with
  | nil => trivial
  | cons f path ih =>
    cases path with
    | nil => cases f <;> exact h
    | cons g path => exact ih h

theorem paint_of_rootColor {c : Color} {t : Shape K T} (h : rootColor t = c) : paint c t = t := by
  cases t with
  | nil => rfl
  | node a l r =>
    cases h
    rfl

/-! ## What a fix-up leaves as it was -/

/-- The key and the value of a node. -/
def Label.entry (a : Label K T) : K × T := (a.key, a.val)

/-- The entries of a tree, in order. -/
def entries (t : Shape K T) : List (K × T) := t.inorder.map Label.entry

@[simp] theorem entries_nil : entries (.nil : Shape K T) = [] := rfl

@[simp] theorem entries_node (a : Label K T) (l r : Shape K T) : entries (.node a l r) = entries l ++ a.entry :: entries r := by
  simp [entries]

@[simp] theorem entries_paint (c : Color) (t : Shape K T) : entries (paint c t) = entries t := by
  cases t <;> simp [paint, Label.entry]

theorem entries_plug (path : Path K T) (t : Shape K T) :
    entries (plug path t) = (before path).map Label.entry ++ entries t ++ (after path).map Label.entry := by
  simp [entries, inorder_plug]

theorem entries_plug_congr {path : Path K T} {t t' : Shape K T} (h : entries t = entries t') :
    entries (plug path t) = entries (plug path t') := by
  simp [entries_plug, h]

theorem entries_recolored (f g : Frame (Label K T)) (t : Shape K T) : entries (recolored f g t) = entries (g.fill (f.fill t)) := by
  cases g <;> simp [recolored, paintSibling, Frame.fill]

theorem entries_turnedLeft (ga fa : Label K T) (gl fl t : Shape K T) :
    entries (turnedLeft ga fa gl fl t) = entries (.node ga gl (.node fa fl t)) := by
  simp [turnedLeft, Label.entry]

theorem entries_turnedRight (ga fa : Label K T) (gr fr t : Shape K T) :
    entries (turnedRight ga fa gr fr t) = entries (.node ga (.node fa t fr) gr) := by
  simp [turnedRight, Label.entry]

theorem entries_turnedTwice (ga fa : Label K T) (gr fl : Shape K T) {t : Shape K T} (ht : t.isNil = false) :
    entries (turnedTwice ga fa gr fl t) = entries (.node ga (.node fa fl t) gr) := by
  cases t with
  | nil => cases ht
  | node x l r => simp [turnedTwice, Label.entry]

/-- A fix-up keeps the entries and their order. -/
theorem entries_fixup (path : Path K T) (t : Shape K T) (ht : t.isNil = false) : entries (fixup path t) = entries (plug path t) := by
  induction path, t using fixup.induct with
  | case1 t => rfl
  | case2 t f => rfl
  | case3 f g path t hf => simp [fixup, hf]
  | case4 f g path t hf hg hp =>
    obtain rfl := List.isEmpty_iff.mp hp
    simp [fixup, hf, hg, entries_recolored]
  | case5 f g path t hf hg hp ih =>
    simp only [fixup, hf, hg, hp, if_false, if_true, Bool.false_eq_true]
    rw [ih (by cases g <;> rfl)]
    exact entries_plug_congr (by rw [entries_paint, entries_recolored])
  | case6 path t gl ga fl fa hf hg ih =>
    simp only [fixup, hf, hg, if_false]
    rw [ih rfl]
    exact entries_plug_congr (entries_turnedLeft ga fa gl fl t)
  | case7 path t ga gr fa fr hf hg ih =>
    simp only [fixup, hf, hg, if_false]
    rw [ih rfl]
    exact entries_plug_congr (entries_turnedRight ga fa gr fr t)
  | case8 path t ga gr fl fa hf hg =>
    simp only [fixup, hf, hg, if_false]
    exact entries_plug_congr (entries_turnedTwice ga fa gr fl ht)
  | case9 path t gl ga fa fr hf hg =>
    simp only [fixup, hf, hg, if_false]
    rfl

end MiriWeirdness.RbTree
