import Mathlib.Data.List.Basic

/-!
# Arenas

An arena holds cells, addressed by the order in which they were allocated. A cell is read, changed in place, or allocated after the
last one; no cell is freed.
-/

/-- The cells of an arena, in the order of their allocation. -/
structure Arena (α : Type*) where
  cells : List α
  deriving DecidableEq, Repr

namespace Arena

variable {α : Type*}

/-- An arena without cells. -/
def empty : Arena α := ⟨[]⟩

/-- The number of cells, which is the address of the next one. -/
def size (h : Arena α) : Nat := h.cells.length

/-- The cell at an address. -/
def read (h : Arena α) (p : Nat) : Option α := h.cells[p]?

/-- Arenas with the same cells are the same. -/
theorem ext_read {h h' : Arena α} (hr : ∀ p, h.read p = h'.read p) : h = h' :=
  congrArg Arena.mk (List.ext_getElem? hr)

/-- Change the cell at an address. -/
def modify (h : Arena α) (p : Nat) (f : α → α) : Arena α := ⟨h.cells.modify p f⟩

/-- Allocate a cell; its address is the size before. -/
def alloc (h : Arena α) (a : α) : Arena α := ⟨h.cells ++ [a]⟩

@[simp] theorem size_modify (h : Arena α) (p : Nat) (f : α → α) : (h.modify p f).size = h.size := by
  simp [size, modify]

@[simp] theorem size_alloc (h : Arena α) (a : α) : (h.alloc a).size = h.size + 1 := by
  simp [size, alloc]

/-- The cell that is changed, and the others. -/
theorem read_modify (h : Arena α) (p q : Nat) (f : α → α) :
    (h.modify p f).read q = if q = p then (h.read q).map f else h.read q := by
  by_cases hq : q = p
  · subst hq
    simp [read, modify]
  · simp [read, modify, Ne.symm hq, hq]

/-- The new cell. -/
@[simp] theorem read_alloc_size (h : Arena α) (a : α) : (h.alloc a).read h.size = some a := by
  simp [read, alloc, size]

/-- An allocation leaves the cells there were. -/
theorem read_alloc_of_lt (h : Arena α) (a : α) {p : Nat} (hp : p < h.size) : (h.alloc a).read p = h.read p := by
  simp only [size] at hp
  simp [read, alloc, List.getElem?_append_left hp]

/-- An address that can be read is below the size. -/
theorem lt_size_of_read {h : Arena α} {p : Nat} {a : α} (hr : h.read p = some a) : p < h.size :=
  (List.getElem?_eq_some_iff.mp hr).1

/-! ## The same change of every cell -/

/-- Change every cell. -/
def map (f : α → α) (h : Arena α) : Arena α := ⟨h.cells.map f⟩

@[simp] theorem read_map (f : α → α) (h : Arena α) (p : Nat) : (h.map f).read p = (h.read p).map f := by
  simp [read, map]

/-- A change of every cell that is undone by itself. -/
theorem map_map_of_involutive {f : α → α} (hf : ∀ a, f (f a) = a) (h : Arena α) : (h.map f).map f = h := by
  have hid : f ∘ f = id := funext hf
  simp [map, hid]

/-- Changing every cell after changing one is changing that one otherwise after changing every cell. -/
theorem map_modify {f g g' : α → α} (hfg : ∀ a, f (g a) = g' (f a)) (h : Arena α) (p : Nat) :
    (h.modify p g).map f = (h.map f).modify p g' := by
  obtain ⟨cells⟩ := h
  simp only [map, modify, Arena.mk.injEq]
  refine List.ext_getElem? fun i => ?_
  simp only [List.getElem?_map, List.getElem?_modify]
  cases cells[i]? with
  | none => rfl
  | some a =>
    by_cases hp : p = i
    · simp [hp, hfg]
    · simp [hp]

/-! ## Another view of the cells -/

variable {β : Type*}

/-- The arena of what `f` shows of every cell. -/
def image (f : α → β) (h : Arena α) : Arena β := ⟨h.cells.map f⟩

@[simp] theorem read_image (f : α → β) (h : Arena α) (p : Nat) : (h.image f).read p = (h.read p).map f := by
  simp [read, image]

@[simp] theorem size_image (f : α → β) (h : Arena α) : (h.image f).size = h.size := by
  simp [size, image]

/-- A view that can be undone cell by cell. -/
theorem image_image {f : α → β} {g : β → α} (hfg : ∀ b, f (g b) = b) (h : Arena β) : (h.image g).image f = h := by
  have hid : f ∘ g = id := funext hfg
  simp [image, hid]

/-- A change of a cell, in the view: the change of what is shown of it. -/
theorem image_modify {f : α → β} {g : α → α} {g' : β → β} (hfg : ∀ a, f (g a) = g' (f a)) (h : Arena α) (p : Nat) :
    (h.modify p g).image f = (h.image f).modify p g' := by
  refine ext_read fun q => ?_
  simp only [read_image, read_modify]
  split
  · simp only [Option.map_map, Function.comp_def, hfg]
  · rfl

end Arena
