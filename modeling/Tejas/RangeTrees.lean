import Mathlib.Data.List.Induction

/-!
# Trees searched by ranges

A binary tree whose inner nodes carry a range. Searching for a leaf goes up while the leaf
is outside the range, and else to the side of the middle of the range on which it lies.
Where every range is exactly the interval of the leaves below and splits at its middle,
the search finds every leaf from everywhere.
-/

namespace Tejas

inductive RangeTree where
  | leaf (column : ℕ)
  | switch (range0 range1 : ℕ) (left right : RangeTree)
  deriving DecidableEq, Repr

inductive Side where
  | left
  | right
  deriving DecidableEq, Repr

namespace RangeTree

def leaves : RangeTree → List ℕ
  | leaf c => [c]
  | switch _ _ l r => l.leaves ++ r.leaves

/-- The node at the end of a path from the root. -/
def nodeAt : RangeTree → List Side → Option RangeTree
  | t, [] => some t
  | leaf _, _ :: _ => none
  | switch _ _ l _, .left :: path => l.nodeAt path
  | switch _ _ _ r, .right :: path => r.nodeAt path

/-- Every range is the interval of the leaves below it. -/
def Exact : RangeTree → Prop
  | leaf _ => True
  | switch range0 range1 l r =>
    (∀ c, c ∈ l.leaves ++ r.leaves ↔ range0 ≤ c ∧ c ≤ range1) ∧ l.Exact ∧ r.Exact

/-- The children split every range at its middle. -/
def SplitsInMiddle : RangeTree → Prop
  | leaf _ => True
  | switch range0 range1 l r =>
    ((∀ c ∈ l.leaves, c ≤ (range0 + range1) / 2) ∧ ∀ c ∈ r.leaves, (range0 + range1) / 2 < c) ∧
      l.SplitsInMiddle ∧ r.SplitsInMiddle

/-- The way up. The root has none. -/
def parent (path : List Side) : Option (List Side) :=
  if path = [] then none else some path.dropLast

/-- One hop of the search, given the direction that a switch chooses: `0` is up, `1` right
and `3` left. -/
def searchHop (nextId : ℕ → ℕ → ℕ → ℕ) (t : RangeTree) (d : ℕ) (path : List Side) :
    Option (List Side) :=
  match t.nodeAt path with
  | none => none
  | some (leaf _) => parent path
  | some (switch range0 range1 _ _) =>
    match nextId range0 range1 d with
    | 0 => parent path
    | 1 => some (path ++ [.right])
    | _ => some (path ++ [.left])

/-- The search from a place ends at the leaf. -/
inductive Finds (nextId : ℕ → ℕ → ℕ → ℕ) (t : RangeTree) (d : ℕ) : List Side → Prop
  | here {path : List Side} (h : t.nodeAt path = some (leaf d)) : Finds nextId t d path
  | hop {path next : List Side} (away : t.nodeAt path ≠ some (leaf d))
      (h : t.searchHop nextId d path = some next) (rest : Finds nextId t d next) :
      Finds nextId t d path

variable {t u l r : RangeTree} {path : List Side} {d range0 range1 : ℕ}
  {nextId : ℕ → ℕ → ℕ → ℕ}

@[simp] theorem nodeAt_nil (t : RangeTree) : t.nodeAt [] = some t := by
  cases t <;> rfl

theorem nodeAt_append (path : List Side) (s : Side) (h : t.nodeAt path = some u) :
    t.nodeAt (path ++ [s]) = u.nodeAt [s] := by
  induction path generalizing t with
  | nil =>
    rw [nodeAt_nil] at h
    cases h
    rfl
  | cons a path ih =>
    cases t with
    | leaf c => cases h
    | switch range0 range1 l r =>
      cases a with
      | left => exact ih h
      | right => exact ih h

/-- The node before the last side of a path. -/
theorem nodeAt_dropLast {s : Side} (h : t.nodeAt (path ++ [s]) = some u) :
    ∃ range0 range1 l r, t.nodeAt path = some (switch range0 range1 l r) := by
  cases hbefore : t.nodeAt path with
  | none =>
    exfalso
    have hnone : ∀ (path : List Side) (t : RangeTree), t.nodeAt path = none →
        t.nodeAt (path ++ [s]) = none := by
      intro path
      induction path with
      | nil =>
        intro t h
        rw [nodeAt_nil] at h
        cases h
      | cons a path ih =>
        intro t h
        cases t with
        | leaf c => rfl
        | switch range0 range1 l r =>
          cases a with
          | left => exact ih l h
          | right => exact ih r h
    rw [hnone path t hbefore] at h
    cases h
  | some v =>
    cases v with
    | leaf c =>
      rw [nodeAt_append path s hbefore] at h
      cases h
    | switch range0 range1 l r => exact ⟨range0, range1, l, r, rfl⟩

theorem exact_nodeAt (h : t.Exact) (hu : t.nodeAt path = some u) : u.Exact := by
  induction path generalizing t with
  | nil =>
    rw [nodeAt_nil] at hu
    cases hu
    exact h
  | cons a path ih =>
    cases t with
    | leaf c => cases hu
    | switch range0 range1 l r =>
      obtain ⟨-, hl, hr⟩ := h
      cases a with
      | left => exact ih hl hu
      | right => exact ih hr hu

theorem splitsInMiddle_nodeAt (h : t.SplitsInMiddle) (hu : t.nodeAt path = some u) :
    u.SplitsInMiddle := by
  induction path generalizing t with
  | nil =>
    rw [nodeAt_nil] at hu
    cases hu
    exact h
  | cons a path ih =>
    cases t with
    | leaf c => cases hu
    | switch range0 range1 l r =>
      obtain ⟨-, hl, hr⟩ := h
      cases a with
      | left => exact ih hl hu
      | right => exact ih hr hu

/-- A switch chooses the way up outside its range, and else the side of the middle. -/
structure ChoosesByRange (nextId : ℕ → ℕ → ℕ → ℕ) : Prop where
  outside : ∀ range0 range1 d, ¬ (range0 ≤ d ∧ d ≤ range1) → nextId range0 range1 d = 0
  right : ∀ range0 range1 d, range0 ≤ d → d ≤ range1 → (range0 + range1) / 2 < d →
    nextId range0 range1 d = 1
  left : ∀ range0 range1 d, range0 ≤ d → d ≤ range1 → d ≤ (range0 + range1) / 2 →
    nextId range0 range1 d = 3

/-- Above the leaf the search goes down to it. -/
theorem finds_below (hnext : ChoosesByRange nextId) (hexact : t.Exact)
    (hsplits : t.SplitsInMiddle) (hu : t.nodeAt path = some u) (hd : d ∈ u.leaves) :
    Finds nextId t d path := by
  induction u generalizing path with
  | leaf c =>
    rw [leaves, List.mem_singleton] at hd
    rw [hd]
    exact .here hu
  | switch range0 range1 l r ihl ihr =>
    have haway : t.nodeAt path ≠ some (leaf d) := by
      rw [hu]
      intro heq
      cases heq
    obtain ⟨hrange, -, -⟩ := exact_nodeAt hexact hu
    obtain ⟨⟨hleft, hright⟩, -, -⟩ := splitsInMiddle_nodeAt hsplits hu
    obtain ⟨hlow, hhigh⟩ := (hrange d).mp hd
    rcases List.mem_append.mp hd with hd | hd
    · have hhop : t.searchHop nextId d path = some (path ++ [.left]) := by
        unfold searchHop
        rw [hu]
        dsimp only
        rw [hnext.left _ _ _ hlow hhigh (hleft d hd)]
        rfl
      have hchild : t.nodeAt (path ++ [.left]) = some l := by
        rw [nodeAt_append path .left hu, nodeAt, nodeAt_nil]
      exact .hop haway hhop (ihl hchild hd)
    · have hhop : t.searchHop nextId d path = some (path ++ [.right]) := by
        unfold searchHop
        rw [hu]
        dsimp only
        rw [hnext.right _ _ _ hlow hhigh (hright d hd)]
        rfl
      have hchild : t.nodeAt (path ++ [.right]) = some r := by
        rw [nodeAt_append path .right hu, nodeAt, nodeAt_nil]
      exact .hop haway hhop (ihr hchild hd)

/-- **The search finds every leaf from everywhere.** -/
theorem finds_of_exact (hnext : ChoosesByRange nextId) (hexact : t.Exact)
    (hsplits : t.SplitsInMiddle) (hd : d ∈ t.leaves) (hu : t.nodeAt path = some u) :
    Finds nextId t d path := by
  -- the induction follows the way up, on whose steps the leaf is outside the range
  induction path using List.reverseRecOn generalizing u with
  | nil => exact finds_below hnext hexact hsplits (nodeAt_nil t) hd
  | append_singleton path s ih =>
    by_cases hbelow : d ∈ u.leaves
    · exact finds_below hnext hexact hsplits hu hbelow
    · obtain ⟨range0, range1, l, r, hparent⟩ := nodeAt_dropLast hu
      have hup : parent (path ++ [s]) = some path := by
        unfold parent
        rw [if_neg (by simp), List.dropLast_concat]
      have hhop : t.searchHop nextId d (path ++ [s]) = some path := by
        unfold searchHop
        rw [hu]
        cases u with
        | leaf c => exact hup
        | switch low high l r =>
          have hrange := (exact_nodeAt hexact hu).1
          have houtside : ¬ (low ≤ d ∧ d ≤ high) := fun h => hbelow ((hrange d).mpr h)
          dsimp only
          rw [hnext.outside _ _ _ houtside]
          exact hup
      have haway : t.nodeAt (path ++ [s]) ≠ some (leaf d) := by
        rw [hu]
        intro heq
        cases heq
        exact hbelow (by simp [leaves])
      exact .hop haway hhop (ih hparent)

end RangeTree

end Tejas
