import Mathlib.Data.List.Basic
import Mathlib.Data.Int.Notation
import Mathlib.Logic.Relation

/-!
# Adaptive routing

A routing function offers at every node some hops, and any of them may be taken. A hop
that leads nowhere has no successor. A rank that every hop lowers bounds the number of
hops, and one that every hop lowers by one gives it. A numbering that grows along a
relation makes the relation acyclic.
-/

namespace Tejas.AdaptiveRouting

universe u v

variable {ν : Type u} {δ : Type v}

/-- `hop n a m`: the hop `a` may be taken at `n`, and leads to `m`. -/
abbrev HopRelation (ν : Type u) (δ : Type v) := ν → δ → Option ν → Prop

/-- Some hop may be taken, every hop that may be taken leads somewhere, and only to nodes
with `P`. -/
structure Steps (hop : HopRelation ν δ) (n : ν) (P : ν → Prop) : Prop where
  available : ∃ a o, hop n a o
  wired : ∀ a, ¬ hop n a none
  next : ∀ a m, hop n a (some m) → P m

/-- Whatever hops are taken, the destination is reached after that many hops. -/
inductive ArrivesIn (hop : HopRelation ν δ) (d : ν) : ℕ → ν → Prop
  | here : ArrivesIn hop d 0 d
  | hop {k : ℕ} {n : ν} (away : n ≠ d) (available : ∃ a o, hop n a o)
      (wired : ∀ a, ¬ hop n a none) (next : ∀ a m, hop n a (some m) → ArrivesIn hop d k m) :
      ArrivesIn hop d (k + 1) n

/-- Whatever hops are taken, the destination is reached within that many hops. -/
inductive ArrivesWithin (hop : HopRelation ν δ) (d : ν) : ℕ → ν → Prop
  | here {k : ℕ} : ArrivesWithin hop d k d
  | hop {k : ℕ} {n : ν} (away : n ≠ d) (available : ∃ a o, hop n a o)
      (wired : ∀ a, ¬ hop n a none) (next : ∀ a m, hop n a (some m) → ArrivesWithin hop d k m) :
      ArrivesWithin hop d (k + 1) n

/-- The hops of a route that starts at a node and has not left the destination. -/
inductive Route (hop : HopRelation ν δ) (d : ν) : ν → List δ → ν → Prop
  | nil {n : ν} : Route hop d n [] n
  | cons {n m k : ν} {a : δ} {rest : List δ} (away : n ≠ d) (first : hop n a (some m))
      (tail : Route hop d m rest k) : Route hop d n (a :: rest) k

variable {hop : HopRelation ν δ} {d n m : ν} {a b : δ} {k : ℕ} {legal : ν → Prop}
  {rank : ν → ℕ} {dirs : List δ}

/-- A rank that every hop lowers bounds the number of hops. -/
theorem arrivesWithin_of_rank
    (hsteps : ∀ n, legal n → n ≠ d → Steps hop n (fun m => legal m ∧ rank m < rank n))
    (hn : legal n) (hk : rank n ≤ k) : ArrivesWithin hop d k n := by
  induction k generalizing n with
  | zero =>
    by_cases hd : n = d
    · rw [hd]
      exact .here
    · have hstep := hsteps n hn hd
      obtain ⟨a, o, hao⟩ := hstep.available
      cases o with
      | none => exact absurd hao (hstep.wired a)
      | some m =>
        have hlt := (hstep.next a m hao).2
        omega
  | succ k ih =>
    by_cases hd : n = d
    · rw [hd]
      exact .here
    · have hstep := hsteps n hn hd
      refine .hop hd hstep.available hstep.wired ?_
      intro a m hm
      obtain ⟨hlegal, hlt⟩ := hstep.next a m hm
      exact ih hlegal (by omega)

/-- A rank that every hop lowers by one is the number of hops. -/
theorem arrivesIn_of_rank (legal : ν → Prop) (rank : ν → ℕ)
    (hzero : ∀ n, legal n → rank n = 0 → n = d)
    (hsteps : ∀ n, legal n → n ≠ d → Steps hop n (fun m => legal m ∧ rank m + 1 = rank n))
    (hd : rank d = 0) (hn : legal n) : ArrivesIn hop d (rank n) n := by
  generalize hk : rank n = k
  induction k generalizing n with
  | zero =>
    rw [hzero n hn hk]
    exact .here
  | succ k ih =>
    have haway : n ≠ d := by
      intro heq
      rw [heq, hd] at hk
      cases hk
    have hstep := hsteps n hn haway
    refine .hop haway hstep.available hstep.wired ?_
    intro a m hm
    obtain ⟨hlegal, hrank⟩ := hstep.next a m hm
    exact ih hlegal (by omega)

theorem ArrivesIn.within (h : ArrivesIn hop d k n) : ArrivesWithin hop d k n := by
  induction h with
  | here => exact .here
  | hop away available wired next ih => exact .hop away available wired ih

/-- The destination is reached after one number of hops only. -/
theorem ArrivesIn.unique {k' : ℕ} (h : ArrivesIn hop d k n) (h' : ArrivesIn hop d k' n) :
    k = k' := by
  induction h generalizing k' with
  | here =>
    cases h' with
    | here => rfl
    | hop away available wired next => exact absurd rfl away
  | hop away available wired next ih =>
    cases h' with
    | here => exact absurd rfl away
    | hop away' available' wired' next' =>
      obtain ⟨a, o, hao⟩ := available
      cases o with
      | none => exact absurd hao (wired a)
      | some m => exact congrArg Nat.succ (ih a m hao (next' a m hao))

/-- Legal hops lead a route to legal nodes only. -/
theorem Route.stays_legal (hkept : ∀ n a m, legal n → n ≠ d → hop n a (some m) → legal m)
    (h : Route hop d n dirs m) (hn : legal n) : legal m := by
  induction h with
  | nil => exact hn
  | cons away first tail ih => exact ih (hkept _ _ _ hn away first)

/-- A turn rule: once a hop has been taken that is not early, no early hop is. -/
theorem Route.pairwise (early : δ → Prop) (safe legal : ν → Prop)
    (hleave : ∀ n a m, legal n → n ≠ d → hop n a (some m) → ¬ early a → safe m)
    (hsafe : ∀ n a m, legal n → n ≠ d → safe n → hop n a (some m) → ¬ early a ∧ safe m)
    (hkept : ∀ n a m, legal n → n ≠ d → hop n a (some m) → legal m)
    (h : Route hop d n dirs m) (hn : legal n) : dirs.Pairwise (fun a b => early b → early a) := by
  have hlate : ∀ {n dirs m}, Route hop d n dirs m → legal n → safe n → ∀ b ∈ dirs, ¬ early b := by
    intro n dirs m h
    induction h with
    | nil => exact fun _ _ _ hb => by cases hb
    | cons away first tail ih =>
      intro hn hs b hb
      obtain ⟨hearly, hsafe'⟩ := hsafe _ _ _ hn away hs first
      rcases List.mem_cons.mp hb with rfl | hb
      · exact hearly
      · exact ih (hkept _ _ _ hn away first) hsafe' b hb
  induction h with
  | nil => exact .nil
  | cons away first tail ih =>
    have hlegal := hkept _ _ _ hn away first
    refine .cons ?_ (ih hlegal)
    intro b hb hearly
    by_contra hnot
    exact hlate tail hlegal (hleave _ _ _ hn away first hnot) b hb hearly

/-- Some route takes the second channel right after the first. A channel is a node and the
hop that leaves it. -/
def Depends (hop : ν → HopRelation ν δ) (legal : ν → Prop) (c₁ c₂ : ν × δ) : Prop :=
  ∃ s d dirs, legal s ∧ legal d ∧ Route (hop d) d s dirs c₁.1 ∧ c₁.1 ≠ d ∧
    hop d c₁.1 c₁.2 (some c₂.1) ∧ c₂.1 ≠ d ∧ ∃ m, hop d c₂.1 c₂.2 (some m)

/-- A numbering that grows along a relation leaves it without a cycle. -/
theorem acyclic_of_rank {c : Type v} {r : c → c → Prop} (number : c → ℤ)
    (h : ∀ x y, r x y → number x < number y) (x : c) : ¬ Relation.TransGen r x x := by
  have hgrows : ∀ y, Relation.TransGen r x y → number x < number y := by
    intro y hxy
    induction hxy with
    | single hstep => exact h _ _ hstep
    | tail _ hstep ih => exact Int.lt_trans ih (h _ _ hstep)
  intro hcycle
  exact Int.lt_irrefl _ (hgrows x hcycle)

end Tejas.AdaptiveRouting
