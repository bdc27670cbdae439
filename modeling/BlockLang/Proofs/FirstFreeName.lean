import BlockLang.Proofs.PascalNames

/-!
# The search for a free name

A name is claimed by trying `base`, `base_1`, `base_2` and so on until one of them is free. Nothing
in the search bounds it: it ends because the candidates are pairwise distinct ignoring case, also
where the base itself ends in a number, while the names taken are finitely many. `Tries` is the
search without a bound, and `tries_range` says where it ends. A name claimed after any sequence of
claims is the first free one, found with at most one try more than there are names taken
(`claimsFirst_afterClaims`).
-/

namespace BlockLang.Pascal.Namespace

/-- The candidates that are tried from the `k`-th on, in order, the free one last. There is no such
list if the search goes on for ever. -/
inductive Tries (n : Namespace) (base : String) : Nat → List String → Prop
  | free {k : Nat} (h : n.isFree (candidate base k)) : Tries n base k [candidate base k]
  | taken {k : Nat} {later : List String} (h : ¬n.isFree (candidate base k))
      (rest : Tries n base (k + 1) later) : Tries n base k (candidate base k :: later)

theorem Tries.unique {n : Namespace} {base : String} {k : Nat} {xs ys : List String}
    (hxs : n.Tries base k xs) (hys : n.Tries base k ys) : xs = ys := by
  induction hxs generalizing ys with
  | free h =>
    cases hys with
    | free h' => rfl
    | taken h' rest' => exact absurd h h'
  | taken h rest ih =>
    cases hys with
    | free h' => exact absurd h' h
    | taken h' rest' => rw [ih rest']

/-- The search ends with the first free candidate. -/
theorem tries_range (n : Namespace) (base : String) (k steps : Nat)
    (free : n.isFree (candidate base (k + steps)))
    (taken : ∀ j < steps, ¬n.isFree (candidate base (k + j))) :
    n.Tries base k ((List.range' k (steps + 1)).map (candidate base)) := by
  induction steps generalizing k with
  | zero => exact .free free
  | succ steps ih =>
    have hk : ¬n.isFree (candidate base k) := taken 0 (by omega)
    have hfree : n.isFree (candidate base (k + 1 + steps)) := by
      rwa [Nat.add_right_comm]
    have htaken : ∀ j < steps, ¬n.isFree (candidate base (k + 1 + j)) := by
      intro j hj
      rw [Nat.add_right_comm]
      exact taken (j + 1) (by omega)
    exact .taken hk (ih (k + 1) hfree htaken)

/-- The names taken after claims for these bases, one after another, where none but the reserved
words were taken before. -/
def afterClaims (bases : List String) : Namespace :=
  bases.foldl (fun n base => (n.claim base).2) new

theorem nodup_afterClaims (bases : List String) : (afterClaims bases).taken.Nodup := by
  have hrun : ∀ n : Namespace, n.taken.Nodup →
      (bases.foldl (fun n base => (n.claim base).2) n).taken.Nodup := by
    induction bases with
    | nil => exact fun n h => h
    | cons base bases ih => exact fun n h => ih _ (nodup_claim h base)
  exact hrun new nodup_reserved

/-- A claim for this base hands out the `m`-th candidate as the first free one. -/
structure ClaimsFirst (n : Namespace) (base : String) (m : Nat) : Prop where
  /-- The search ends, and these are the candidates that it tries. -/
  tried : ∀ names, n.Tries base 0 names ↔ names = (List.range (m + 1)).map (candidate base)
  name : (n.claim base).1 = candidate base m
  free : fold (candidate base m) ∉ n.taken
  passed : ∀ k < m, fold (candidate base k) ∈ n.taken
  /-- The name is taken from then on, and so are those that were taken before, but no others. -/
  taken : ∀ word, word ∈ (n.claim base).2.taken ↔ word = fold (candidate base m) ∨ word ∈ n.taken

theorem exists_claimsFirst (n : Namespace) (base : String) :
    ∃ m ≤ n.taken.length, n.ClaimsFirst base m := by
  obtain ⟨m, hle, hname, hfree, hbefore⟩ := n.freeName_eq base
  have htries := n.tries_range base 0 m (by rwa [Nat.zero_add]) (by simpa using hbefore)
  rw [← List.range_eq_range'] at htries
  refine ⟨m, hle, ?_, hname, (n.isFree_iff _).mp hfree, ?_, ?_⟩
  · intro names
    constructor
    · intro h
      exact h.unique htries
    · rintro rfl
      exact htries
  · intro k hk
    have htaken := hbefore k hk
    rwa [isFree_iff, not_not] at htaken
  · intro word
    rw [claim, hname]
    exact List.mem_cons

/-- A claim ends with the first free candidate, whatever has been claimed before. The names taken
are pairwise distinct, and it tries at most one candidate more than there are of them. -/
theorem claimsFirst_afterClaims (bases : List String) (base : String) :
    (afterClaims bases).taken.Nodup ∧
    ∃ m, (afterClaims bases).ClaimsFirst base m ∧ m + 1 ≤ (afterClaims bases).taken.length + 1 := by
  obtain ⟨m, hle, hclaims⟩ := (afterClaims bases).exists_claimsFirst base
  exact ⟨nodup_afterClaims bases, m, hclaims, Nat.succ_le_succ hle⟩

-- The number that a base ends in is part of it: `x_1` is taken by the second claim for `X`.
example : (afterClaims ["x", "X"]).freeName "x_1" = "x_1_1" := by
  decide +kernel

end BlockLang.Pascal.Namespace
