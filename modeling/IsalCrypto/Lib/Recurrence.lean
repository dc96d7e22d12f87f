import IsalCrypto.Lib.Window
import Mathlib.Data.List.GetD

/-!
# Sequences by recurrence

A message schedule is a sequence in which every value comes from the ones before it. `grow` makes
the whole list; an implementation keeps only the last `n` values, in an array that it overwrites in
a circle, so that the value with index `t` goes to slot `t % n` (`RingHolds`).
-/

namespace IsalCrypto.Lib

variable {α : Type*}

/-! ## The whole list -/

/-- `n` more values behind `l`; `g` computes each from the list so far. -/
def grow (g : List α → ℕ → α) (n : ℕ) (l : List α) : List α :=
  (List.range n).foldl (fun W t => W ++ [g W t]) l

variable (g : List α → ℕ → α)

theorem grow_succ (n : ℕ) (l : List α) : grow g (n + 1) l = grow g n l ++ [g (grow g n l) n] := by
  simp [grow, List.range_succ]

@[simp]
theorem length_grow (n : ℕ) (l : List α) : (grow g n l).length = l.length + n := by
  induction n with
  | zero => rfl
  | succ n ih => rw [grow_succ, List.length_append, ih, List.length_singleton, Nat.add_assoc]

/-- A value stays once it is there. -/
theorem getD_grow_add (m n : ℕ) (l : List α) {k : ℕ} (d : α) (hk : k < l.length + n) :
    (grow g (n + m) l).getD k d = (grow g n l).getD k d := by
  induction m with
  | zero => rfl
  | succ m ih =>
    rw [← Nat.add_assoc, grow_succ, List.getD_append _ _ _ _ (by rw [length_grow]; omega), ih]

theorem getD_grow_left (n : ℕ) (l : List α) {k : ℕ} (d : α) (hk : k < l.length) :
    (grow g n l).getD k d = l.getD k d := by
  have h := getD_grow_add g n 0 l d (k := k) (by omega)
  rwa [Nat.zero_add] at h

/-- The value that `g` computed. -/
theorem getD_grow {n t : ℕ} (l : List α) (d : α) (ht : t < n) :
    (grow g n l).getD (l.length + t) d = g (grow g t l) t := by
  obtain ⟨m, rfl⟩ := Nat.exists_eq_add_of_le (Nat.succ_le_of_lt ht)
  have hlen := length_grow g t l
  rw [getD_grow_add g m (t + 1) l d (by omega), grow_succ,
    List.getD_append_right _ _ _ _ (by omega), hlen, Nat.sub_self]
  rfl

/-- The finished list satisfies the recurrence, if `g` reads only what is there before. -/
theorem getD_grow_self {n t : ℕ} (l : List α) (d : α) (ht : t < n)
    (hlocal : ∀ W W' : List α, (∀ k, k < l.length + t → W.getD k d = W'.getD k d) →
      g W t = g W' t) :
    (grow g n l).getD (l.length + t) d = g (grow g n l) t := by
  obtain ⟨m, rfl⟩ := Nat.exists_eq_add_of_lt ht
  refine (getD_grow g l d ht).trans (hlocal _ _ fun k hk => ?_)
  rw [Nat.add_assoc]
  exact (getD_grow_add g (m + 1) t l d hk).symm

/-! ## A ring -/

variable {n : ℕ}

/-- Two different indices among `n` consecutive ones have different slots. -/
theorem mod_ne_of_lt {j t : ℕ} (hj : j < t) (ht : t < j + n) : t % n ≠ j % n := by
  intro h
  have hdvd : n ∣ t - j := (Nat.modEq_iff_dvd' hj.le).mp h.symm
  have hle := Nat.le_of_dvd (by omega) hdvd
  omega

variable [NeZero n]

/-- The slots of `w` hold the last `n` of the values `x 0`, …, `x (t - 1)`. -/
def RingHolds (w : Vector α n) (x : ℕ → α) (t : ℕ) : Prop :=
  ∀ j, j < t → t ≤ j + n → w[Fin.ofNat n j] = x j

theorem RingHolds.zero (w : Vector α n) (x : ℕ → α) : RingHolds w x 0 :=
  fun _ hj => absurd hj (Nat.not_lt_zero _)

theorem RingHolds.set {w : Vector α n} {x : ℕ → α} {t : ℕ} (h : RingHolds w x t) :
    RingHolds (w.set (Fin.ofNat n t) (x t)) x (t + 1) := by
  intro j hj hn
  rcases Nat.lt_succ_iff_lt_or_eq.mp hj with hlt | rfl
  · have hne : t % n ≠ j % n := mod_ne_of_lt hlt (by omega)
    have hkeep : (w.set (Fin.ofNat n t) (x t))[Fin.ofNat n j] = w[Fin.ofNat n j] :=
      Vector.getElem_set_ne (Fin.ofNat n t).isLt (Fin.ofNat n j).isLt hne
    exact hkeep.trans (h j hlt (by omega))
  · exact Vector.getElem_set_self _

end IsalCrypto.Lib
