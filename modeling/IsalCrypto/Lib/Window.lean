import IsalCrypto.Lib.RotXor
import Mathlib.Data.List.GetD

/-!
# Windows of a stream

`window x t w` is the word of the `w` symbols of the stream `x` from position `t` on. Its
rotate-xor hash moves by one position at the cost of one rotation and two table look-ups
(`rotXor_window_succ`). A list is the window of its stream (`window_stream`).
-/

namespace IsalCrypto.Lib

variable {W : ℕ} {α : Type*}

/-- The `w` symbols of `x` from position `t` on, oldest first. -/
def window (x : ℕ → α) (t w : ℕ) : List α :=
  (List.range w).map fun k => x (t + k)

@[simp] theorem length_window (x : ℕ → α) (t w : ℕ) : (window x t w).length = w := by
  simp [window]

theorem window_succ_left (x : ℕ → α) (t w : ℕ) :
    window x t (w + 1) = x t :: window x (t + 1) w := by
  simp only [window, List.range_succ_eq_map, List.map_cons, List.map_map, Nat.add_zero]
  congr 1
  refine List.map_congr_left fun k _ => ?_
  simp only [Function.comp_apply, Nat.succ_eq_add_one]
  congr 1
  omega

theorem window_succ_right (x : ℕ → α) (t w : ℕ) :
    window x t (w + 1) = window x t w ++ [x (t + w)] := by
  simp [window, List.range_succ]

theorem window_add (x : ℕ → α) (t m n : ℕ) :
    window x t (m + n) = window x t m ++ window x (t + m) n := by
  induction n with
  | zero => simp [window]
  | succ n ih =>
    rw [← Nat.add_assoc, window_succ_right, window_succ_right, ih, List.append_assoc,
      Nat.add_assoc]

/-- Two streams that agree on the positions of a window have the same window. -/
theorem window_congr {x y : ℕ → α} {t w : ℕ} (h : ∀ k, t ≤ k → k < t + w → x k = y k) :
    window x t w = window y t w := by
  refine List.map_congr_left fun k hk => h _ (by omega) ?_
  have := List.mem_range.mp hk
  omega

theorem window_eq_window {x y : ℕ → α} {s t w : ℕ} (h : ∀ k < w, x (s + k) = y (t + k)) :
    window x s w = window y t w :=
  List.map_congr_left fun k hk => h k (List.mem_range.mp hk)

theorem window_shift (x : ℕ → α) (s t w : ℕ) :
    window (fun k => x (s + k)) t w = window x (s + t) w :=
  List.map_congr_left fun k _ => by rw [Nat.add_assoc]

theorem getElem_window (x : ℕ → α) (t w k : ℕ) (hk : k < (window x t w).length) :
    (window x t w)[k] = x (t + k) := by
  simp [window]

theorem getD_window (x : ℕ → α) (t w k : ℕ) (d : α) :
    (window x t w).getD k d = if k < w then x (t + k) else d := by
  rw [List.getD_eq_getElem?_getD]
  split
  · next hk =>
    rw [List.getElem?_eq_getElem (by rw [length_window]; exact hk), getElem_window,
      Option.getD_some]
  · next hk =>
    rw [List.getElem?_eq_none (by rw [length_window]; omega), Option.getD_none]

/-- The last `w` symbols of a window of at least `w` symbols. -/
theorem drop_window (x : ℕ → α) (t m w : ℕ) :
    (window x t (m + w)).drop m = window x (t + m) w := by
  rw [window_add]
  exact List.drop_left' (length_window x t m)

theorem rotXor_window_succ (f : α → BitVec W) (x : ℕ → α) (t w : ℕ) :
    rotXor f (window x (t + 1) (w + 1)) =
      (rotXor f (window x t (w + 1))).rotateLeft 1 ^^^
        (f (x (t + (w + 1))) ^^^ (f (x t)).rotateLeft (w + 1)) := by
  rw [window_succ_right, window_succ_left, rotXor_slide, length_window]
  rw [show t + 1 + w = t + (w + 1) by omega]

/-! ## Streams of a list -/

/-- The symbols of `l`, then defaults. -/
def stream [Inhabited α] (l : List α) (k : ℕ) : α := l.getD k default

theorem stream_lt [Inhabited α] {l : List α} {k : ℕ} (h : k < l.length) : stream l k = l[k] :=
  List.getD_eq_getElem l default h

theorem stream_append_left [Inhabited α] {l : List α} (r : List α) {k : ℕ} (h : k < l.length) :
    stream (l ++ r) k = stream l k := by
  rw [stream, stream, List.getD_append _ _ _ _ h]

theorem stream_append_right [Inhabited α] (l r : List α) (k : ℕ) :
    stream (l ++ r) (l.length + k) = stream r k := by
  rw [stream, stream, List.getD_append_right _ _ _ _ (Nat.le_add_right _ _),
    Nat.add_sub_cancel_left]

theorem stream_window [Inhabited α] {x : ℕ → α} {t w k : ℕ} (h : k < w) :
    stream (window x t w) k = x (t + k) := by
  rw [stream_lt (by rwa [length_window]), getElem_window]

/-- A list is the window of its stream. -/
theorem window_stream [Inhabited α] (l : List α) : window (stream l) 0 l.length = l := by
  refine List.ext_getElem (length_window _ _ _) fun k _ hk => ?_
  rw [getElem_window, Nat.zero_add, stream_lt hk]

end IsalCrypto.Lib
