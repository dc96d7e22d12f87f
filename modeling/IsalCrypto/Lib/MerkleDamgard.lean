import IsalCrypto.Lib.Window

/-!
# Iterated hashing of a byte stream

`absorb f B x n t d` applies the compression function `f` to the `n` blocks of `B` symbols that `x`
holds from position `t` on. A Merkle-Damgård hash absorbs the message followed by `mdPadding`.

* `absorb_add`: absorbing is additive in the number of blocks.
* `absorb_congr`: it depends only on the symbols it covers, wherever they stand.
-/

namespace IsalCrypto.Lib

variable {D α : Type*}

/-! ## Absorbing blocks -/

/-- The blocks of `x` at `t`, `t + B`, …, `n` of them, absorbed into `d`. -/
def absorb (f : D → List α → D) (B : ℕ) (x : ℕ → α) : ℕ → ℕ → D → D
  | 0, _, d => d
  | n + 1, t, d => absorb f B x n (t + B) (f d (window x t B))

variable {f : D → List α → D} {B : ℕ}

theorem absorb_zero (x : ℕ → α) (t : ℕ) (d : D) : absorb f B x 0 t d = d := rfl

theorem absorb_one (x : ℕ → α) (t : ℕ) (d : D) : absorb f B x 1 t d = f d (window x t B) := rfl

theorem absorb_add (x : ℕ → α) (m n : ℕ) :
    ∀ (t : ℕ) (d : D), absorb f B x (m + n) t d = absorb f B x n (t + B * m)
      (absorb f B x m t d) := by
  induction m with
  | zero => intro t d; rw [Nat.zero_add]; rfl
  | succ m ih =>
    intro t d
    rw [Nat.succ_add, absorb, ih, absorb, Nat.mul_succ, Nat.add_assoc t B, Nat.add_comm B]

/-- What is absorbed depends only on the symbols of the blocks. -/
theorem absorb_congr {x y : ℕ → α} (n : ℕ) :
    ∀ {t u : ℕ} (d : D), (∀ k, k < B * n → x (t + k) = y (u + k)) →
      absorb f B x n t d = absorb f B y n u d := by
  induction n with
  | zero => intro t u d _; rfl
  | succ n ih =>
    intro t u d h
    rw [Nat.mul_succ] at h
    have hblock : window x t B = window y u B :=
      List.map_congr_left fun k hk => h k (Nat.lt_add_left _ (List.mem_range.mp hk))
    rw [absorb, absorb, hblock]
    refine ih _ fun k hk => ?_
    rw [Nat.add_assoc, Nat.add_assoc]
    exact h (B + k) (by rw [Nat.add_comm (B * n)]; exact Nat.add_lt_add_left hk B)

theorem absorb_shift (x : ℕ → α) (s n t : ℕ) (d : D) :
    absorb f B (fun k => x (s + k)) n t d = absorb f B x n (s + t) d :=
  absorb_congr n d fun k _ => by rw [Nat.add_assoc]

/-- Absorbing as a loop over the numbers of the blocks. -/
theorem absorb_eq_foldl (x : ℕ → α) (n t : ℕ) (d : D) :
    absorb f B x n t d = (List.range n).foldl (fun d i => f d (window x (t + B * i) B)) d := by
  induction n with
  | zero => rfl
  | succ n ih =>
    rw [absorb_add, absorb_one, ih, List.range_succ, List.foldl_append]
    rfl

/-- Two values absorb the same blocks side by side. -/
theorem absorb_prod {E : Type*} {g : E → List α → E} (x : ℕ → α) (n : ℕ) :
    ∀ (t : ℕ) (d : D) (e : E),
      absorb (fun p b => (f p.1 b, g p.2 b)) B x n t (d, e) =
        (absorb f B x n t d, absorb g B x n t e) := by
  induction n with
  | zero => intro t d e; rfl
  | succ n ih => intro t d e; rw [absorb, ih]; rfl

/-- A map that carries one compression function to another carries what they absorb. -/
theorem absorb_map {E : Type*} {g : E → List α → E} {h : D → E} (hfg : ∀ d b, h (f d b) = g (h d) b)
    (x : ℕ → α) (n : ℕ) :
    ∀ (t : ℕ) (d : D), h (absorb f B x n t d) = absorb g B x n t (h d) := by
  induction n with
  | zero => exact fun _ _ => rfl
  | succ n ih => intro t d; rw [absorb, absorb, ih, hfg]

/-- Collecting the symbols of the blocks. -/
theorem absorb_append (x : ℕ → α) (n : ℕ) :
    ∀ (t : ℕ) (d : List α),
      absorb (fun d b => d ++ b) B x n t d = d ++ window x t (B * n) := by
  induction n with
  | zero => intro t d; simp [absorb, window]
  | succ n ih =>
    intro t d
    rw [absorb, ih, List.append_assoc, ← window_add, Nat.mul_succ, Nat.add_comm B]

/-! ## Blocks of blocks -/

/-- Blocks of `k` blocks. -/
theorem absorb_nested [Inhabited α] (x : ℕ → α) (k n : ℕ) :
    ∀ (t : ℕ) (d : D),
      absorb (fun d b => absorb f B (stream b) k 0 d) (B * k) x n t d =
        absorb f B x (k * n) t d := by
  induction n with
  | zero => intro t d; rfl
  | succ n ih =>
    intro t d
    have hblock : absorb f B (stream (window x t (B * k))) k 0 d = absorb f B x k t d :=
      absorb_congr k d fun j hj => by rw [Nat.zero_add, stream_window hj]
    rw [absorb, ih, hblock, Nat.mul_succ, Nat.add_comm (k * n), absorb_add]

/-- Absorbing blocks one behind the other is a fold over them. -/
theorem absorb_flatten [Inhabited α] (bs : List (List α)) :
    (∀ b ∈ bs, b.length = B) → ∀ d : D, absorb f B (stream bs.flatten) bs.length 0 d =
      bs.foldl f d := by
  induction bs with
  | nil => exact fun _ _ => rfl
  | cons b bs ih =>
    intro hlen d
    obtain ⟨hb, hbs⟩ := List.forall_mem_cons.mp hlen
    have hfirst : window (stream (b ++ bs.flatten)) 0 B = b := by
      refine List.ext_getElem (by rw [length_window, hb]) fun k hk hk' => ?_
      rw [getElem_window, Nat.zero_add, stream_append_left _ hk', stream_lt hk']
    have hrest : absorb f B (stream (b ++ bs.flatten)) bs.length (0 + B) (f d b) =
        absorb f B (stream bs.flatten) bs.length 0 (f d b) :=
      absorb_congr _ _ fun k _ => by rw [Nat.zero_add, Nat.zero_add, ← hb, stream_append_right]
    rw [List.flatten_cons, List.length_cons, absorb, hfirst, hrest, List.foldl_cons, ih hbs]

/-! ## Padding -/

/-- The low `8 * n` bits of `v` as `n` bytes, most significant first. -/
def beBytes (n v : ℕ) : List (BitVec 8) :=
  (List.range n).map fun i => BitVec.ofNat 8 (v >>> (8 * (n - 1 - i)))

@[simp] theorem length_beBytes (n v : ℕ) : (beBytes n v).length = n := by simp [beBytes]

/-- The bytes determine the number. -/
theorem beBytes_injective {n u v : ℕ} (hu : u < 2 ^ (8 * n)) (hv : v < 2 ^ (8 * n))
    (h : beBytes n u = beBytes n v) : u = v := by
  refine Nat.eq_of_testBit_eq fun j => ?_
  rcases Nat.lt_or_ge j (8 * n) with hj | hj
  · have hbyte : ∀ w, (beBytes n w).getD (n - 1 - j / 8) 0#8 =
        BitVec.ofNat 8 (w >>> (8 * (j / 8))) := by
      intro w
      rw [List.getD_eq_getElem _ _ (by rw [length_beBytes]; omega)]
      simp only [beBytes, List.getElem_map, List.getElem_range]
      rw [show n - 1 - (n - 1 - j / 8) = j / 8 by omega]
    have hbit : ∀ w, (BitVec.ofNat 8 (w >>> (8 * (j / 8)))).getLsbD (j % 8) = w.testBit j := by
      intro w
      rw [BitVec.getLsbD_ofNat, Nat.testBit_shiftRight, Nat.div_add_mod,
        decide_eq_true (Nat.mod_lt j (by decide)), Bool.true_and]
    rw [← hbit u, ← hbit v, ← hbyte u, ← hbyte v, h]
  · have hpow : 2 ^ (8 * n) ≤ 2 ^ j := Nat.pow_le_pow_right (by decide) hj
    rw [Nat.testBit_lt_two_pow (Nat.lt_of_lt_of_le hu hpow),
      Nat.testBit_lt_two_pow (Nat.lt_of_lt_of_le hv hpow)]

/-- How many zero bytes the padding of a message of `len` bytes has. -/
def mdZeros (B L len : ℕ) : ℕ := (B - (len + 1 + L) % B) % B

/-- The padding of a message of `len` bytes to blocks of `B` bytes: a one bit, zeros, and the length
in bits in `L` bytes. -/
def mdPadding (B L len : ℕ) : List (BitVec 8) :=
  0x80#8 :: (List.replicate (mdZeros B L len) 0#8 ++ beBytes L (8 * len))

/-- The blocks of the padded message of `len` bytes. -/
def mdBlocks (B L len : ℕ) : ℕ := (len + 1 + mdZeros B L len + L) / B

/-- The Merkle-Damgård hash of `m`. -/
def mdHash (f : D → List (BitVec 8) → D) (B L : ℕ) (iv : D) (m : List (BitVec 8)) : D :=
  absorb f B (stream (m ++ mdPadding B L m.length)) (mdBlocks B L m.length) 0 iv

theorem length_mdPadding (B L len : ℕ) :
    (mdPadding B L len).length = 1 + mdZeros B L len + L := by
  simp only [mdPadding, List.length_cons, List.length_append, List.length_replicate, length_beBytes]
  omega

/-- The padding determines the length, as far as its field holds it. -/
theorem mdPadding_injective {B L a b : ℕ} (ha : 8 * a < 2 ^ (8 * L)) (hb : 8 * b < 2 ^ (8 * L))
    (h : mdPadding B L a = mdPadding B L b) : a = b := by
  have htail := (List.append_inj' (List.cons.inj h).2 (by simp)).2
  have heq := beBytes_injective ha hb htail
  omega

/-- The padded length is a whole number of blocks. -/
theorem mdBlocks_mul (B L len : ℕ) (hB : 0 < B) :
    B * mdBlocks B L len = len + 1 + mdZeros B L len + L := by
  refine Nat.mul_div_cancel' (Nat.dvd_of_mod_eq_zero ?_)
  have hmod := Nat.mod_lt (len + 1 + L) hB
  have hsplit : len + 1 + mdZeros B L len + L = len + 1 + L + mdZeros B L len := by omega
  rw [hsplit, mdZeros, Nat.add_mod, Nat.mod_mod]
  rcases Nat.eq_zero_or_pos ((len + 1 + L) % B) with h | h
  · rw [h, Nat.sub_zero, Nat.mod_self, Nat.zero_mod]
  · rw [Nat.mod_eq_of_lt (show B - (len + 1 + L) % B < B by omega),
      show (len + 1 + L) % B + (B - (len + 1 + L) % B) = B by omega, Nat.mod_self]

/-! ### The bytes of the padding -/

theorem stream_mdPadding_zero (B L len : ℕ) : stream (mdPadding B L len) 0 = 0x80#8 := rfl

theorem stream_mdPadding_zeros {B L len k : ℕ} (h0 : 0 < k) (hk : k ≤ mdZeros B L len) :
    stream (mdPadding B L len) k = 0#8 := by
  obtain ⟨j, rfl⟩ : ∃ j, k = 1 + j := ⟨k - 1, by omega⟩
  have hj : j < (List.replicate (mdZeros B L len) 0#8).length := by
    rw [List.length_replicate]
    omega
  rw [mdPadding, ← List.singleton_append, ← List.length_singleton (a := 0x80#8),
    stream_append_right, stream_append_left _ hj, stream_lt hj, List.getElem_replicate]

theorem stream_mdPadding_length {B L len k : ℕ} (hk : k < L) :
    stream (mdPadding B L len) (1 + mdZeros B L len + k) =
      BitVec.ofNat 8 ((8 * len) >>> (8 * (L - 1 - k))) := by
  have hlen : (0x80#8 :: List.replicate (mdZeros B L len) 0#8).length = 1 + mdZeros B L len := by
    rw [List.length_cons, List.length_replicate, Nat.add_comm]
  rw [mdPadding, ← List.cons_append, ← hlen, stream_append_right,
    stream_lt (by rwa [length_beBytes])]
  simp [beBytes]

/-- Every byte of the padding. -/
theorem stream_mdPadding {B L len k : ℕ} (hk : k < 1 + mdZeros B L len + L) :
    stream (mdPadding B L len) k =
      if k = 0 then 0x80#8
      else if k ≤ mdZeros B L len then 0#8
      else BitVec.ofNat 8 ((8 * len) >>> (8 * (L - (k - mdZeros B L len)))) := by
  split
  · next h => rw [h, stream_mdPadding_zero]
  · split
    · next h0 h => exact stream_mdPadding_zeros (Nat.pos_of_ne_zero h0) h
    · next h0 h =>
      obtain ⟨j, rfl⟩ := Nat.exists_eq_add_of_lt (Nat.lt_of_not_le h)
      have hj := @stream_mdPadding_length B L len j (by omega)
      rw [show mdZeros B L len + j + 1 = 1 + mdZeros B L len + j by omega, hj]
      congr 3
      omega

/-- The number of zeros, when the padding fits into the last block of the message and when not. -/
theorem mdZeros_eq {B L len : ℕ} (hL : L < B) :
    mdZeros B L len =
      if len % B + 1 + L ≤ B then B - (len % B + 1 + L) else 2 * B - (len % B + 1 + L) := by
  have hr := Nat.mod_lt len (show 0 < B by omega)
  have hsplit : (len + 1 + L) % B = (len % B + 1 + L) % B := by
    rw [Nat.add_assoc, Nat.add_assoc, Nat.mod_add_mod]
  rw [mdZeros, hsplit]
  split
  · next h =>
    rcases Nat.lt_or_eq_of_le h with h | h
    · rw [Nat.mod_eq_of_lt h, Nat.mod_eq_of_lt (by omega)]
    · rw [h, Nat.mod_self, Nat.sub_zero, Nat.mod_self, Nat.sub_self]
  · next h =>
    have hmod : (len % B + 1 + L) % B = len % B + 1 + L - B := by
      rw [Nat.mod_eq_sub_mod (by omega), Nat.mod_eq_of_lt (by omega)]
    rw [hmod, Nat.mod_eq_of_lt (by omega)]
    omega

theorem mdZeros_mod (B L len : ℕ) : mdZeros B L (len % B) = mdZeros B L len := by
  rw [mdZeros, mdZeros, Nat.add_assoc, Nat.add_assoc, Nat.mod_add_mod]

theorem mdZeros_lt (B L len : ℕ) (hB : 0 < B) : mdZeros B L len < B := Nat.mod_lt _ hB

end IsalCrypto.Lib
