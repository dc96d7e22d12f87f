import IsalCrypto.Lib.Aes
import Mathlib.Algebra.Group.Defs

/-!
# The field of 2^8 elements and the S-box

The multiplication of bytes is commutative and associative, and raising to the power 256 changes
nothing, since squaring is linear. So the power 254 is its own inverse, and the S-box has one
(`invSbox_sbox`, `sbox_invSbox`).
-/

namespace IsalCrypto.Lib.Aes

/-! ## Linear functions -/

/-- Two linear functions that agree on the powers of two are equal. -/
theorem Linear.ext {n : ℕ} {f g : BitVec n → BitVec n} (hf : Linear f) (hg : Linear g)
    (hbit : ∀ i < n, f (BitVec.twoPow n i) = g (BitVec.twoPow n i)) (x : BitVec n) : f x = g x := by
  have hid : Linear fun x : BitVec n => x := fun _ _ => rfl
  have h := ((hf.xor hg).xor hid).eq_self (fun i hi => by
    rw [hbit i hi, BitVec.xor_self, BitVec.zero_xor]) x
  have hzero : f x ^^^ g x ^^^ x = 0#n ^^^ x := h.trans (BitVec.zero_xor).symm
  exact BitVec.xor_eq_zero_iff.mp ((BitVec.xor_left_inj x).mp hzero)

theorem linear_gmul_right (a : BitVec 8) : Linear (gmul a) := by
  have hbit : ∀ (p q : Bool) (s t x : BitVec 8), (if (p ^^ q) then s ^^^ t ^^^ x else s ^^^ t) =
      (if p then s ^^^ x else s) ^^^ if q then t ^^^ x else t := fun p q s t x => by
    cases p with
    | false =>
      cases q with
      | false => rfl
      | true => exact BitVec.xor_assoc ..
    | true =>
      cases q with
      | false =>
        simp only [Bool.xor_false, if_true, Bool.false_eq_true, if_false]
        ac_rfl
      | true =>
        simp only [Bool.xor_self, Bool.false_eq_true, if_false, if_true]
        rw [xor_xor_comm, BitVec.xor_self, BitVec.xor_zero]
  suffices hfold : ∀ (l : List ℕ) (s t b b' : BitVec 8),
      l.foldl (fun s i => if (b ^^^ b').getLsbD i then s ^^^ xtime^[i] a else s) (s ^^^ t) =
        l.foldl (fun s i => if b.getLsbD i then s ^^^ xtime^[i] a else s) s ^^^
          l.foldl (fun s i => if b'.getLsbD i then s ^^^ xtime^[i] a else s) t from
    fun b b' => hfold (List.range 8) 0#8 0#8 b b'
  intro l
  induction l with
  | nil => exact fun _ _ _ _ => rfl
  | cons i l ih =>
    intro s t b b'
    rw [List.foldl_cons, List.foldl_cons, List.foldl_cons, BitVec.getLsbD_xor, hbit, ih]

/-- Two bilinear operations that agree on the powers of two are equal. -/
theorem bilinear_ext {n : ℕ} {f g : BitVec n → BitVec n → BitVec n} (hf : ∀ a, Linear (f a))
    (hf' : ∀ b, Linear fun a => f a b) (hg : ∀ a, Linear (g a)) (hg' : ∀ b, Linear fun a => g a b)
    (hbit : ∀ i < n, ∀ j < n,
      f (BitVec.twoPow n i) (BitVec.twoPow n j) = g (BitVec.twoPow n i) (BitVec.twoPow n j))
    (a b : BitVec n) : f a b = g a b := by
  refine (hf a).ext (hg a) (fun j hj => ?_) b
  exact (hf' _).ext (hg' _) (fun i hi => hbit i hi j hj) a

/-! ## The multiplication -/

theorem gmul_comm (a b : BitVec 8) : gmul a b = gmul b a :=
  bilinear_ext linear_gmul_right linear_gmul (fun a => linear_gmul a) (fun b => linear_gmul_right b)
    (by decide) a b

theorem gmul_one (a : BitVec 8) : gmul a 1#8 = a := (linear_gmul 1#8).eq_self (by decide) a

theorem gmul_xtime (a b : BitVec 8) : gmul a (xtime b) = xtime (gmul a b) :=
  bilinear_ext (fun a => (linear_gmul_right a).comp linear_xtime) (fun b => linear_gmul (xtime b))
    (fun a => linear_xtime.comp (linear_gmul_right a)) (fun b => linear_xtime.comp (linear_gmul b))
    (by decide) a b

theorem gmul_xtime_iterate (a b : BitVec 8) (i : ℕ) :
    gmul a (xtime^[i] b) = xtime^[i] (gmul a b) := by
  induction i with
  | zero => rfl
  | succ i ih => rw [Function.iterate_succ_apply', gmul_xtime, ih, Function.iterate_succ_apply']

theorem twoPow_eq : ∀ i < 8, BitVec.twoPow 8 i = xtime^[i] 1#8 := by decide

theorem gmul_assoc (a b c : BitVec 8) : gmul (gmul a b) c = gmul a (gmul b c) := by
  refine (linear_gmul_right _).ext ((linear_gmul_right a).comp (linear_gmul_right b))
    (fun i hi => ?_) c
  rw [twoPow_eq i hi, gmul_xtime_iterate, gmul_xtime_iterate, gmul_xtime_iterate, gmul_one,
    gmul_one]

/-- A byte as a polynomial. -/
def Gf8 := BitVec 8

instance : CommMonoid Gf8 where
  mul := gmul
  mul_assoc := gmul_assoc
  one := 1#8
  one_mul a := (gmul_comm 1#8 a).trans (gmul_one a)
  mul_one := gmul_one
  mul_comm := gmul_comm

/-! ## Powers -/

theorem linear_square : Linear fun a => gmul a a := fun a b => by
  have hleft : gmul (a ^^^ b) (a ^^^ b) = gmul (a ^^^ b) a ^^^ gmul (a ^^^ b) b :=
    linear_gmul_right _ a b
  have hfirst : gmul (a ^^^ b) a = gmul a a ^^^ gmul b a := linear_gmul a a b
  have hsecond : gmul (a ^^^ b) b = gmul a b ^^^ gmul b b := linear_gmul b a b
  dsimp only
  rw [hleft, hfirst, hsecond, gmul_comm b a, BitVec.xor_assoc, ← BitVec.xor_assoc (gmul a b),
    BitVec.xor_self, BitVec.zero_xor]

theorem square_iterate (a : Gf8) (k : ℕ) : (fun a : Gf8 => a * a)^[k] a = a ^ 2 ^ k := by
  induction k with
  | zero => exact (pow_one a).symm
  | succ k ih => rw [Function.iterate_succ_apply', ih, ← pow_add, pow_succ 2, Nat.mul_two]

/-- Squaring eight times changes nothing. -/
theorem pow_256 (a : Gf8) : a ^ 256 = a := by
  have hlinear : ∀ k, Linear (fun a => gmul a a)^[k] := fun k => by
    induction k with
    | zero => exact fun _ _ => rfl
    | succ k ih => exact ih.comp linear_square
  exact (square_iterate a 8).symm.trans ((hlinear 8).eq_self (by decide) a)

theorem pow_add_255 (a : Gf8) (k : ℕ) : a ^ (255 * k + 1) = a := by
  induction k with
  | zero => exact pow_one a
  | succ k ih =>
    have hsplit : 255 * (k + 1) + 1 = 255 * k + 256 := by omega
    rw [hsplit, pow_add, pow_256, ← pow_succ, ih]

theorem ginv_eq_pow (a : Gf8) : (ginv a : Gf8) = a ^ 254 := by
  suffices hfold : ∀ k, (List.range k).foldl (fun (s : Gf8 × Gf8) _ =>
      let square := s.2 * s.2
      (s.1 * square, square)) ((1 : Gf8), a) = (a ^ (2 ^ (k + 1) - 2), a ^ 2 ^ k) from
    congrArg Prod.fst (hfold 7)
  intro k
  induction k with
  | zero => exact Prod.ext (pow_zero a).symm (pow_one a).symm
  | succ k ih =>
    have hpos : 0 < 2 ^ k := Nat.two_pow_pos k
    have hone : 2 ^ (k + 1) = 2 * 2 ^ k := Nat.pow_succ'
    have htwo : 2 ^ (k + 1 + 1) = 2 * 2 ^ (k + 1) := Nat.pow_succ'
    rw [List.range_succ, List.foldl_append, ih, List.foldl_cons, List.foldl_nil]
    dsimp only
    rw [← pow_add, ← pow_add]
    refine Prod.ext (congrArg (a ^ ·) ?_) (congrArg (a ^ ·) ?_)
    · omega
    · omega

theorem pow_254_pow_254 (a : Gf8) : (a ^ 254) ^ 254 = a :=
  (pow_mul a 254 254).symm.trans (pow_add_255 a 253)

theorem ginv_ginv (a : BitVec 8) : ginv (ginv a) = a :=
  (congrArg ginv (ginv_eq_pow a)).trans ((ginv_eq_pow _).trans (pow_254_pow_254 a))

/-! ## The inverse S-box -/

/-- `INVSBOX`. -/
def invSbox (a : BitVec 8) : BitVec 8 :=
  ginv (a.rotateLeft 1 ^^^ a.rotateLeft 3 ^^^ a.rotateLeft 6 ^^^ 0x05#8)

example : invSbox 0xed#8 = 0x53#8 := by decide

theorem unaffine_affine : ∀ b : BitVec 8,
    let c := b ^^^ b.rotateLeft 1 ^^^ b.rotateLeft 2 ^^^ b.rotateLeft 3 ^^^ b.rotateLeft 4 ^^^
      0x63#8
    c.rotateLeft 1 ^^^ c.rotateLeft 3 ^^^ c.rotateLeft 6 ^^^ 0x05#8 = b := by
  decide

theorem affine_unaffine : ∀ c : BitVec 8,
    let b := c.rotateLeft 1 ^^^ c.rotateLeft 3 ^^^ c.rotateLeft 6 ^^^ 0x05#8
    b ^^^ b.rotateLeft 1 ^^^ b.rotateLeft 2 ^^^ b.rotateLeft 3 ^^^ b.rotateLeft 4 ^^^ 0x63#8 =
      c := by
  decide

theorem invSbox_sbox (a : BitVec 8) : invSbox (sbox a) = a := by
  have h := unaffine_affine (ginv a)
  unfold invSbox sbox
  exact (congrArg ginv h).trans (ginv_ginv a)

theorem sbox_invSbox (a : BitVec 8) : sbox (invSbox a) = a := by
  unfold sbox invSbox
  rw [ginv_ginv]
  exact affine_unaffine a

end IsalCrypto.Lib.Aes
