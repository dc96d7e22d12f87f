import IsalCrypto.Lib.Sizes
import Mathlib.Data.BitVec
import Mathlib.Data.Nat.Init

/-!
# The AES key expansion

FIPS 197 over 32-bit words whose first byte is lowest.

`keyWord_reversed_ne`: no key schedule is another one read backwards with `invMixColumn` on the
inner round keys, the form of a schedule that the equivalent inverse cipher uses. The only property
of the S-box that it needs is that it is a function.
-/

namespace IsalCrypto.Lib.Aes

/-! ## The field of 2^8 elements -/

/-- Multiplication by `x`. -/
def xtime (a : BitVec 8) : BitVec 8 := a <<< 1 ^^^ if a.msb then 0x1b#8 else 0#8

/-- The product, from the bits of the second factor. -/
def gmul (a b : BitVec 8) : BitVec 8 :=
  (List.range 8).foldl (fun s i => if b.getLsbD i then s ^^^ xtime^[i] a else s) 0#8

/-- The inverse, as the power 254; zero goes to zero. -/
def ginv (a : BitVec 8) : BitVec 8 :=
  ((List.range 7).foldl (fun s _ =>
    let square := gmul s.2 s.2
    (gmul s.1 square, square)) (1#8, a)).1

/-! ## The round transformations of the key expansion -/

/-- `SBOX`. -/
def sbox (a : BitVec 8) : BitVec 8 :=
  let b := ginv a
  b ^^^ b.rotateLeft 1 ^^^ b.rotateLeft 2 ^^^ b.rotateLeft 3 ^^^ b.rotateLeft 4 ^^^ 0x63#8

example : sbox 0x53#8 = 0xed#8 := by decide

/-- The byte at an index of a word. -/
def wordByte (w : BitVec 32) (i : ℕ) : BitVec 8 := w.extractLsb' (8 * i) 8

/-- `SUBWORD`. -/
def subWord (w : BitVec 32) : BitVec 32 :=
  sbox (wordByte w 3) ++ sbox (wordByte w 2) ++ sbox (wordByte w 1) ++ sbox (wordByte w 0)

/-- `ROTWORD`. -/
def rotWord (w : BitVec 32) : BitVec 32 := w.rotateRight 8

/-- `Rcon[i]`. -/
def rcon (i : ℕ) : BitVec 32 := (xtime^[i - 1] 1#8).setWidth 32

/-- `INVMIXCOLUMNS` on one column. -/
def invMixColumn (w : BitVec 32) : BitVec 32 :=
  let a := fun i : ℕ => wordByte w (i % 4)
  let b := fun i : ℕ =>
    gmul (a i) 0x0e#8 ^^^ gmul (a (i + 1)) 0x0b#8 ^^^ gmul (a (i + 2)) 0x0d#8 ^^^
    gmul (a (i + 3)) 0x09#8
  b 3 ++ b 2 ++ b 1 ++ b 0

/-- `MIXCOLUMNS` on one column. -/
def mixColumn (w : BitVec 32) : BitVec 32 :=
  let a := fun i : ℕ => wordByte w (i % 4)
  let b := fun i : ℕ => gmul (a i) 0x02#8 ^^^ gmul (a (i + 1)) 0x03#8 ^^^ a (i + 2) ^^^ a (i + 3)
  b 3 ++ b 2 ++ b 1 ++ b 0

example : mixColumn 0x455313db#32 = 0xbca14d8e#32 := by decide

theorem rotWord_append (a b c d : BitVec 8) : rotWord (a ++ b ++ c ++ d) = d ++ a ++ b ++ c := by
  refine BitVec.eq_of_getLsbD_eq fun i hi => ?_
  rw [rotWord, BitVec.getLsbD_rotateRight]
  simp only [BitVec.getLsbD_append]
  grind

theorem wordByte_rotWord {w : BitVec 32} {i : ℕ} (hi : i < 4) :
    wordByte (rotWord w) i = wordByte w ((i + 1) % 4) := by
  refine BitVec.eq_of_getLsbD_eq fun j hj => ?_
  rw [wordByte, wordByte, rotWord, BitVec.getLsbD_extractLsb', BitVec.getLsbD_extractLsb',
    BitVec.getLsbD_rotateRight]
  obtain rfl | rfl | rfl | rfl : i = 0 ∨ i = 1 ∨ i = 2 ∨ i = 3 := by omega
  all_goals grind

/-- The order of the two does not matter. -/
theorem subWord_rotWord (w : BitVec 32) : subWord (rotWord w) = rotWord (subWord w) := by
  rw [subWord, subWord, rotWord_append, wordByte_rotWord (by decide), wordByte_rotWord (by decide),
    wordByte_rotWord (by decide), wordByte_rotWord (by decide)]

/-! ## Linearity -/

/-- `f` respects exclusive or. -/
def Linear {m n : ℕ} (f : BitVec m → BitVec n) : Prop := ∀ a b, f (a ^^^ b) = f a ^^^ f b

theorem Linear.zero {m n : ℕ} {f : BitVec m → BitVec n} (hf : Linear f) : f 0#m = 0#n := by
  have h := hf 0#m 0#m
  rwa [BitVec.xor_self, BitVec.xor_self] at h

/-- A linear function that keeps the powers of two is the identity. -/
theorem Linear.eq_self {n : ℕ} {f : BitVec n → BitVec n} (hf : Linear f)
    (hbit : ∀ i < n, f (BitVec.twoPow n i) = BitVec.twoPow n i) (x : BitVec n) : f x = x := by
  suffices hlow : ∀ m ≤ n, ∀ x : BitVec n, (∀ i, m ≤ i → x.getLsbD i = false) → f x = x from
    hlow n (Nat.le_refl n) x fun i hi => BitVec.getLsbD_of_ge x i hi
  intro m
  induction m with
  | zero =>
    intro _ x hx
    obtain rfl : x = 0#n := BitVec.eq_of_getLsbD_eq fun i _ => by
      rw [hx i (Nat.zero_le i), BitVec.getLsbD_zero]
    exact hf.zero
  | succ m ih =>
    intro hm x hx
    cases hb : x.getLsbD m with
    | false =>
      refine ih (by omega) x fun i hi => ?_
      rcases Nat.lt_or_ge m i with h | h
      · exact hx i h
      · obtain rfl : i = m := Nat.le_antisymm h hi
        exact hb
    | true =>
      -- without its highest bit
      have hrest : f (x ^^^ BitVec.twoPow n m) = x ^^^ BitVec.twoPow n m := by
        refine ih (by omega) _ fun i hi => ?_
        rw [BitVec.getLsbD_xor, BitVec.getLsbD_twoPow]
        rcases Nat.lt_or_ge m i with h | h
        · rw [hx i h, decide_eq_false (Nat.ne_of_lt h), Bool.and_false, Bool.xor_false]
        · obtain rfl : i = m := Nat.le_antisymm h hi
          rw [hb, decide_eq_true (by omega), decide_eq_true rfl, Bool.and_self, Bool.xor_self]
      have hx' : x = x ^^^ BitVec.twoPow n m ^^^ BitVec.twoPow n m := by
        rw [BitVec.xor_assoc, BitVec.xor_self, BitVec.xor_zero]
      rw [hx', hf, hrest, hbit m hm]

/-- Two exclusive ors of linear parts. -/
theorem xor_xor_comm {n : ℕ} (a b c d : BitVec n) :
    a ^^^ b ^^^ (c ^^^ d) = a ^^^ c ^^^ (b ^^^ d) := by
  ac_rfl

theorem Linear.xor {m n : ℕ} {f g : BitVec m → BitVec n} (hf : Linear f) (hg : Linear g) :
    Linear fun a => f a ^^^ g a := fun a b => by
  dsimp only
  rw [hf, hg, xor_xor_comm]

theorem Linear.comp {l m n : ℕ} {g : BitVec m → BitVec n} {f : BitVec l → BitVec m} (hg : Linear g)
    (hf : Linear f) : Linear fun a => g (f a) := fun a b => by
  dsimp only
  rw [hf, hg]

theorem Linear.append {l m n : ℕ} {f : BitVec l → BitVec m} {g : BitVec l → BitVec n}
    (hf : Linear f) (hg : Linear g) : Linear fun a => f a ++ g a := fun a b => by
  dsimp only
  rw [hf, hg, BitVec.xor_append]

theorem linear_wordByte (i : ℕ) : Linear fun w => wordByte w i := fun a b =>
  BitVec.eq_of_getLsbD_eq fun j hj => by
    simp only [wordByte, BitVec.getLsbD_extractLsb', BitVec.getLsbD_xor, hj, decide_true,
      Bool.true_and]

theorem linear_xtime : Linear xtime := fun a b => by
  have hcarry : ∀ p q : Bool, (if (p ^^ q) then 0x1b#8 else 0#8) =
      (if p then 0x1b#8 else 0#8) ^^^ if q then 0x1b#8 else 0#8 := by decide
  rw [xtime, BitVec.msb_xor, BitVec.shiftLeft_xor_distrib, hcarry, xor_xor_comm]
  rfl

theorem linear_xtime_iterate (i : ℕ) : Linear xtime^[i] := by
  induction i with
  | zero => exact fun _ _ => rfl
  | succ i ih =>
    intro a b
    rw [Function.iterate_succ_apply, Function.iterate_succ_apply, Function.iterate_succ_apply,
      linear_xtime, ih]

theorem linear_gmul (b : BitVec 8) : Linear fun a => gmul a b := by
  suffices hfold : ∀ (l : List ℕ) (s t a a' : BitVec 8),
      l.foldl (fun s i => if b.getLsbD i then s ^^^ xtime^[i] (a ^^^ a') else s) (s ^^^ t) =
        l.foldl (fun s i => if b.getLsbD i then s ^^^ xtime^[i] a else s) s ^^^
          l.foldl (fun s i => if b.getLsbD i then s ^^^ xtime^[i] a' else s) t from
    fun a a' => hfold (List.range 8) 0#8 0#8 a a'
  intro l
  induction l with
  | nil => exact fun _ _ _ _ => rfl
  | cons i l ih =>
    intro s t a a'
    rw [List.foldl_cons, List.foldl_cons, List.foldl_cons]
    split
    · rw [linear_xtime_iterate, xor_xor_comm, ih]
    · exact ih s t a a'

theorem linear_invMixColumn : Linear invMixColumn := by
  have hbyte : ∀ i j k l : ℕ, Linear fun w => gmul (wordByte w i) 0x0e#8 ^^^
      gmul (wordByte w j) 0x0b#8 ^^^ gmul (wordByte w k) 0x0d#8 ^^^ gmul (wordByte w l) 0x09#8 :=
    fun i j k l => ((((linear_gmul _).comp (linear_wordByte i)).xor
      ((linear_gmul _).comp (linear_wordByte j))).xor
        ((linear_gmul _).comp (linear_wordByte k))).xor ((linear_gmul _).comp (linear_wordByte l))
  exact (((hbyte 3 0 1 2).append (hbyte 2 3 0 1)).append (hbyte 1 2 3 0)).append (hbyte 0 1 2 3)

theorem linear_mixColumn : Linear mixColumn := by
  have hbyte : ∀ i j k l : ℕ, Linear fun w => gmul (wordByte w i) 0x02#8 ^^^
      gmul (wordByte w j) 0x03#8 ^^^ wordByte w k ^^^ wordByte w l :=
    fun i j k l => ((((linear_gmul _).comp (linear_wordByte i)).xor
      ((linear_gmul _).comp (linear_wordByte j))).xor (linear_wordByte k)).xor (linear_wordByte l)
  exact (((hbyte 3 0 1 2).append (hbyte 2 3 0 1)).append (hbyte 1 2 3 0)).append (hbyte 0 1 2 3)

theorem mixColumn_invMixColumn (w : BitVec 32) : mixColumn (invMixColumn w) = w :=
  (linear_mixColumn.comp linear_invMixColumn).eq_self (by decide +kernel) w

theorem invMixColumn_injective {a b : BitVec 32} (h : invMixColumn a = invMixColumn b) : a = b := by
  rw [← mixColumn_invMixColumn a, h, mixColumn_invMixColumn]

/-! ## The key schedule -/

/-- What `KEYEXPANSION` makes of the word before word `i`, for a key of `nk` words. -/
def keyTemp (nk i : ℕ) (temp : BitVec 32) : BitVec 32 :=
  if i % nk = 0 then subWord (rotWord temp) ^^^ rcon (i / nk)
  else if 6 < nk ∧ i % nk = 4 then subWord temp
  else temp

/-- Word `i` of `KEYEXPANSION`, for a key of `nk` words. -/
def keyWord (nk : ℕ) (key : ℕ → BitVec 32) (i : ℕ) : BitVec 32 :=
  if nk = 0 ∨ i < nk then key i
  else keyWord nk key (i - nk) ^^^ keyTemp nk i (keyWord nk key (i - 1))
termination_by i
decreasing_by all_goals omega

section Schedule

variable {nk m rounds : ℕ} {key key' : ℕ → BitVec 32} {i p q r : ℕ}

theorem keyWord_of_lt (h : i < nk) : keyWord nk key i = key i := by
  rw [keyWord, if_pos (.inr h)]

/-- The word that is `nk` further. -/
theorem keyWord_add (key : ℕ → BitVec 32) (hnk : 0 < nk) (i : ℕ) :
    keyWord nk key (i + nk) =
      keyWord nk key i ^^^ keyTemp nk (i + nk) (keyWord nk key (i + nk - 1)) := by
  rw [keyWord, if_neg (by omega), Nat.add_sub_cancel]

/-- Only the words of the key matter. -/
theorem keyWord_congr (hnk : 0 < nk) (h : ∀ i < nk, key i = key' i) (i : ℕ) :
    keyWord nk key i = keyWord nk key' i := by
  induction i using Nat.strong_induction_on with
  | _ i ih =>
    rcases Nat.lt_or_ge i nk with hi | hi
    · rw [keyWord_of_lt hi, keyWord_of_lt hi, h i hi]
    · obtain ⟨j, rfl⟩ := Nat.exists_eq_add_of_le' hi
      rw [keyWord_add key hnk, keyWord_add key' hnk, ih j (by omega), ih (j + nk - 1) (by omega)]

theorem keyTemp_of_mod (h : i % 4 ≠ 0) (temp : BitVec 32) : keyTemp (4 * m) i temp = temp := by
  have hmod : i % (4 * m) % 4 = i % 4 := Nat.mod_mod_of_dvd i ⟨m, rfl⟩
  rw [keyTemp, if_neg (by omega), if_neg (by omega)]

/-- In a round key the words after the first one are chained to the round key `m` before. -/
theorem keyWord_chain (key : ℕ → BitVec 32) (hm : 0 < m) (hr : r + 1 < 4) (p : ℕ) :
    keyWord (4 * m) key (4 * (p + m) + (r + 1)) =
      keyWord (4 * m) key (4 * p + (r + 1)) ^^^ keyWord (4 * m) key (4 * (p + m) + r) := by
  have hnk : 0 < 4 * m := by omega
  have h := keyWord_add key hnk (4 * p + (r + 1))
  rw [keyTemp_of_mod (by omega)] at h
  rw [show 4 * (p + m) + (r + 1) = 4 * p + (r + 1) + 4 * m by omega, h]
  congr 2
  omega

/-- Its first word goes through the S-box, at every multiple of the key's length. -/
theorem keyWord_first (key : ℕ → BitVec 32) (hm : 0 < m) (p : ℕ) :
    keyWord (4 * m) key (4 * (p * m + m)) =
      keyWord (4 * m) key (4 * (p * m)) ^^^
        (subWord (rotWord (keyWord (4 * m) key (4 * (p * m + m) - 1))) ^^^ rcon (p + 1)) := by
  have hnk : 0 < 4 * m := by omega
  have hi : 4 * (p * m + m) = (p + 1) * (4 * m) := by
    rw [Nat.add_mul, Nat.one_mul, Nat.mul_left_comm]
    omega
  have h := keyWord_add key hnk (4 * (p * m))
  rw [show 4 * (p * m) + 4 * m = 4 * (p * m + m) by omega] at h
  rw [h, keyTemp, hi, Nat.mul_mod_left, if_pos rfl, Nat.mul_div_cancel _ hnk]

/-- The same word of two round keys, from the words after them. -/
theorem eq_of_xor_chain {n : ℕ} {a b c d : BitVec n} (h : a = b ^^^ c) (h' : b = a ^^^ d) :
    c = d := by
  have hself : d = a ^^^ (a ^^^ d) := by rw [← BitVec.xor_assoc, BitVec.xor_self, BitVec.zero_xor]
  rw [hself, ← h', h, BitVec.xor_comm b c, BitVec.xor_assoc, BitVec.xor_self, BitVec.xor_zero]

section Reversed

variable (hm : 0 < m) (hD : ∀ q r, 0 < q → q < rounds → r < 4 →
  keyWord (4 * m) key' (4 * q + r) = invMixColumn (keyWord (4 * m) key (4 * (rounds - q) + r)))

include hm hD

/-- The first three words of a round key are those of the round key `m` before. -/
theorem reversed_const (hp : 0 < p) (hpm : p + m < rounds) (hr : r < 3) :
    keyWord (4 * m) key (4 * (p + m) + r) = keyWord (4 * m) key (4 * p + r) := by
  have hv := keyWord_chain key' hm (show r + 1 < 4 by omega) (rounds - (p + m))
  have hq : rounds - (p + m) + m = rounds - p := by omega
  rw [hq, hD _ (r + 1) (by omega) (by omega) (by omega),
    hD _ (r + 1) (by omega) (by omega) (by omega),
    hD _ r (by omega) (by omega) (by omega), ← linear_invMixColumn] at hv
  have hback : rounds - (rounds - p) = p := by omega
  have hback' : rounds - (rounds - (p + m)) = p + m := by omega
  rw [hback, hback'] at hv
  exact eq_of_xor_chain (keyWord_chain key hm (by omega) p) (invMixColumn_injective hv)

/-- From the second round key `m` further on, the last words repeat. -/
theorem reversed_last (hp : 0 < p) (hpm : p + 2 * m < rounds) :
    keyWord (4 * m) key (4 * (p + 2 * m) + 3) = keyWord (4 * m) key (4 * p + 3) := by
  have hnear := keyWord_chain key hm (show 2 + 1 < 4 by omega) p
  have hfar := keyWord_chain key hm (show 2 + 1 < 4 by omega) (p + m)
  have hconst : keyWord (4 * m) key (4 * (p + m + m) + 2) = keyWord (4 * m) key (4 * (p + m) + 2) :=
    reversed_const hm hD (by omega) (by omega) (by omega)
  rw [hconst, hnear, BitVec.xor_assoc, BitVec.xor_self, BitVec.xor_zero] at hfar
  rw [show p + 2 * m = p + m + m by omega]
  exact hfar

/-- The last word before a multiple of the key's length is then fixed by the round constant. -/
theorem reversed_rcon (hp : 0 < p) (hpm : p * m + m < rounds) :
    subWord (rotWord (keyWord (4 * m) key (4 * (p * m + m) - 1))) = rcon (p + 1) := by
  have hpos : 0 < p * m := Nat.mul_pos hp hm
  have h := keyWord_first key hm p
  have hconst : keyWord (4 * m) key (4 * (p * m + m)) = keyWord (4 * m) key (4 * (p * m)) :=
    reversed_const hm hD hpos hpm (show 0 < 3 by omega)
  rw [hconst] at h
  have hz := (BitVec.xor_right_inj _).mp ((BitVec.xor_zero).trans h)
  exact BitVec.xor_eq_zero_iff.mp hz.symm

end Reversed

/-- No schedule's inner round keys are those of another, read backwards with `invMixColumn`. -/
theorem keyWord_reversed_ne (hm : 0 < m) (hrounds : 4 * m < rounds) (key key' : ℕ → BitVec 32) :
    ¬ ∀ q r, 0 < q → q < rounds → r < 4 →
      keyWord (4 * m) key' (4 * q + r) =
        invMixColumn (keyWord (4 * m) key (4 * (rounds - q) + r)) := by
  intro hD
  have hone := reversed_rcon (p := 1) hm hD (by omega) (by omega)
  have hthree := reversed_rcon (p := 3) hm hD (by omega) (by omega)
  have hlast := reversed_last (p := 2 * m - 1) hm hD (by omega) (by omega)
  rw [show 4 * (1 * m + m) - 1 = 4 * (2 * m - 1) + 3 by omega, ← hlast,
    show 4 * (2 * m - 1 + 2 * m) + 3 = 4 * (3 * m + m) - 1 by omega, hthree] at hone
  exact absurd hone (by decide)

end Schedule

end IsalCrypto.Lib.Aes
