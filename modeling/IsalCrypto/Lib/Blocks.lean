import IsalCrypto.Lib.Sizes
import Mathlib.Data.List.Basic

/-!
# Messages in blocks of 16 bytes

A block is a 128-bit word with its first byte lowest. `block msg q` is block `q` of a message, and
`blocksOf f m` the message of the blocks `f 0` to `f (m - 1)`.
-/

namespace IsalCrypto.Lib

/-! ## Bytes of a number -/

/-- The number with some bytes, the first one lowest. -/
def leNat : List (BitVec 8) → ℕ
  | [] => 0
  | b :: l => b.toNat + 256 * leNat l

/-- The `n` low bytes of a number, the lowest first. -/
def leBytes : ℕ → ℕ → List (BitVec 8)
  | 0, _ => []
  | n + 1, v => BitVec.ofNat 8 v :: leBytes n (v / 256)

@[simp]
theorem length_leBytes (n v : ℕ) : (leBytes n v).length = n := by
  induction n generalizing v with
  | zero => rfl
  | succ n ih => rw [leBytes, List.length_cons, ih]

theorem leNat_lt (l : List (BitVec 8)) : leNat l < 256 ^ l.length := by
  induction l with
  | nil => exact Nat.one_pos
  | cons b l ih =>
    have hb := b.isLt
    rw [leNat, List.length_cons, Nat.pow_succ]
    omega

/-- Zeros at the end do not count. -/
theorem leNat_append_zeros (l : List (BitVec 8)) (n : ℕ) :
    leNat (l ++ List.replicate n 0#8) = leNat l := by
  induction l with
  | nil =>
    induction n with
    | zero => rfl
    | succ n ih =>
      have hcons : leNat (0#8 :: List.replicate n 0#8) = 0 + 256 * leNat (List.replicate n 0#8) :=
        rfl
      rw [List.nil_append] at ih
      rw [List.nil_append, List.replicate_succ, hcons, ih]
      rfl
  | cons b l ih => rw [List.cons_append, leNat, leNat, ih]

theorem leNat_leBytes (n v : ℕ) : leNat (leBytes n v) = v % 256 ^ n := by
  induction n generalizing v with
  | zero => rw [leBytes, leNat, Nat.pow_zero, Nat.mod_one]
  | succ n ih =>
    have hpow : 256 ^ (n + 1) = 256 * 256 ^ n := Nat.pow_succ'
    rw [leBytes, leNat, ih, BitVec.toNat_ofNat, hpow, Nat.mod_mul]

theorem leBytes_leNat (l : List (BitVec 8)) : leBytes l.length (leNat l) = l := by
  induction l with
  | nil => rfl
  | cons b l ih =>
    have hb := b.isLt
    have hhead : BitVec.ofNat 8 (b.toNat + 256 * leNat l) = b := by
      refine BitVec.eq_of_toNat_eq ?_
      rw [BitVec.toNat_ofNat]
      omega
    have htail : (b.toNat + 256 * leNat l) / 256 = leNat l := by omega
    rw [List.length_cons, leBytes, leNat, hhead, htail, ih]

/-! ## Blocks -/

/-- The block of 16 bytes. -/
def ofBytes (l : List (BitVec 8)) : BitVec 128 := BitVec.ofNat 128 (leNat l)

/-- The bytes of a block. -/
def toBytes (v : BitVec 128) : List (BitVec 8) := leBytes 16 v.toNat

@[simp]
theorem length_toBytes (v : BitVec 128) : (toBytes v).length = 16 := length_leBytes 16 _

@[simp]
theorem ofBytes_toBytes (v : BitVec 128) : ofBytes (toBytes v) = v := by
  have hv : v.toNat < 256 ^ 16 := v.isLt
  rw [ofBytes, toBytes, leNat_leBytes, Nat.mod_eq_of_lt hv, BitVec.ofNat_toNat, BitVec.setWidth_eq]

theorem toBytes_ofBytes {l : List (BitVec 8)} (hl : l.length = 16) : toBytes (ofBytes l) = l := by
  have hpow : 256 ^ 16 = 2 ^ 128 := by decide
  have hlt : leNat l < 2 ^ 128 := by
    rw [← hpow, ← hl]
    exact leNat_lt l
  rw [toBytes, ofBytes, BitVec.toNat_ofNat, Nat.mod_eq_of_lt hlt, ← hl, leBytes_leNat]

theorem ofBytes_append_zeros (l : List (BitVec 8)) (n : ℕ) :
    ofBytes (l ++ List.replicate n 0#8) = ofBytes l := by
  rw [ofBytes, leNat_append_zeros, ofBytes]

/-- Block `q` of a message. -/
def block (msg : List (BitVec 8)) (q : ℕ) : BitVec 128 := ofBytes ((msg.drop (16 * q)).take 16)

/-- The message of `m` blocks. -/
def blocksOf (f : ℕ → BitVec 128) (m : ℕ) : List (BitVec 8) :=
  (List.range m).flatMap fun q => toBytes (f q)

section Blocks

variable {f g : ℕ → BitVec 128} {msg a b c : List (BitVec 8)} {m q : ℕ}

theorem blocksOf_succ (f : ℕ → BitVec 128) (m : ℕ) :
    blocksOf f (m + 1) = blocksOf f m ++ toBytes (f m) := by
  rw [blocksOf, List.range_succ, List.flatMap_append, List.flatMap_singleton, blocksOf]

@[simp]
theorem length_blocksOf (f : ℕ → BitVec 128) (m : ℕ) : (blocksOf f m).length = 16 * m := by
  induction m with
  | zero => rfl
  | succ m ih => rw [blocksOf_succ, List.length_append, ih, length_toBytes, Nat.mul_succ]

theorem blocksOf_congr (h : ∀ q < m, f q = g q) : blocksOf f m = blocksOf g m :=
  List.flatMap_congr fun q hq => by rw [h q (List.mem_range.mp hq)]

theorem block_append_left (h : 16 * q + 16 ≤ a.length) : block (a ++ b) q = block a q := by
  rw [block, block, List.drop_append_of_le_length (by omega),
    List.take_append_of_le_length (by rw [List.length_drop]; omega)]

/-- The block that begins where `a` ends. -/
theorem block_append_right (ha : a.length = 16 * q) (hb : b.length = 16) :
    block (a ++ (b ++ c)) q = ofBytes b := by
  rw [block, ← ha, List.drop_left, ← hb, List.take_left]

theorem block_blocksOf (hq : q < m) : block (blocksOf f m) q = f q := by
  induction m with
  | zero => exact absurd hq (Nat.not_lt_zero q)
  | succ m ih =>
    rw [blocksOf_succ]
    rcases Nat.lt_succ_iff_lt_or_eq.mp hq with hlt | rfl
    · rw [block_append_left (by rw [length_blocksOf]; omega), ih hlt]
    · have hright := block_append_right (c := []) (length_blocksOf f q) (length_toBytes (f q))
      rwa [List.append_nil, ofBytes_toBytes] at hright

/-- The first blocks of a message are its first bytes. -/
theorem blocksOf_block (h : 16 * m ≤ msg.length) : blocksOf (block msg) m = msg.take (16 * m) := by
  induction m with
  | zero => rfl
  | succ m ih =>
    have hlen : ((msg.drop (16 * m)).take 16).length = 16 := by
      rw [List.length_take, List.length_drop]
      omega
    rw [blocksOf_succ, ih (by omega), block, toBytes_ofBytes hlen, Nat.mul_succ, List.take_add]

end Blocks

/-! ## The bytes of a block -/

/-- Byte `k`. -/
def byteAt (v : BitVec 128) (k : ℕ) : BitVec 8 := v.extractLsb' (8 * k) 8

/-- The block with its bytes in the opposite order. -/
def byteSwap (v : BitVec 128) : BitVec 128 := ofBytes (toBytes v).reverse

section Bytes

variable {v w : BitVec 128} {k i : ℕ}

theorem getLsbD_byteAt : (byteAt v k).getLsbD i = (decide (i < 8) && v.getLsbD (8 * k + i)) :=
  BitVec.getLsbD_extractLsb' ..

/-- A block is determined by its bytes. -/
theorem eq_of_byteAt_eq (h : ∀ k < 16, byteAt v k = byteAt w k) : v = w := by
  refine BitVec.eq_of_getLsbD_eq fun i hi => ?_
  have hbit := congrArg (BitVec.getLsbD · (i % 8)) (h (i / 8) (by omega))
  simp only [getLsbD_byteAt, Nat.div_add_mod] at hbit
  rwa [decide_eq_true (Nat.mod_lt i (by decide)), Bool.true_and, Bool.true_and] at hbit

@[simp]
theorem byteAt_xor : byteAt (v ^^^ w) k = byteAt v k ^^^ byteAt w k := BitVec.extractLsb'_xor

@[simp]
theorem byteAt_and : byteAt (v &&& w) k = byteAt v k &&& byteAt w k := BitVec.extractLsb'_and

theorem getElem?_leBytes {n : ℕ} (x : ℕ) (hk : k < n) :
    (leBytes n x)[k]? = some (BitVec.ofNat 8 (x / 256 ^ k)) := by
  induction n generalizing x k with
  | zero => exact absurd hk (Nat.not_lt_zero k)
  | succ n ih =>
    cases k with
    | zero => rw [leBytes, List.getElem?_cons_zero, Nat.pow_zero, Nat.div_one]
    | succ k =>
      rw [leBytes, List.getElem?_cons_succ, ih _ (Nat.lt_of_succ_lt_succ hk), Nat.pow_succ',
        Nat.div_div_eq_div_mul]

theorem getElem?_toBytes (hk : k < 16) : (toBytes v)[k]? = some (byteAt v k) := by
  rw [toBytes, getElem?_leBytes _ hk, byteAt]
  congr 1
  refine BitVec.eq_of_toNat_eq ?_
  rw [BitVec.toNat_ofNat, BitVec.extractLsb'_toNat, Nat.shiftRight_eq_div_pow,
    show (256 : ℕ) = 2 ^ 8 from rfl, ← Nat.pow_mul]

theorem getD_toBytes (hk : k < 16) : (toBytes v).getD k 0#8 = byteAt v k := by
  rw [List.getD_eq_getElem?_getD, getElem?_toBytes hk, Option.getD_some]

theorem toBytes_eq_map (v : BitVec 128) : toBytes v = (List.range 16).map (byteAt v) := by
  refine List.ext_getElem? fun k => ?_
  rcases Nat.lt_or_ge k 16 with hk | hk
  · rw [getElem?_toBytes hk, List.getElem?_map, List.getElem?_range hk, Option.map_some]
  · rw [List.getElem?_eq_none (by rw [length_toBytes]; exact hk),
      List.getElem?_eq_none (by rw [List.length_map, List.length_range]; exact hk)]

theorem byteAt_ofBytes {l : List (BitVec 8)} (hl : l.length ≤ 16) :
    byteAt (ofBytes l) k = l.getD k 0#8 := by
  refine BitVec.eq_of_toNat_eq ?_
  have hlt : leNat l < 2 ^ 128 :=
    Nat.lt_of_lt_of_le (leNat_lt l) (Nat.pow_le_pow_right (by decide) hl)
  rw [byteAt, BitVec.extractLsb'_toNat, ofBytes, BitVec.toNat_ofNat, Nat.mod_eq_of_lt hlt,
    Nat.shiftRight_eq_div_pow, Nat.pow_mul]
  clear hlt hl
  induction l generalizing k with
  | nil => rw [leNat, Nat.zero_div]; rfl
  | cons b l ih =>
    have hb := b.isLt
    cases k with
    | zero =>
      rw [leNat, List.getD_cons_zero, Nat.pow_zero, Nat.div_one]
      omega
    | succ k =>
      rw [leNat, List.getD_cons_succ, Nat.pow_succ', ← Nat.div_div_eq_div_mul, ← ih]
      congr 2
      omega

@[simp]
theorem byteAt_zero : byteAt 0#128 k = 0#8 := by
  refine BitVec.eq_of_getLsbD_eq fun i _ => ?_
  rw [getLsbD_byteAt, BitVec.getLsbD_zero, BitVec.getLsbD_zero, Bool.and_false]

theorem byteAt_byteSwap (hk : k < 16) : byteAt (byteSwap v) k = byteAt v (15 - k) := by
  have hlen : (toBytes v).reverse.length = 16 := by rw [List.length_reverse, length_toBytes]
  rw [byteSwap, byteAt_ofBytes (Nat.le_of_eq hlen), List.getD_eq_getElem?_getD,
    List.getElem?_reverse (by rw [length_toBytes]; exact hk), length_toBytes,
    show 16 - 1 - k = 15 - k by omega, getElem?_toBytes (by omega), Option.getD_some]

@[simp]
theorem byteSwap_byteSwap (v : BitVec 128) : byteSwap (byteSwap v) = v :=
  eq_of_byteAt_eq fun k hk => by
    rw [byteAt_byteSwap hk, byteAt_byteSwap (by omega), Nat.sub_sub_self (by omega)]

theorem byteSwap_injective : Function.Injective byteSwap :=
  Function.LeftInverse.injective byteSwap_byteSwap

theorem byteSwap_xor (v w : BitVec 128) : byteSwap (v ^^^ w) = byteSwap v ^^^ byteSwap w :=
  eq_of_byteAt_eq fun k hk => by
    rw [byteAt_byteSwap hk, byteAt_xor, byteAt_xor, byteAt_byteSwap hk, byteAt_byteSwap hk]

@[simp]
theorem byteSwap_zero : byteSwap 0#128 = 0#128 :=
  eq_of_byteAt_eq fun k hk => by rw [byteAt_byteSwap hk, byteAt_zero, byteAt_zero]

end Bytes

end IsalCrypto.Lib
