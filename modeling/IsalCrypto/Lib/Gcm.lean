import IsalCrypto.Lib.Blocks
import IsalCrypto.Lib.Gf128
import IsalCrypto.Lib.Window

/-!
# GCM

The Galois counter mode of NIST SP 800-38D for a 96-bit IV over any block function `aes`. The bit
strings of the standard are numbers with the first bit highest; `aes` works on blocks as they lie in
memory, so `byteSwap` stands between the two.

The second part is about streams, functions from positions to bytes: `ghashAt` is the hash of the
first `n` bytes of a stream before the multiplication for a last partial block, and
`ghash_window_pad16` relates it to the hash of the padded message.
-/

namespace IsalCrypto.Lib

/-! ## The standard -/

/-- `inc32`: the last 32 bits of a counter block are incremented. -/
def inc32 (x : BitVec 128) : BitVec 128 := x.extractLsb' 32 96 ++ (x.extractLsb' 0 32 + 1#32)

/-- Byte `i` of the key stream of `GCTR` with the initial counter block `icb`. -/
def keyStream (aes : BitVec 128 → BitVec 128) (icb : BitVec 128) (i : ℕ) : BitVec 8 :=
  byteAt (aes (byteSwap (inc32^[i / 16] icb))) (i % 16)

/-- `GCTR`. -/
def gctr (aes : BitVec 128 → BitVec 128) (icb : BitVec 128) (msg : List (BitVec 8)) :
    List (BitVec 8) :=
  msg.mapIdx fun i b => b ^^^ keyStream aes icb i

/-- `Y` after `m` blocks of a message, from the value `y` on. -/
def ghashFrom (h y : BitVec 128) (f : ℕ → BitVec 128) : ℕ → BitVec 128
  | 0 => y
  | m + 1 => gfMul (ghashFrom h y f m ^^^ f m) h

/-- `GHASH` of a message whose length is a multiple of 16. -/
def ghash (h : BitVec 128) (msg : List (BitVec 8)) : BitVec 128 :=
  ghashFrom h 0#128 (fun q => byteSwap (block msg q)) (msg.length / 16)

/-- Zeros up to the next multiple of 16. -/
def pad16 (msg : List (BitVec 8)) : List (BitVec 8) :=
  msg ++ List.replicate ((16 - msg.length % 16) % 16) 0#8

/-- `[n]_64`. -/
def be64 (n : ℕ) : List (BitVec 8) := (leBytes 8 n).reverse

/-- The block `J_0` of a 96-bit IV. -/
def counter0 (iv : List (BitVec 8)) : BitVec 128 :=
  byteSwap (ofBytes (iv ++ [0#8, 0#8, 0#8, 1#8]))

/-- The tag of `t` bytes. -/
def gcmTag (aes : BitVec 128 → BitVec 128) (iv aad c : List (BitVec 8)) (t : ℕ) :
    List (BitVec 8) :=
  let h := byteSwap (aes 0#128)
  let s := ghash h (pad16 aad ++ pad16 c ++ (be64 (8 * aad.length) ++ be64 (8 * c.length)))
  (gctr aes (counter0 iv) (toBytes (byteSwap s))).take t

/-- Authenticated encryption: the ciphertext and the tag. -/
def gcmEncrypt (aes : BitVec 128 → BitVec 128) (iv aad p : List (BitVec 8)) (t : ℕ) :
    List (BitVec 8) × List (BitVec 8) :=
  let c := gctr aes (inc32 (counter0 iv)) p
  (c, gcmTag aes iv aad c t)

/-! ## Counters and key streams -/

section KeyStream

variable {aes : BitVec 128 → BitVec 128} {icb x : BitVec 128}

theorem iterate_inc32 (x : BitVec 128) (n : ℕ) :
    inc32^[n] x = x.extractLsb' 32 96 ++ (x.extractLsb' 0 32 + BitVec.ofNat 32 n) := by
  induction n with
  | zero =>
    rw [Function.iterate_zero_apply, BitVec.add_zero]
    refine BitVec.eq_of_getLsbD_eq fun i hi => ?_
    rw [BitVec.getLsbD_append, BitVec.getLsbD_extractLsb', BitVec.getLsbD_extractLsb']
    grind
  | succ n ih =>
    rw [Function.iterate_succ_apply', ih, inc32, BitVec.extractLsb'_append_eq_left,
      BitVec.extractLsb'_append_eq_right, BitVec.add_assoc, BitVec.ofNat_add]

/-- The counter comes back after `2^32` steps and not before. -/
theorem iterate_inc32_eq_iff {n n' : ℕ} :
    inc32^[n] x = inc32^[n'] x ↔ n % 2 ^ 32 = n' % 2 ^ 32 := by
  rw [iterate_inc32, iterate_inc32]
  constructor
  · intro h
    have hlow := congrArg (BitVec.extractLsb' 0 32) h
    rw [BitVec.extractLsb'_append_eq_right, BitVec.extractLsb'_append_eq_right,
      BitVec.add_right_inj] at hlow
    have hnat := congrArg BitVec.toNat hlow
    rwa [BitVec.toNat_ofNat, BitVec.toNat_ofNat] at hnat
  · intro h
    have hnat : BitVec.ofNat 32 n = BitVec.ofNat 32 n' :=
      BitVec.eq_of_toNat_eq (by rwa [BitVec.toNat_ofNat, BitVec.toNat_ofNat])
    rw [hnat]

/-- The bytes of block `q` of the key stream. -/
theorem keyStream_block {q k : ℕ} (hk : k < 16) :
    keyStream aes icb (16 * q + k) = byteAt (aes (byteSwap (inc32^[q] icb))) k := by
  rw [keyStream, show (16 * q + k) / 16 = q by omega, show (16 * q + k) % 16 = k by omega]

/-- `GCTR` on a stream. -/
def gctrAt (aes : BitVec 128 → BitVec 128) (icb : BitVec 128) (m : ℕ → BitVec 8) (i : ℕ) :
    BitVec 8 :=
  m i ^^^ keyStream aes icb i

/-- `GCTR` undoes itself. -/
theorem gctrAt_gctrAt (aes : BitVec 128 → BitVec 128) (icb : BitVec 128) (m : ℕ → BitVec 8) :
    gctrAt aes icb (gctrAt aes icb m) = m := by
  funext i
  rw [gctrAt, gctrAt, BitVec.xor_assoc, BitVec.xor_self, BitVec.xor_zero]

theorem gctr_window (m : ℕ → BitVec 8) (n : ℕ) :
    gctr aes icb (window m 0 n) = window (gctrAt aes icb m) 0 n := by
  refine List.ext_getElem (by rw [gctr, List.length_mapIdx, length_window, length_window]) ?_
  intro i hi hi'
  simp only [gctr, List.getElem_mapIdx, getElem_window, Nat.zero_add, gctrAt]

end KeyStream

/-! ## The hash -/

section Hash

variable {h y : BitVec 128} {f g : ℕ → BitVec 128} {m n : ℕ}

theorem ghashFrom_congr (hfg : ∀ q < m, f q = g q) : ghashFrom h y f m = ghashFrom h y g m := by
  induction m with
  | zero => rfl
  | succ m ih =>
    rw [ghashFrom, ghashFrom, ih fun q hq => hfg q (Nat.lt_succ_of_lt hq), hfg m m.lt_succ_self]

theorem ghashFrom_add (h y : BitVec 128) (f : ℕ → BitVec 128) (m n : ℕ) :
    ghashFrom h y f (m + n) = ghashFrom h (ghashFrom h y f m) (fun q => f (m + q)) n := by
  induction n with
  | zero => rfl
  | succ n ih => rw [← Nat.add_assoc, ghashFrom, ih, ghashFrom]

/-- The last block is added and not multiplied. -/
def ghashDeferred (h y : BitVec 128) (f : ℕ → BitVec 128) (m : ℕ) : BitVec 128 :=
  ghashFrom h y f m ^^^ f m

theorem ghashFrom_succ_eq (h y : BitVec 128) (f : ℕ → BitVec 128) (m : ℕ) :
    ghashFrom h y f (m + 1) = gfMul (ghashDeferred h y f m) h := rfl

/-- Horner's rule in the field. -/
theorem gfEl_ghashDeferred_succ (h y : BitVec 128) (f : ℕ → BitVec 128) (m : ℕ) :
    gfEl (ghashDeferred h y f (m + 1)) =
      gfEl (ghashDeferred h y f m) * gfEl h + gfEl (f (m + 1)) := by
  rw [ghashDeferred, ghashFrom_succ_eq, gfEl_xor, gfEl_gfMul]

/-- The hash with the multiplication for the last block still to come, from the value `x` on. -/
def ghashLag (h x : BitVec 128) (f : ℕ → BitVec 128) : ℕ → BitVec 128
  | 0 => x
  | m + 1 => gfMul (ghashLag h x f m) h ^^^ f m

theorem gfEl_ghashLag_succ (h x : BitVec 128) (f : ℕ → BitVec 128) (m : ℕ) :
    gfEl (ghashLag h x f (m + 1)) = gfEl (ghashLag h x f m) * gfEl h + gfEl (f m) := by
  rw [ghashLag, gfEl_xor, gfEl_gfMul]

theorem gfMul_ghashLag (h x : BitVec 128) (f : ℕ → BitVec 128) (m : ℕ) :
    gfMul (ghashLag h x f m) h = ghashFrom h (gfMul x h) f m := by
  induction m with
  | zero => rfl
  | succ m ih => rw [ghashFrom, ← ih, ghashLag]

/-- The hash of two messages, one after the other. -/
theorem ghash_append {a b : List (BitVec 8)} (ha : a.length % 16 = 0) :
    ghash h (a ++ b) =
      ghashFrom h (ghash h a) (fun q => byteSwap (block b q)) (b.length / 16) := by
  obtain ⟨m, hm⟩ : ∃ m, a.length = 16 * m := ⟨a.length / 16, by omega⟩
  have hblocks : (a ++ b).length / 16 = m + b.length / 16 := by
    rw [List.length_append, hm]
    omega
  have hleft : ghashFrom h 0#128 (fun q => byteSwap (block (a ++ b) q)) m = ghash h a := by
    rw [ghash, hm, Nat.mul_div_cancel_left m (by decide)]
    exact ghashFrom_congr fun q hq => by rw [block_append_left (by omega)]
  have hright : ∀ q, block (a ++ b) (m + q) = block b q := fun q => by
    rw [block, block, Nat.mul_add, ← hm, List.drop_length_add_append]
  rw [ghash, hblocks, ghashFrom_add, hleft]
  simp only [hright]

end Hash

/-! ## Streams -/

/-- Block `q` of a stream, as a bit string. -/
def streamBlock (c : ℕ → BitVec 8) (q : ℕ) : BitVec 128 := byteSwap (ofBytes (window c (16 * q) 16))

/-- The last bytes of the first `n` of a stream, those after the whole blocks. -/
def streamRest (c : ℕ → BitVec 8) (n : ℕ) : BitVec 128 :=
  byteSwap (ofBytes (window c (16 * (n / 16)) (n % 16)))

/-- The hash of the first `n` bytes of a stream, from `y` on, with the last partial block added and
not multiplied. -/
def ghashAt (h y : BitVec 128) (c : ℕ → BitVec 8) (n : ℕ) : BitVec 128 :=
  ghashFrom h y (streamBlock c) (n / 16) ^^^ streamRest c n

/-- The hash of the first `n` bytes of a stream, padded. -/
def ghashPadded (h y : BitVec 128) (c : ℕ → BitVec 8) (n : ℕ) : BitVec 128 :=
  if n % 16 = 0 then ghashAt h y c n else gfMul (ghashAt h y c n) h

section Streams

variable {h y : BitVec 128} {c d : ℕ → BitVec 8} {n : ℕ}

theorem streamRest_of_mod (hn : n % 16 = 0) : streamRest c n = 0#128 := by
  rw [streamRest, hn]
  exact byteSwap_zero

theorem ghashAt_of_mod (hn : n % 16 = 0) :
    ghashAt h y c n = ghashFrom h y (streamBlock c) (n / 16) := by
  rw [ghashAt, streamRest_of_mod hn, BitVec.xor_zero]

/-- A block of a window that lies in the window. -/
theorem byteSwap_block_window {q : ℕ} (hq : 16 * q + 16 ≤ n) (tail : List (BitVec 8)) :
    byteSwap (block (window c 0 n ++ tail) q) = streamBlock c q := by
  obtain ⟨r, rfl⟩ : ∃ r, n = 16 * q + (16 + r) := ⟨n - 16 * q - 16, by omega⟩
  rw [block_append_left (by rw [length_window]; omega), streamBlock, block, drop_window,
    Nat.zero_add, window_add, List.take_left' (length_window ..)]

/-- The padded message of the first bytes of a stream. -/
theorem ghash_window_pad16 (h y : BitVec 128) (c : ℕ → BitVec 8) (n : ℕ) :
    ghashFrom h y (fun q => byteSwap (block (pad16 (window c 0 n)) q))
      ((pad16 (window c 0 n)).length / 16) = ghashPadded h y c n := by
  have hlen : (pad16 (window c 0 n)).length = n + (16 - n % 16) % 16 := by
    rw [pad16, List.length_append, length_window, List.length_replicate]
  have hfull : ghashFrom h y (fun q => byteSwap (block (pad16 (window c 0 n)) q)) (n / 16) =
      ghashFrom h y (streamBlock c) (n / 16) :=
    ghashFrom_congr fun q hq => by rw [pad16, byteSwap_block_window (by omega)]
  rw [ghashPadded, hlen]
  split
  · next hn =>
    rw [hn, show (n + (16 - 0) % 16) / 16 = n / 16 by omega, hfull, ghashAt_of_mod hn]
  · next hn =>
    have hrest : byteSwap (block (pad16 (window c 0 n)) (n / 16)) = streamRest c n := by
      have hsplit : window c 0 n = window c 0 (16 * (n / 16)) ++
          window c (16 * (n / 16)) (n % 16) := by
        have hadd := window_add c 0 (16 * (n / 16)) (n % 16)
        rwa [Nat.zero_add, Nat.div_add_mod] at hadd
      rw [pad16, length_window, block, hsplit, List.append_assoc,
        List.drop_left' (length_window ..), List.take_of_length_le, ofBytes_append_zeros,
        streamRest]
      rw [List.length_append, length_window, List.length_replicate]
      omega
    rw [show (n + (16 - n % 16) % 16) / 16 = n / 16 + 1 by omega, ghashFrom, hfull, hrest, ghashAt]

end Streams

end IsalCrypto.Lib
