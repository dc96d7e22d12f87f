import IsalCrypto.Lib.MerkleDamgard
import IsalCrypto.Mh.Ctx
import IsalCrypto.Mh.Sha

/-!
# What a multi-hash processes

For every way of cutting the message into updates, the block function gets the message and its
padding in blocks of 1024 bytes, in order (`finalize_run`). The length field of the padding is the
tail's: the length modulo `2 ^ 32`.
-/

namespace IsalCrypto.Mh

open IsalCrypto.Lib

variable {D R E : Type*}

/-! ## Invariant -/

/-- On what the projection `π` sees, the block function is `f` on each block. It is called on less
than `2 ^ 22` blocks at once. -/
def Absorbs (blockFunction : (ℕ → Byte) → BitVec 32 → D → D) (π : D → E)
    (f : E → List Byte → E) : Prop :=
  ∀ x n d, n.toNat < 2 ^ 22 → π (blockFunction x n d) = absorb f 1024 x n.toNat 0 (π d)

/-- The context has taken the first `n` bytes of `x`: whole blocks are processed, the others
stored. -/
structure MhCtx.Holds (π : D → E) (f : E → List Byte → E) (iv : E) (ctx : MhCtx D R)
    (x : ℕ → Byte) (n : ℕ) : Prop where
  total : ctx.totalLength.toNat = n
  interim : π ctx.interim = absorb f 1024 x (n / 1024) 0 iv
  stored : ∀ k, k < n % 1024 → arrayBytes ctx.partialBlockBuffer k = x (1024 * (n / 1024) + k)

/-- An update has processed `m` blocks of `x` and is to go on to byte `n`. -/
structure Feed.Holds (π : D → E) (f : E → List Byte → E) (iv : E) (r : Feed D R) (x : ℕ → Byte)
    (m n : ℕ) : Prop where
  total : r.ctx.totalLength.toNat = n
  interim : π r.ctx.interim = absorb f 1024 x m 0 iv
  len : 1024 * m + r.len.toNat = n
  input : ∀ k, k < r.len.toNat → r.input k = x (1024 * m + k)

variable {blockFunction : (ℕ → Byte) → BitVec 32 → D → D} {π : D → E} {f : E → List Byte → E}
  {iv : E} {x : ℕ → Byte}

/-! ## Update -/

theorem Absorbs.one (h : Absorbs blockFunction π f) (x : ℕ → Byte) (d : D) :
    π (blockFunction x 1#32 d) = f (π d) (window x 0 1024) :=
  h x 1#32 d (by decide)

/-- The stored bytes and the first ones of the buffer make a block. -/
theorem Feed.Holds.finishPartial (hf : Absorbs blockFunction π f) {ctx : MhCtx D R} {n : ℕ}
    {buffer : ℕ → Byte} {len : BitVec 32}
    (hinterim : π ctx.interim = absorb f 1024 x (n / 1024) 0 iv)
    (hstored : ∀ k, k < n % 1024 → arrayBytes ctx.partialBlockBuffer k = x (1024 * (n / 1024) + k))
    (htotal : ctx.totalLength.toNat = n + len.toNat)
    (hinput : ∀ k, k < len.toNat → buffer k = x (n + k)) (hlen : 1024 ≤ n % 1024 + len.toNat) :
    ((Feed.mk ctx buffer len).finishPartial blockFunction (BitVec.ofNat 32 (n % 1024))).Holds π f iv
      x ((n + 1023) / 1024) (n + len.toNat) := by
  have hdiv := Nat.div_add_mod n 1024
  have hr := Nat.mod_lt n (show 0 < 1024 by decide)
  have hplen : (BitVec.ofNat 32 (n % 1024)).toNat = n % 1024 := by
    rw [BitVec.toNat_ofNat]
    omega
  unfold Feed.finishPartial
  split
  · next hne =>
    have hpos : 0 < n % 1024 := by
      rcases Nat.eq_zero_or_pos (n % 1024) with h | h
      · rw [h] at hne
        exact absurd rfl hne
      · exact h
    have hfill : (1024#32 - BitVec.ofNat 32 (n % 1024)).toNat = 1024 - n % 1024 := by
      rw [BitVec.toNat_sub, hplen, BitVec.toNat_ofNat]
      omega
    have hsub : (len - (1024#32 - BitVec.ofNat 32 (n % 1024))).toNat =
        len.toNat - (1024 - n % 1024) := by
      rw [BitVec.toNat_sub, hfill]
      have hlt := len.isLt
      omega
    have hm : (n + 1023) / 1024 = n / 1024 + 1 := by omega
    dsimp only
    rw [hplen, hfill, hm]
    refine ⟨htotal, ?_, ?_, ?_⟩
    · rw [hf.one, hinterim, absorb_add, absorb_one, Nat.zero_add]
      refine congrArg (f _) (List.map_congr_left fun k hk => ?_)
      have hk := List.mem_range.mp hk
      rw [Nat.zero_add]
      rcases Nat.lt_or_ge k (n % 1024) with hlt | hge
      · rw [arrayBytes_memcpyAt_lt hlt, hstored k hlt]
      · rw [arrayBytes_memcpyAt hge (by omega) (by omega), hinput _ (by omega)]
        exact congrArg x (by omega)
    · rw [hsub]
      omega
    · intro k hk
      rw [hsub] at hk
      change buffer (1024 - n % 1024 + k) = _
      rw [hinput _ (by omega)]
      exact congrArg x (by omega)
  · next heq =>
    have hzero : n % 1024 = 0 := by
      have h := congrArg BitVec.toNat (not_not.mp heq)
      rwa [hplen] at h
    have hm : (n + 1023) / 1024 = n / 1024 := by omega
    rw [hm]
    refine ⟨htotal, hinterim, ?_, fun k hk => ?_⟩
    · change 1024 * (n / 1024) + len.toNat = n + len.toNat
      omega
    · change buffer k = _
      rw [hinput k hk]
      exact congrArg x (by omega)

theorem Feed.Holds.currentBlocks (hf : Absorbs blockFunction π f) {r : Feed D R} {m n : ℕ}
    (h : r.Holds π f iv x m n) : (r.currentBlocks blockFunction).Holds π f iv x (n / 1024) n := by
  have hlen := h.len
  have hlt := r.len.isLt
  have hnum : (r.len / 1024#32).toNat = r.len.toNat / 1024 := by
    rw [BitVec.toNat_udiv]
    rfl
  unfold Feed.currentBlocks
  dsimp only
  split
  · next hpos =>
    have hmul : (r.len / 1024#32 * 1024#32).toNat = 1024 * (r.len.toNat / 1024) := by
      rw [BitVec.toNat_mul, hnum, BitVec.toNat_ofNat]
      omega
    have hsub : (r.len - r.len / 1024#32 * 1024#32).toNat = r.len.toNat % 1024 := by
      rw [BitVec.toNat_sub, hmul]
      omega
    have hq : n / 1024 = m + r.len.toNat / 1024 := by omega
    rw [hmul, hq]
    refine ⟨h.total, ?_, ?_, ?_⟩
    · rw [hf _ _ _ (by rw [hnum]; omega), h.interim, hnum, absorb_add, Nat.zero_add]
      refine absorb_congr _ _ fun k hk => ?_
      rw [Nat.zero_add]
      exact h.input k (by omega)
    · rw [hsub]
      omega
    · intro k hk
      rw [hsub] at hk
      change r.input (1024 * (r.len.toNat / 1024) + k) = _
      rw [h.input _ (by omega)]
      exact congrArg x (by omega)
  · next hzero =>
    have hsmall : r.len.toNat / 1024 = 0 := by
      rw [← hnum]
      exact Nat.le_zero.mp (Nat.le_of_not_lt hzero)
    have hq : n / 1024 = m := by omega
    rw [hq]
    exact h

theorem Feed.Holds.storePartial {r : Feed D R} {n : ℕ} (h : r.Holds π f iv x (n / 1024) n) :
    r.storePartial.Holds π f iv x n := by
  have hlen := h.len
  unfold Feed.storePartial
  split
  · refine ⟨h.total, h.interim, fun k hk => ?_⟩
    rw [arrayBytes_memcpyAt (Nat.zero_le _) (by omega) (by omega), Nat.sub_zero]
    exact h.input k (by omega)
  · next hzero =>
    have h0 : r.len.toNat = 0 := congrArg BitVec.toNat (not_not.mp hzero)
    exact ⟨h.total, h.interim, fun k hk => by omega⟩

/-- An update takes the bytes of its buffer. -/
theorem MhCtx.Holds.update (hf : Absorbs blockFunction π f) {ctx : MhCtx D R} {n : ℕ}
    (h : ctx.Holds π f iv x n) {buffer : ℕ → Byte} {len : BitVec 32}
    (hinput : ∀ k, k < len.toNat → buffer k = x (n + k)) (hn : n + len.toNat < 2 ^ 64) :
    (ctx.update blockFunction buffer len).Holds π f iv x (n + len.toNat) := by
  have hdiv := Nat.div_add_mod n 1024
  have hr := Nat.mod_lt n (show 0 < 1024 by decide)
  unfold MhCtx.update
  split
  · next hzero =>
    rw [hzero]
    exact h
  · have hplen : (ctx.totalLength % 1024#64).setWidth 32 = BitVec.ofNat 32 (n % 1024) := by
      apply BitVec.eq_of_toNat_eq
      rw [BitVec.toNat_setWidth, BitVec.toNat_umod, h.total, BitVec.toNat_ofNat, BitVec.toNat_ofNat]
    have htotal : (ctx.totalLength + len.setWidth 64).toNat = n + len.toNat := by
      have hlt := len.isLt
      rw [BitVec.toNat_add, h.total, BitVec.toNat_setWidth]
      omega
    have hroom : (1024#32 - BitVec.ofNat 32 (n % 1024)).toNat = 1024 - n % 1024 := by
      rw [BitVec.toNat_sub, BitVec.toNat_ofNat, BitVec.toNat_ofNat]
      omega
    dsimp only
    rw [hplen]
    split
    · next hlt =>
      have hlt : len.toNat < 1024 - n % 1024 := hroom ▸ BitVec.lt_def.mp hlt
      have hq : (n + len.toNat) / 1024 = n / 1024 := by omega
      refine ⟨htotal, by rw [hq]; exact h.interim, fun k hk => ?_⟩
      have hmod : (BitVec.ofNat 32 (n % 1024)).toNat = n % 1024 := by
        rw [BitVec.toNat_ofNat]
        omega
      rw [hmod, hq]
      rcases Nat.lt_or_ge k (n % 1024) with hlow | hge
      · rw [arrayBytes_memcpyAt_lt hlow, h.stored k hlow]
      · rw [arrayBytes_memcpyAt hge (by omega) (by omega), hinput _ (by omega)]
        exact congrArg x (by omega)
    · next hge =>
      have hge : 1024 ≤ n % 1024 + len.toNat := by
        have h := Nat.le_of_not_lt fun hlt => hge (BitVec.lt_def.mpr hlt)
        omega
      refine (Feed.Holds.currentBlocks (m := (n + 1023) / 1024) hf ?_).storePartial
      exact Feed.Holds.finishPartial hf h.interim h.stored htotal hinput hge

/-! ## Finalize -/

/-- The buffer with the one bit and zeros behind the stored bytes. -/
theorem padBuffer_bytes (buffer : Fin 2048 → Byte) {r k : ℕ} (hr : r < 1024) (hk : k < 1024) :
    arrayBytes (memcpyAt (memcpyAt buffer r (fun _ => 0x80#8) 1) (r + 1) (fun _ => 0#8)
        (1024 - (r + 1))) k =
      if k < r then arrayBytes buffer k else if k = r then 0x80#8 else 0#8 := by
  rcases lt_trichotomy k r with h | rfl | h
  · rw [if_pos h, arrayBytes_memcpyAt_lt (by omega), arrayBytes_memcpyAt_lt h]
  · rw [if_neg (Nat.lt_irrefl k), if_pos rfl, arrayBytes_memcpyAt_lt (by omega),
      arrayBytes_memcpyAt (Nat.le_refl k) (by omega) (by omega)]
  · rw [if_neg (by omega), if_neg (by omega), arrayBytes_memcpyAt (by omega) (by omega) (by omega)]

/-- The padded message from its last whole block on: the rest of the message, the one bit, zeros
and the length in bits. -/
theorem paddedRest_byte {y rest : ℕ → Byte} {a r len k : ℕ}
    (hrest : ∀ k, k < r → rest k = y (a + k))
    (hpad : ∀ k, k < 1 + mdZeros 1024 8 len + 8 → y (a + r + k) = stream (mdPadding 1024 8 len) k)
    (hk : k < r + 1 + mdZeros 1024 8 len + 8) :
    y (a + k) =
      if k < r then rest k
      else if k = r then 0x80#8
      else if k ≤ r + mdZeros 1024 8 len then 0#8
      else BitVec.ofNat 8 ((8 * len) >>> (8 * (8 - (k - r - mdZeros 1024 8 len)))) := by
  split
  · next hlt => exact (hrest k hlt).symm
  · next hge =>
    have hp := hpad (k - r) (by omega)
    rw [stream_mdPadding (by omega), show a + r + (k - r) = a + k by omega] at hp
    rw [hp]
    split_ifs <;> first | rfl | omega

/-- The length field at the end of the block. -/
theorem lengthField_byte (buffer : Fin 2048 → Byte) (len : ℕ) {k : ℕ} (h : 1016 ≤ k)
    (hk : k < 1024) :
    arrayBytes (memcpyAt buffer (1024 - 8) (be64Bytes (BitVec.ofNat 64 (8 * len))) 8) k =
      BitVec.ofNat 8 ((8 * len) >>> (8 * (1023 - k))) := by
  rw [arrayBytes_memcpyAt (by omega) (by omega) (by omega), be64Bytes_ofNat _ (by omega),
    show 7 - (k - (1024 - 8)) = 1023 - k by omega]

/-- The loads of the words of the length see it. -/
def SeesLength (sees : ℕ → Bool) : Prop := ∀ k, 1016 ≤ k → k < 1024 → sees (k / 4) = true

theorem seesLength_all : SeesLength fun _ => true := fun _ _ _ => rfl

/-- The blocks that the tail processes are the rest of a padded message whose length is the tail's
parameter. -/
theorem tailFunction_interim (hf : Absorbs blockFunction π f) {sees : ℕ → Bool}
    (hsees : SeesLength sees) (shaFor : D → R) {buffer : Fin 2048 → Byte} {totalLen : BitVec 32}
    {d : D} {n : ℕ} {y : ℕ → Byte}
    (hmod : totalLen.toNat % 1024 = n % 1024) (hd : π d = absorb f 1024 y (n / 1024) 0 iv)
    (hstored : ∀ k, k < n % 1024 → arrayBytes buffer k = y (1024 * (n / 1024) + k))
    (hpad : ∀ k, k < 1 + mdZeros 1024 8 totalLen.toNat + 8 →
      y (n + k) = stream (mdPadding 1024 8 totalLen.toNat) k) :
    π (tailFunction blockFunction shaFor sees buffer totalLen d).2.1 =
      absorb f 1024 y (mdBlocks 1024 8 n) 0 iv := by
  have hdiv := Nat.div_add_mod n 1024
  have hr := Nat.mod_lt n (show 0 < 1024 by decide)
  have hmul := mdBlocks_mul 1024 8 n (by decide)
  have hzeros : mdZeros 1024 8 n = mdZeros 1024 8 totalLen.toNat := by
    rw [← mdZeros_mod 1024 8 n, ← hmod, mdZeros_mod]
  have hz := @mdZeros_eq 1024 8 totalLen.toNat (by decide)
  have hplen : (totalLen % 1024#32).toNat = n % 1024 := by
    rw [BitVec.toNat_umod, ← hmod]
    rfl
  rw [hmod] at hz
  rw [hzeros] at hmul
  have hbyte := fun k => @paddedRest_byte y (arrayBytes buffer) (1024 * (n / 1024)) (n % 1024)
    totalLen.toNat k hstored (by rwa [hdiv])
  have hfirst := fun k => @padBuffer_bytes buffer (n % 1024) k hr
  unfold tailFunction
  dsimp only
  rw [seenBytes_memcpyAt _ (1024 - 8) _ 8 fun k h1 h2 => hsees k (by omega) (by omega), hplen,
    len_times_eight]
  generalize memcpyAt (memcpyAt buffer (n % 1024) (fun _ => 0x80#8) 1) (n % 1024 + 1) (fun _ => 0#8)
    (1024 - (n % 1024 + 1)) = first at *
  generalize mdZeros 1024 8 totalLen.toNat = z at *
  split
  · next htwo =>
    rw [if_neg (by omega)] at hz
    rw [hf.one, hf.one, hd, show mdBlocks 1024 8 n = n / 1024 + 1 + 1 by omega, absorb_add,
      absorb_add, absorb_one, absorb_one, Nat.zero_add, Nat.zero_add]
    have hblock : window (arrayBytes first) 0 1024 = window y (1024 * (n / 1024)) 1024 := by
      refine List.map_congr_left fun k hk => ?_
      have hk := List.mem_range.mp hk
      rw [Nat.zero_add, hbyte k (by omega), hfirst k hk]
      split_ifs <;> first | rfl | omega
    have hlast : window (arrayBytes (memcpyAt (memcpyAt first 0 (fun _ => 0#8) 1024) (1024 - 8)
        (be64Bytes (BitVec.ofNat 64 (8 * totalLen.toNat))) 8)) 0 1024 =
        window y (1024 * (n / 1024 + 1)) 1024 := by
      refine List.map_congr_left fun k hk => ?_
      have hk := List.mem_range.mp hk
      rw [Nat.zero_add, show 1024 * (n / 1024 + 1) + k = 1024 * (n / 1024) + (1024 + k) by omega,
        hbyte _ (by omega), if_neg (by omega), if_neg (by omega)]
      rcases Nat.lt_or_ge k 1016 with h | h
      · rw [if_pos (by omega), arrayBytes_memcpyAt_lt (by omega),
          arrayBytes_memcpyAt (Nat.zero_le _) (by omega) (by omega)]
      · rw [if_neg (by omega), lengthField_byte _ _ h hk,
          show 8 - (1024 + k - n % 1024 - z) = 1023 - k by omega]
    rw [hblock, hlast]
  · next hone =>
    rw [if_pos (by omega)] at hz
    rw [hf.one, hd, show mdBlocks 1024 8 n = n / 1024 + 1 by omega, absorb_add, absorb_one,
      Nat.zero_add]
    refine congrArg (f _) (List.map_congr_left fun k hk => ?_)
    have hk := List.mem_range.mp hk
    rw [Nat.zero_add, hbyte k (by omega)]
    rcases Nat.lt_or_ge k 1016 with h | h
    · rw [arrayBytes_memcpyAt_lt (by omega), hfirst k hk]
      split_ifs <;> first | rfl | omega
    · rw [if_neg (by omega), if_neg (by omega), if_neg (by omega), lengthField_byte _ _ h hk,
        show 8 - (k - n % 1024 - z) = 1023 - k by omega]

/-! ## Runs -/

theorem MhCtx.holds_init (cleared : R) {first : D} (h : π first = iv) (x : ℕ → Byte) :
    (MhCtx.init cleared first).Holds π f iv x 0 :=
  ⟨rfl, h, fun _ hk => absurd hk (Nat.not_lt_zero _)⟩

theorem MhCtx.Holds.updates (hf : Absorbs blockFunction π f) (pieces : List Piece) :
    ∀ {ctx : MhCtx D R} {n : ℕ}, ctx.Holds π f iv x n →
      (∀ k, k < (message pieces).length → stream (message pieces) k = x (n + k)) →
      n + (message pieces).length < 2 ^ 64 →
      (ctx.updates blockFunction pieces).Holds π f iv x (n + (message pieces).length) := by
  induction pieces with
  | nil => intro ctx n h _ _; exact h
  | cons p pieces ih =>
    intro ctx n h hx hn
    have hmsg : message (p :: pieces) = window p.buffer 0 p.len.toNat ++ message pieces :=
      List.flatMap_cons
    have hlen : (message (p :: pieces)).length = p.len.toNat + (message pieces).length := by
      rw [hmsg, List.length_append, length_window]
    rw [hlen] at hx hn ⊢
    have hpiece : ∀ k, k < p.len.toNat → p.buffer k = x (n + k) := by
      intro k hk
      rw [← hx k (by omega), hmsg, stream_append_left _ (by rwa [length_window]), stream_window hk,
        Nat.zero_add]
    have hrest := ih (h.update hf hpiece (by omega)) (fun k hk => by
      have hk' := hx (p.len.toNat + k) (by omega)
      have hright := stream_append_right (window p.buffer 0 p.len.toNat) (message pieces) k
      rw [length_window] at hright
      rw [Nat.add_assoc, ← hk', hmsg, hright]) (by omega)
    rw [← Nat.add_assoc]
    exact hrest

/-- What is hashed of a message: the tail's parameter has 32 bits. -/
def hashedMessage (m : List Byte) : List Byte := m ++ mdPadding 1024 8 (m.length % 2 ^ 32)

/-- The message padded as the standard pads, to blocks of 1024 bytes. -/
def paddedMessage (m : List Byte) : List Byte := m ++ mdPadding 1024 8 m.length

/-- The blocks of a padded message, processed. -/
def absorbBlocks (f : E → List Byte → E) (iv : E) (p : List Byte) : E :=
  absorb f 1024 (stream p) (p.length / 1024) 0 iv

theorem length_hashedMessage (m : List Byte) :
    (hashedMessage m).length = 1024 * mdBlocks 1024 8 m.length := by
  have hzeros : mdZeros 1024 8 (m.length % 2 ^ 32) = mdZeros 1024 8 m.length := by
    rw [← mdZeros_mod 1024 8 (m.length % 2 ^ 32), ← mdZeros_mod 1024 8 m.length,
      Nat.mod_mod_of_dvd _ (by decide)]
  rw [hashedMessage, List.length_append, length_mdPadding, hzeros, mdBlocks_mul _ _ _ (by decide)]
  omega

/-- The message hashed is the padded message exactly below `2 ^ 32` bytes. -/
theorem hashedMessage_eq_iff {m : List Byte} (h : m.length < 2 ^ 61) :
    hashedMessage m = paddedMessage m ↔ m.length < 2 ^ 32 := by
  constructor
  · intro heq
    have hlen := mdPadding_injective (by omega) (by omega) (List.append_cancel_left heq)
    omega
  · intro hlt
    rw [hashedMessage, Nat.mod_eq_of_lt hlt]
    rfl

/-- The tail hashes the rest of the message and its padding. -/
theorem MhCtx.Holds.tail {S : Type*} (hf : Absorbs blockFunction π f) {sees : ℕ → Bool}
    (hsees : SeesLength sees) (shaFor : D → S) {ctx : MhCtx D R} {m : List Byte}
    (h : ctx.Holds π f iv (stream m) m.length) {totalLen : BitVec 32}
    (htotal : totalLen.toNat = m.length % 2 ^ 32) :
    π (tailFunction blockFunction shaFor sees ctx.partialBlockBuffer totalLen ctx.interim).2.1 =
      absorbBlocks f iv (hashedMessage m) := by
  have hblocks : (hashedMessage m).length / 1024 = mdBlocks 1024 8 m.length := by
    rw [length_hashedMessage]
    exact Nat.mul_div_cancel_left _ (by decide)
  have hdiv := Nat.div_add_mod m.length 1024
  have hr := Nat.mod_lt m.length (show 0 < 1024 by decide)
  have hleft : ∀ k, k < m.length → stream (hashedMessage m) k = stream m k :=
    fun k hk => stream_append_left _ hk
  rw [absorbBlocks, hblocks]
  refine tailFunction_interim hf hsees shaFor (n := m.length) ?_ ?_ ?_ ?_
  · rw [htotal, Nat.mod_mod_of_dvd _ (by decide)]
  · rw [h.interim]
    refine absorb_congr _ _ fun k hk => ?_
    rw [Nat.zero_add, hleft k (by omega)]
  · intro k hk
    rw [h.stored k hk, hleft _ (by omega)]
  · intro k _
    rw [htotal, hashedMessage, stream_append_right]

/-- The context has taken the message, however it was cut. -/
theorem MhCtx.holds_run (hf : Absorbs blockFunction π f) (cleared : R) {first : D}
    (hfirst : π first = iv) {pieces : List Piece} (hlen : (message pieces).length < 2 ^ 64) :
    ((MhCtx.init cleared first).updates blockFunction pieces).Holds π f iv (stream (message pieces))
      (message pieces).length := by
  have hrun :=
    (MhCtx.holds_init (f := f) cleared hfirst (stream (message pieces))).updates hf pieces
    (fun k _ => by rw [Nat.zero_add]) (by rwa [Nat.zero_add])
  rwa [Nat.zero_add] at hrun

/-- For every way of cutting the message, the blocks of `hashedMessage` are processed. -/
theorem finalize_run (hf : Absorbs blockFunction π f) (shaFor : D → R) (cleared : R) {first : D}
    (hfirst : π first = iv) {pieces : List Piece} (hlen : (message pieces).length < 2 ^ 64) :
    π (((MhCtx.init cleared first).updates blockFunction pieces).finalize blockFunction
        shaFor).interim = absorbBlocks f iv (hashedMessage (message pieces)) := by
  have hrun := MhCtx.holds_run hf cleared hfirst hlen
  exact hrun.tail hf seesLength_all shaFor (by rw [BitVec.toNat_setWidth, hrun.total])

/-- The digest is that of the blocks' result. -/
theorem session_digest (hf : Absorbs blockFunction π f) (shaFor : D → R) (cleared : R) {first : D}
    (hfirst : π first = iv) (sha : E → R) (hsha : ∀ d, shaFor d = sha (π d)) (ctx : MhCtx D R)
    {pieces : List Piece} (hlen : (message pieces).length < 2 ^ 64) :
    session blockFunction shaFor cleared first ctx pieces =
      (List.replicate (pieces.length + 2) .errorNone,
        some (sha (absorbBlocks f iv (hashedMessage (message pieces))))) := by
  have hrun := finalize_run hf shaFor cleared hfirst hlen
  rw [session_eq, ← hrun, ← hsha]
  rfl

/-- The reference function hashes the padded message, when its loads see the length. -/
theorem refFunction_eq (hf : Absorbs blockFunction π f) {sees : ℕ → Bool}
    (hsees : SeesLength sees) (shaFor : D → R) {first : D}
    (hfirst : π first = iv) (sha : E → R) (hsha : ∀ d, shaFor d = sha (π d))
    (stack : Fin 2048 → Byte) (buffer : ℕ → Byte) (len : BitVec 32) :
    refFunction blockFunction shaFor sees first stack buffer len =
      sha (absorbBlocks f iv (paddedMessage (window buffer 0 len.toNat))) := by
  have hlen : (window buffer 0 len.toNat).length = len.toNat := length_window _ _ _
  have hfeed :
    (Feed.mk (⟨(), len.setWidth 64, stack, first⟩ : MhCtx D Unit) buffer len).Holds π f iv
      (stream (window buffer 0 len.toNat)) 0 (window buffer 0 len.toNat).length := by
    rw [hlen]
    refine ⟨?_, hfirst, ?_, ?_⟩
    · rw [BitVec.toNat_setWidth]
      exact Nat.mod_eq_of_lt (Nat.lt_of_lt_of_le len.isLt (by decide))
    · rw [Nat.mul_zero, Nat.zero_add]
    · intro k hk
      rw [stream_window (by rwa [Nat.mul_zero, Nat.zero_add]), Nat.mul_zero, Nat.zero_add,
        Nat.zero_add]
  have hctx := (hfeed.currentBlocks hf).storePartial
  have hhashed : hashedMessage (window buffer 0 len.toNat) =
      paddedMessage (window buffer 0 len.toNat) := by
    rw [hashedMessage, hlen, Nat.mod_eq_of_lt len.isLt, paddedMessage, hlen]
  have htail := hctx.tail hf hsees shaFor (show len.toNat = _ by
    rw [hlen, Nat.mod_eq_of_lt len.isLt])
  rw [← hhashed, ← htail, ← hsha]
  rfl

/-! ## The bytes hashed -/

/-- A block function that only records what it is given. -/
def recordBlocks (x : ℕ → Byte) (numBlocks : BitVec 32) (seen : List Byte) : List Byte :=
  seen ++ window x 0 (1024 * numBlocks.toNat)

/-- The bytes that the block function is given, in order. -/
def hashedBytes (pieces : List Piece) : List Byte :=
  (((MhCtx.init () []).updates recordBlocks pieces).finalize recordBlocks fun _ => ()).interim

theorem recordBlocks_absorbs : Absorbs recordBlocks id (fun d b => d ++ b) := by
  intro x n d _
  rw [absorb_append]
  rfl

theorem hashedBytes_eq {pieces : List Piece} (hlen : (message pieces).length < 2 ^ 64) :
    hashedBytes pieces = hashedMessage (message pieces) := by
  have hrun := finalize_run recordBlocks_absorbs (fun _ => ()) ()
    (show id ([] : List Byte) = [] from rfl) hlen
  have hdvd : 1024 * ((hashedMessage (message pieces)).length / 1024) =
      (hashedMessage (message pieces)).length := by
    rw [length_hashedMessage, Nat.mul_div_cancel_left _ (by decide)]
  rw [absorbBlocks, absorb_append, hdvd, window_stream, id_eq] at hrun
  exact hrun

end IsalCrypto.Mh
