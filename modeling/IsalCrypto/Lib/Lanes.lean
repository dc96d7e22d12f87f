import IsalCrypto.Lib.Sizes
import Mathlib.Data.Nat.Bitwise
import Mathlib.Data.List.Nodup
import Mathlib.Logic.Function.Basic

/-!
# Lanes in words

How a lane scheduler packs its tables: a stack of lane numbers as the nibbles of a word above a
sentinel or as its bytes, a length and a lane number in one word, and the passes over some lanes.
-/

namespace IsalCrypto.Lib

/-! ## A stack of nibbles -/

/-- A word with the nibbles of a stack, the top one lowest, and the sentinel 15 above them. -/
def nibbleStack : List (Fin 16) → ℕ
  | [] => 15
  | i :: l => 16 * nibbleStack l + i

theorem nibbleStack_lt (l : List (Fin 16)) : nibbleStack l < 16 ^ (l.length + 1) := by
  induction l with
  | nil => decide
  | cons i l ih =>
    have hi := i.isLt
    rw [nibbleStack, List.length_cons, Nat.pow_succ]
    omega

theorem le_nibbleStack (l : List (Fin 16)) : 15 ≤ nibbleStack l := by
  induction l with
  | nil => exact Nat.le_refl 15
  | cons i l ih => rw [nibbleStack]; omega

/-- What is pushed on a stack makes the word larger. -/
theorem nibbleStack_append_eq {l base : List (Fin 16)} :
    nibbleStack (l ++ base) = nibbleStack base ↔ l = [] := by
  have hle : ∀ l, nibbleStack base ≤ nibbleStack (l ++ base) := fun l => by
    induction l with
    | nil => exact Nat.le_refl _
    | cons i l ih => rw [List.cons_append, nibbleStack]; omega
  cases l with
  | nil => exact iff_of_true rfl rfl
  | cons i l =>
    have h := hle l
    have hpos := le_nibbleStack base
    refine iff_of_false (fun he => ?_) nofun
    rw [List.cons_append, nibbleStack] at he
    omega

/-- A word and `k` bits below it. -/
theorem toNat_shiftLeft_or_lt {w k i : ℕ} {x : BitVec w} (hi : i < 2 ^ k)
    (hx : 2 ^ k * x.toNat + i < 2 ^ w) :
    (x <<< k ||| BitVec.ofNat w i).toNat = 2 ^ k * x.toNat + i := by
  have hshift : x.toNat <<< k = 2 ^ k * x.toNat := by rw [Nat.shiftLeft_eq, Nat.mul_comm]
  rw [BitVec.toNat_or, BitVec.toNat_shiftLeft, BitVec.toNat_ofNat, hshift,
    Nat.mod_eq_of_lt (by omega), Nat.mod_eq_of_lt (by omega), ← Nat.two_pow_add_eq_or_of_lt hi]

/-- A word and a nibble below it. -/
theorem toNat_shiftLeft_or {w : ℕ} {x : BitVec w} (hx : 16 * x.toNat + 16 ≤ 2 ^ w) (i : Fin 16) :
    (x <<< 4 ||| BitVec.ofNat w i).toNat = 16 * x.toNat + i := by
  have hi := i.isLt
  exact @toNat_shiftLeft_or_lt w 4 i x hi (by omega)

/-- A length and a lane in the low half of a word. -/
theorem toNat_setWidth_shiftLeft_or {len : BitVec 64} (hlen : len.toNat < 2 ^ 28) (i : Fin 16) :
    ((len <<< 4 ||| BitVec.ofNat 64 i).setWidth 32).toNat = 16 * len.toNat + i := by
  have hi := i.isLt
  rw [BitVec.toNat_setWidth, toNat_shiftLeft_or (by omega), Nat.mod_eq_of_lt (by omega)]

theorem toNat_push {x : BitVec 64} {l : List (Fin 16)} (h : x.toNat = nibbleStack l)
    (hl : l.length < 15) (i : Fin 16) :
    (x <<< 4 ||| BitVec.ofNat 64 i).toNat = nibbleStack (i :: l) := by
  have hlt := nibbleStack_lt l
  have hpow : 16 ^ (l.length + 1) ≤ 16 ^ 15 := Nat.pow_le_pow_right (by decide) (by omega)
  rw [toNat_shiftLeft_or (by omega), h, nibbleStack]

theorem toNat_and_fifteen {w : ℕ} (hw : 4 ≤ w) (x : BitVec w) :
    (x &&& 15#w).toNat = x.toNat % 16 := by
  have hpow : 2 ^ 4 ≤ 2 ^ w := Nat.pow_le_pow_right (by decide) hw
  rw [BitVec.toNat_and, BitVec.toNat_ofNat, Nat.mod_eq_of_lt (by omega)]
  exact Nat.and_two_pow_sub_one_eq_mod x.toNat 4

/-- The low nibble of a word. -/
def lowNibble {w : ℕ} (hw : 4 ≤ w) (x : BitVec w) : Fin 16 :=
  ⟨(x &&& 15#w).toNat, by
    rw [toNat_and_fifteen hw]
    exact Nat.mod_lt _ (by decide)⟩

theorem val_lowNibble {w : ℕ} (hw : 4 ≤ w) (x : BitVec w) : (lowNibble hw x).val = x.toNat % 16 :=
  toNat_and_fifteen hw x

theorem toNat_top {x : BitVec 64} {i : Fin 16} {l : List (Fin 16)}
    (h : x.toNat = nibbleStack (i :: l)) : (x &&& 15#64).toNat = i := by
  have hi := i.isLt
  rw [toNat_and_fifteen (by decide), h, nibbleStack]
  omega

theorem toNat_pop {x : BitVec 64} {i : Fin 16} {l : List (Fin 16)}
    (h : x.toNat = nibbleStack (i :: l)) : (x >>> 4).toNat = nibbleStack l := by
  have hi := i.isLt
  rw [BitVec.toNat_ushiftRight, h, Nat.shiftRight_eq_div_pow, nibbleStack]
  omega

/-- The nibbles of a stack without a sentinel, the top one lowest. -/
def nibbles : List (Fin 16) → ℕ
  | [] => 0
  | i :: l => 16 * nibbles l + i

/-- The low nibbles of a word are those of a stack: the top one. -/
theorem mod_eq_nibbles_top {x : ℕ} {i : Fin 16} {l : List (Fin 16)}
    (h : x % 16 ^ (i :: l).length = nibbles (i :: l)) : x % 16 = i := by
  have hi := i.isLt
  have hdvd : 16 ∣ 16 ^ (i :: l).length := Dvd.intro_left (16 ^ l.length) rfl
  rw [← Nat.mod_mod_of_dvd x hdvd, h, nibbles, Nat.mul_add_mod, Nat.mod_eq_of_lt hi]

/-- Those below the top one. -/
theorem mod_eq_nibbles_pop {x : ℕ} {i : Fin 16} {l : List (Fin 16)}
    (h : x % 16 ^ (i :: l).length = nibbles (i :: l)) : x / 16 % 16 ^ l.length = nibbles l := by
  have hi := i.isLt
  rw [List.length_cons, Nat.pow_succ, Nat.mul_comm] at h
  rw [← Nat.mod_mul_right_div_self, h, nibbles, Nat.mul_add_div (by decide), Nat.div_eq_of_lt hi,
    Nat.add_zero]

/-- A nibble is pushed; of the word's sixteen the highest falls out. -/
theorem mod_eq_nibbles_push {x : BitVec 64} {l : List (Fin 16)}
    (h : x.toNat % 16 ^ l.length = nibbles l) (hl : l.length < 16) (i : Fin 16) :
    (x <<< 4 ||| BitVec.ofNat 64 i).toNat % 16 ^ (i :: l).length = nibbles (i :: l) := by
  have hi := i.isLt
  have hshift : x <<< 4 = BitVec.ofNat 64 (x.toNat % 2 ^ 60) <<< 4 := by
    refine BitVec.eq_of_toNat_eq ?_
    rw [BitVec.toNat_shiftLeft, BitVec.toNat_shiftLeft, BitVec.toNat_ofNat, Nat.shiftLeft_eq,
      Nat.shiftLeft_eq]
    omega
  have hlow : (BitVec.ofNat 64 (x.toNat % 2 ^ 60)).toNat = x.toNat % 2 ^ 60 := by
    rw [BitVec.toNat_ofNat]
    omega
  have hword : (x <<< 4 ||| BitVec.ofNat 64 i).toNat = 16 * (x.toNat % 2 ^ 60) + i := by
    rw [hshift, toNat_shiftLeft_or (by rw [hlow]; omega), hlow]
  have hdvd : 16 ^ l.length ∣ 2 ^ 60 := Nat.pow_dvd_pow 16 (Nat.le_of_lt_succ hl)
  have hpow : 16 ^ (i :: l).length = 16 * 16 ^ l.length := Nat.pow_succ'
  rw [hword, hpow, Nat.mod_mul, Nat.mul_add_mod, Nat.mod_eq_of_lt hi, Nat.mul_add_div (by decide),
    Nat.div_eq_of_lt hi, Nat.add_zero, Nat.mod_mod_of_dvd _ hdvd, h, nibbles, Nat.add_comm]

/-- The low nibbles of a word, the lowest first. -/
def lowNibbles (x : BitVec 64) (n : ℕ) : List ℕ := (List.range n).map fun k => x.toNat / 16 ^ k % 16

theorem lowNibbles_nibbles {l : List (Fin 16)} :
    ∀ {x : ℕ}, x % 16 ^ l.length = nibbles l →
      (List.range l.length).map (fun k => x / 16 ^ k % 16) = l.map Fin.val := by
  induction l with
  | nil => exact fun _ => rfl
  | cons i l ih =>
    intro x h
    have hrest : ∀ k, x / 16 ^ (k + 1) % 16 = x / 16 / 16 ^ k % 16 := fun k => by
      rw [Nat.pow_succ', Nat.div_div_eq_div_mul]
    rw [List.length_cons, List.range_succ_eq_map, List.map_cons, List.map_map, List.map_cons,
      pow_zero, Nat.div_one, mod_eq_nibbles_top h, ← ih (mod_eq_nibbles_pop h)]
    exact congrArg _ (List.map_congr_left fun k _ => hrest k)

/-! ## A stack of bytes -/

/-- A word with the bytes of a stack, the top one lowest. -/
def byteStack {n : ℕ} : List (Fin n) → ℕ
  | [] => 0
  | i :: l => 256 * byteStack l + i

theorem byteStack_lt {n : ℕ} (hn : n ≤ 256) (l : List (Fin n)) : byteStack l < 256 ^ l.length := by
  induction l with
  | nil => exact Nat.one_pos
  | cons i l ih =>
    have hi := i.isLt
    rw [byteStack, List.length_cons, Nat.pow_succ]
    omega

/-- A word and a byte below it. -/
theorem toNat_shiftLeft_or_byte {w : ℕ} {x : BitVec w} (hx : 256 * x.toNat + 256 ≤ 2 ^ w) {i : ℕ}
    (hi : i < 256) : (x <<< 8 ||| BitVec.ofNat w i).toNat = 256 * x.toNat + i :=
  @toNat_shiftLeft_or_lt w 8 i x hi (by omega)

theorem toNat_pushByte {n : ℕ} (hn : n ≤ 256) {x : BitVec 64} {l : List (Fin n)}
    (h : x.toNat = byteStack l) (hl : l.length < 8) (i : Fin n) :
    (x <<< 8 ||| BitVec.ofNat 64 i).toNat = byteStack (i :: l) := by
  have hi := i.isLt
  have hlt := byteStack_lt hn l
  have hpow : 256 ^ l.length ≤ 256 ^ 7 := Nat.pow_le_pow_right (by decide) (by omega)
  rw [toNat_shiftLeft_or_byte (by omega) (by omega), h, byteStack]

theorem toNat_and_byte (x : BitVec 64) : (x &&& 255#64).toNat = x.toNat % 256 := by
  rw [BitVec.toNat_and]
  exact Nat.and_two_pow_sub_one_eq_mod x.toNat 8

theorem toNat_topByte {n : ℕ} (hn : n ≤ 256) {x : BitVec 64} {i : Fin n} {l : List (Fin n)}
    (h : x.toNat = byteStack (i :: l)) : (x &&& 255#64).toNat = i := by
  have hi := i.isLt
  rw [toNat_and_byte, h, byteStack]
  omega

theorem toNat_popByte {n : ℕ} (hn : n ≤ 256) {x : BitVec 64} {i : Fin n} {l : List (Fin n)}
    (h : x.toNat = byteStack (i :: l)) : (x >>> 8).toNat = byteStack l := by
  have hi := i.isLt
  rw [BitVec.toNat_ushiftRight, h, Nat.shiftRight_eq_div_pow, byteStack]
  omega

/-! ## A length and a lane in one word -/

/-- The complement of a mask of `k` low bits clears them. -/
theorem and_not_mask {w k : ℕ} (x : BitVec w) :
    x &&& ~~~BitVec.ofNat w (2 ^ k - 1) = x >>> k <<< k := by
  ext i hi
  have hbit : (BitVec.ofNat w (2 ^ k - 1))[i] = decide (i < k) := by
    rw [← BitVec.getLsbD_eq_getElem, BitVec.getLsbD_ofNat, Nat.testBit_two_pow_sub_one]
    simp [hi]
  rw [BitVec.getElem_and, BitVec.getElem_not, hbit, BitVec.getElem_shiftLeft]
  by_cases hk : i < k
  · simp [hk]
  · simp [hk, BitVec.getElem_ushiftRight, Nat.add_sub_cancel' (Nat.not_lt.mp hk),
      BitVec.getLsbD_eq_getElem hi]

theorem toNat_and_not_mask {w k : ℕ} (x : BitVec w) :
    (x &&& ~~~BitVec.ofNat w (2 ^ k - 1)).toNat = 2 ^ k * (x.toNat / 2 ^ k) := by
  have hle : x.toNat / 2 ^ k * 2 ^ k < 2 ^ w := (Nat.div_mul_le_self ..).trans_lt x.isLt
  rw [and_not_mask, BitVec.toNat_shiftLeft, BitVec.toNat_ushiftRight, Nat.shiftRight_eq_div_pow,
    Nat.shiftLeft_eq, Nat.mod_eq_of_lt hle, Nat.mul_comm]

/-- The mask `~0xf` keeps the length. -/
theorem toNat_and_not_fifteen (x : BitVec 32) :
    (x &&& ~~~15#32).toNat = 16 * (x.toNat / 16) :=
  @toNat_and_not_mask 32 4 x

/-- The mask `~0xff` keeps the length. -/
theorem toNat_and_not_byte (x : BitVec 32) :
    (x &&& ~~~255#32).toNat = 256 * (x.toNat / 256) :=
  @toNat_and_not_mask 32 8 x

/-! ## The least word of some entries -/

section Least

variable {ι : Type*} {w : ℕ} {f : ι → BitVec w} {l : List ι} {word : BitVec w}

/-- `word` is the least of the words `f` at the entries `l`. -/
def LeastWord (f : ι → BitVec w) (l : List ι) (word : BitVec w) : Prop :=
  (∃ a ∈ l, word = f a) ∧ ∀ i ∈ l, word.toNat ≤ (f i).toNat

theorem leastWord_singleton (i : ι) : LeastWord f [i] (f i) := by
  refine ⟨⟨i, List.mem_singleton_self i, rfl⟩, fun k hk => ?_⟩
  rw [List.mem_singleton.mp hk]

theorem LeastWord.concat (h : LeastWord f l word) (i : ι) :
    LeastWord f (l ++ [i]) (if word < f i then word else f i) := by
  obtain ⟨⟨a, ha, hword⟩, hle⟩ := h
  split
  · next hlt =>
    refine ⟨⟨a, List.mem_append_left _ ha, hword⟩, fun k hk => ?_⟩
    rcases List.mem_append.mp hk with hk | hk
    · exact hle k hk
    · rw [List.mem_singleton.mp hk]
      exact Nat.le_of_lt hlt
  · next hge =>
    have hge : (f i).toNat ≤ word.toNat := Nat.not_lt.mp hge
    refine ⟨⟨i, List.mem_append_right _ (List.mem_singleton_self i), rfl⟩, fun k hk => ?_⟩
    rcases List.mem_append.mp hk with hk | hk
    · exact hge.trans (hle k hk)
    · rw [List.mem_singleton.mp hk]

/-- A loop that gathers the entries with `p`, at most `cap` of them, and the least of their words,
with `l` and `word` so far. -/
def gatherLeast (f : ι → BitVec w) (p : ι → Prop) [DecidablePred p] (cap : ℕ) :
    List ι → List ι → BitVec w → List ι × BitVec w
  | [], l, word => (l, word)
  | i :: is, l, word =>
    if l.length < cap then
      if p i then
        gatherLeast f p cap is (l ++ [i])
          (if l ≠ [] then if word < f i then word else f i else f i)
      else gatherLeast f p cap is l word
    else (l, word)

/-- With room for all of them, the loop gathers every entry with `p`. -/
theorem gatherLeast_spec {p : ι → Prop} [DecidablePred p] {cap : ℕ} (is : List ι) :
    ∀ {l : List ι} {word : BitVec w}, l.length + (is.filter p).length ≤ cap →
      (l = [] ∨ LeastWord f l word) →
      (gatherLeast f p cap is l word).1 = l ++ is.filter p ∧
        ((gatherLeast f p cap is l word).1 = [] ∨
          LeastWord f (gatherLeast f p cap is l word).1 (gatherLeast f p cap is l word).2) := by
  induction is with
  | nil =>
    intro l word _ hmin
    exact ⟨(List.append_nil l).symm, hmin⟩
  | cons i is ih =>
    intro l word hcap hmin
    rw [gatherLeast]
    split
    · split
      · next hp =>
        have hcons : (i :: is).filter p = i :: is.filter p :=
          List.filter_cons_of_pos (decide_eq_true hp)
        rw [hcons] at hcap ⊢
        have hmin' : LeastWord f (l ++ [i])
            (if l ≠ [] then if word < f i then word else f i else f i) := by
          rcases hmin with rfl | hmin
          · exact leastWord_singleton i
          · obtain ⟨⟨a, ha, _⟩, _⟩ := id hmin
            rw [if_pos (List.ne_nil_of_mem ha)]
            exact hmin.concat i
        have hcap' : (l ++ [i]).length + (is.filter p).length ≤ cap := by
          rw [List.length_append, List.length_singleton]
          rw [List.length_cons] at hcap
          omega
        have hih := ih hcap' (.inr hmin')
        rwa [List.append_assoc, List.singleton_append] at hih
      · next hp =>
        have hcons : (i :: is).filter p = is.filter p :=
          List.filter_cons_of_neg (by simpa using hp)
        rw [hcons] at hcap ⊢
        exact ih hcap hmin
    · next hfull =>
      -- the loop stops early only when nothing is left to gather
      have hnil : ((i :: is).filter p).length = 0 := by omega
      rw [List.eq_nil_of_length_eq_zero hnil, List.append_nil]
      exact ⟨rfl, hmin⟩

end Least

/-! ## A pass over some entries of a table -/

/-- A loop that changes each entry of a list once. -/
theorem foldl_update {ι α : Type*} [DecidableEq ι] (f : ι → α → α) {l : List ι} (hl : l.Nodup)
    (g : ι → α) (k : ι) :
    l.foldl (fun g i => Function.update g i (f i (g i))) g k = if k ∈ l then f k (g k)
      else g k := by
  induction l generalizing g with
  | nil => rfl
  | cons i l ih =>
    obtain ⟨hi, hl⟩ := List.nodup_cons.mp hl
    rw [List.foldl_cons, ih hl]
    rcases eq_or_ne k i with rfl | hne
    · rw [if_neg hi, Function.update_self, if_pos (List.mem_cons_self ..)]
    · rw [Function.update_of_ne hne]
      simp only [List.mem_cons, hne, false_or]

end IsalCrypto.Lib
