import Mathlib.Data.Nat.Bitwise
import Mathlib.Tactic.Ring

/-! Words whose low bits are kept apart from the high ones, and words read from their lowest bit on: the low bits of a word
are the front of its reversal, so a count over reversals goes through the values of any number of low bits in turn. -/
namespace Bits

variable {w : ℕ}

/-- The lowest `k` bits. -/
def low (w k : ℕ) : BitVec w := BitVec.ofNat w (2^k-1)

theorem getLsbD_low (k i : ℕ) : (low w k).getLsbD i = (decide (i < w) && decide (i < k)) := by
  rw [low,BitVec.getLsbD_ofNat,Nat.testBit_two_pow_sub_one]

theorem toNat_and_not_low (k : ℕ) (x : BitVec w) : (x &&& ~~~low w k).toNat = 2^k*(x.toNat/2^k) := by
  refine Nat.eq_of_testBit_eq fun i => ?_
  rw [BitVec.testBit_toNat,BitVec.getLsbD_and,BitVec.getLsbD_not,getLsbD_low,Nat.testBit_two_pow_mul,
    Nat.testBit_div_two_pow,← BitVec.testBit_toNat]
  by_cases hi : k ≤ i
  · rw [Nat.sub_add_cancel hi]
    by_cases hw : i < w
    · simp [hi,hw]
    · rw [show x.toNat.testBit i = false from BitVec.getLsbD_of_ge x i (by omega)]
      simp
  · simp [hi,Nat.lt_of_not_le hi]

theorem and_xor_low {k k' : ℕ} (hkk' : k ≤ k') (x : BitVec w) :
    x &&& (low w k ^^^ low w k') = 0 ↔ x.toNat/2^k%2^(k'-k) = 0 := by
  have hbit : ∀ i, (x &&& (low w k ^^^ low w k')).getLsbD i = (decide (k ≤ i ∧ i < k') && x.getLsbD i) := by
    intro i
    rw [BitVec.getLsbD_and,BitVec.getLsbD_xor,getLsbD_low,getLsbD_low]
    by_cases hw : i < w
    · by_cases h₁ : i < k <;> by_cases h₂ : i < k' <;> simp [hw,h₁,h₂] <;> omega
    · simp [BitVec.getLsbD_of_ge x i (by omega)]
  have hzero : ∀ i, (0 : BitVec w).getLsbD i = false := fun i => BitVec.getLsbD_zero
  constructor
  · intro h
    refine Nat.zero_of_testBit_eq_false fun i => ?_
    rw [Nat.testBit_mod_two_pow,Nat.testBit_div_two_pow]
    by_cases hi : i < k'-k
    · have hz := hbit (i+k)
      rw [h,hzero] at hz
      rw [BitVec.testBit_toNat]
      simpa [hi,show k ≤ i+k ∧ i+k < k' by omega] using hz.symm
    · simp [hi]
  · intro h
    refine BitVec.eq_of_getLsbD_eq fun i hi => ?_
    rw [hbit,hzero]
    by_cases hmid : k ≤ i ∧ i < k'
    · have hz : (x.toNat/2^k%2^(k'-k)).testBit (i-k) = false := by rw [h,Nat.zero_testBit]
      rw [Nat.testBit_mod_two_pow,Nat.testBit_div_two_pow,Nat.sub_add_cancel hmid.1] at hz
      rw [BitVec.testBit_toNat] at hz
      simpa [hmid,show i-k < k'-k by omega] using hz
    · simp [hmid]

/-- The word behind all that agree with `x` in the low bits, in the order of the reversals. -/
def next (k : ℕ) (x : BitVec w) : BitVec w := ((x ||| ~~~low w k).reverse+1).reverse

theorem next_congr {k : ℕ} {x y : BitVec w} (h : x &&& low w k = y &&& low w k) : next k x = next k y := by
  have hor : ∀ z : BitVec w, z ||| ~~~low w k = (z &&& low w k) ||| ~~~low w k := by
    intro z
    refine BitVec.eq_of_getLsbD_eq fun i hi => ?_
    simp only [BitVec.getLsbD_or,BitVec.getLsbD_and,BitVec.getLsbD_not]
    cases z.getLsbD i <;> cases (low w k).getLsbD i <;> simp [hi]
  rw [next,next,hor x,hor y,h]

theorem reverse_zero : (0 : BitVec w).reverse = 0 := BitVec.reverse_eq_zero_iff.mpr rfl

section
variable {k : ℕ} (hk : k ≤ w)

include hk

theorem toNat_low : (low w k).toNat = 2^k-1 := by
  have hpos := Nat.two_pow_pos k
  have hle := Nat.pow_le_pow_right (show 0 < 2 by decide) hk
  rw [low,BitVec.toNat_ofNat,Nat.mod_eq_of_lt (by omega)]

theorem toNat_and_low (x : BitVec w) : (x &&& low w k).toNat = x.toNat%2^k := by
  rw [BitVec.toNat_and,toNat_low hk,Nat.and_two_pow_sub_one_eq_mod]

theorem toNat_or_low (x : BitVec w) : (x ||| low w k).toNat = 2^k*(x.toNat/2^k)+(2^k-1) := by
  have hpos := Nat.two_pow_pos k
  refine Nat.eq_of_testBit_eq fun i => ?_
  rw [BitVec.toNat_or,toNat_low hk,Nat.testBit_or,Nat.testBit_two_pow_sub_one,
    Nat.testBit_two_pow_mul_add _ (by omega),Nat.testBit_two_pow_sub_one]
  split_ifs with hi
  · simp [hi]
  · simp only [hi,decide_false,Bool.or_false,Nat.testBit_div_two_pow]
    rw [Nat.sub_add_cancel (by omega)]

theorem toNat_bump (x : BitVec w) (hx : 2^k*(x.toNat/2^k+1) < 2^w) :
    ((((x ||| low w k)+1) &&& ~~~low w k) ||| (x &&& low w k)).toNat = 2^k*(x.toNat/2^k+1)+x.toNat%2^k := by
  have hpos := Nat.two_pow_pos k
  have hsum : ((x ||| low w k)+1).toNat = 2^k*(x.toNat/2^k+1) := by
    have hone : (1 : BitVec w).toNat = 1%2^w := BitVec.toNat_ofNat ..
    have hbig : 1 < 2^w ∨ 2^w = 1 := by
      have := Nat.two_pow_pos w
      omega
    rcases hbig with hbig | hbig
    · rw [BitVec.toNat_add,toNat_or_low hk,hone,Nat.mod_eq_of_lt hbig]
      rw [show 2^k*(x.toNat/2^k)+(2^k-1)+1 = 2^k*(x.toNat/2^k+1) by rw [Nat.mul_succ]; omega]
      exact Nat.mod_eq_of_lt hx
    · have := Nat.le_mul_of_pos_right (2^k) (Nat.succ_pos (x.toNat/2^k))
      omega
  rw [BitVec.toNat_or,toNat_and_not_low,hsum,toNat_and_low hk,Nat.mul_div_cancel_left _ hpos]
  exact (Nat.two_pow_add_eq_or_of_lt (Nat.mod_lt _ hpos) _).symm

theorem reverse_or_not_low (x : BitVec w) : (x ||| ~~~low w k).reverse = x.reverse ||| low w (w-k) := by
  refine BitVec.eq_of_getLsbD_eq fun i hi => ?_
  rw [BitVec.getLsbD_reverse,BitVec.getLsbD_or,BitVec.getLsbD_reverse,getLsbD_low,BitVec.getMsbD_eq_getLsbD,
    BitVec.getMsbD_eq_getLsbD,BitVec.getLsbD_or,BitVec.getLsbD_not,getLsbD_low]
  have h₁ : w-1-i < w := by omega
  by_cases h₂ : i < w-k
  · simp [hi,h₁,h₂,show ¬ w-1-i < k by omega]
  · simp [hi,h₁,h₂,show w-1-i < k by omega]

theorem and_low_eq_iff (x y : BitVec w) :
    x &&& low w k = y &&& low w k ↔ x.reverse.toNat/2^(w-k) = y.reverse.toNat/2^(w-k) := by
  have hfront : ∀ (z : BitVec w) i, (z.reverse.toNat/2^(w-k)).testBit i = (decide (i < k) && z.getLsbD (k-1-i)) := by
    intro z i
    rw [Nat.testBit_div_two_pow,BitVec.testBit_toNat,BitVec.getLsbD_reverse,BitVec.getMsbD_eq_getLsbD]
    by_cases hi : i < k
    · rw [show w-1-(i+(w-k)) = k-1-i by omega]
      simp [hi,show i+(w-k) < w by omega]
    · simp [hi,show ¬ i+(w-k) < w by omega]
  constructor
  · intro h
    refine Nat.eq_of_testBit_eq fun i => ?_
    rw [hfront,hfront]
    by_cases hi : i < k
    · have hbit := congrArg (·.getLsbD (k-1-i)) h
      simp only [BitVec.getLsbD_and,getLsbD_low] at hbit
      simpa [hi,show k-1-i < w by omega,show k-1-i < k by omega] using hbit
    · simp [hi]
  · intro h
    refine BitVec.eq_of_getLsbD_eq fun i hi => ?_
    rw [BitVec.getLsbD_and,BitVec.getLsbD_and,getLsbD_low]
    by_cases hik : i < k
    · have hbit := congrArg (·.testBit (k-1-i)) h
      simp only [hfront] at hbit
      rw [show k-1-(k-1-i) = i by omega] at hbit
      simpa [hik,hi,show k-1-i < k by omega] using hbit
    · simp [hik]

theorem toNat_reverse_next (x : BitVec w) :
    (next k x).reverse.toNat = (x.reverse.toNat/2^(w-k)+1)*2^(w-k)%2^w := by
  have hpos := Nat.two_pow_pos (w-k)
  have hone : (1 : BitVec w).toNat = 1%2^w := BitVec.toNat_ofNat ..
  rw [next,BitVec.reverse_reverse_eq,reverse_or_not_low hk,BitVec.toNat_add,toNat_or_low (Nat.sub_le w k),hone,
    Nat.add_mod_mod,Nat.add_mul,Nat.one_mul,Nat.mul_comm]
  congr 1
  omega

theorem front_lt (x : BitVec w) : x.toNat/2^(w-k) < 2^k := by
  rw [Nat.div_lt_iff_lt_mul (Nat.two_pow_pos _),← Nat.pow_add,Nat.add_sub_cancel' hk]
  exact x.isLt

theorem next_cases (x : BitVec w) : next k x = 0 ∧ x.reverse.toNat/2^(w-k)+1 = 2^k ∨
    next k x ≠ 0 ∧ (next k x).reverse.toNat = (x.reverse.toNat/2^(w-k)+1)*2^(w-k) := by
  have hpow : 2^k*2^(w-k) = 2^w := by rw [← Nat.pow_add,Nat.add_sub_cancel' hk]
  have hrev := toNat_reverse_next hk x
  rcases Nat.eq_or_lt_of_le (front_lt hk x.reverse) with hlast | hless
  · rw [← Nat.succ_eq_add_one,hlast,hpow,Nat.mod_self] at hrev
    exact Or.inl ⟨BitVec.reverse_eq_zero_iff.mp (BitVec.eq_of_toNat_eq hrev),hlast⟩
  · have hlt : (x.reverse.toNat/2^(w-k)+1)*2^(w-k) < 2^w := by
      rw [← hpow]
      exact Nat.mul_lt_mul_of_pos_right hless (Nat.two_pow_pos _)
    rw [Nat.mod_eq_of_lt hlt] at hrev
    refine Or.inr ⟨fun hz => ?_,hrev⟩
    rw [BitVec.reverse_eq_zero_iff.mpr hz,BitVec.toNat_zero] at hrev
    exact absurd hrev (Nat.mul_pos (Nat.succ_pos _) (Nat.two_pow_pos _)).ne

theorem dvd_reverse {x : BitVec w} (h : x.toNat < 2^k) : 2^(w-k) ∣ x.reverse.toNat := by
  refine Nat.dvd_of_mod_eq_zero (Nat.zero_of_testBit_eq_false fun i => ?_)
  rw [Nat.testBit_mod_two_pow,BitVec.testBit_toNat,BitVec.getLsbD_reverse,BitVec.getMsbD_eq_getLsbD]
  by_cases hi : i < w-k
  · have hbit : x.getLsbD (w-1-i) = false := by
      rw [← BitVec.testBit_toNat]
      exact Nat.testBit_lt_two_pow (h.trans_le (Nat.pow_le_pow_right (by decide) (by omega)))
    simp [hbit]
  · simp [hi]

theorem next_gain {x : BitVec w} (hx : x.toNat < 2^k) (hne : next k x ≠ 0) {n : ℕ} (hn : 2^k ≤ n) :
    x.reverse.toNat*n+2^w ≤ (next k x).reverse.toNat*n := by
  obtain ⟨q,hq⟩ := dvd_reverse hk hx
  have hrev := ((next_cases hk x).resolve_left fun h => hne h.1).2
  have hword : 2^w ≤ 2^(w-k)*n := by
    calc 2^w = 2^(w-k)*2^k := by rw [← Nat.pow_add,Nat.sub_add_cancel hk]
      _ ≤ 2^(w-k)*n := Nat.mul_le_mul_left _ hn
  rw [hrev,hq,Nat.mul_div_cancel_left _ (Nat.two_pow_pos _),Nat.add_mul,Nat.one_mul,Nat.add_mul,Nat.mul_comm q]
  exact Nat.add_le_add_left hword _

theorem next_lt (x : BitVec w) : (next k x).toNat < 2^k := by
  refine Nat.lt_pow_two_of_testBit _ fun i hi => ?_
  by_cases hw : i < w
  · have hrev : (next k x).toNat.testBit i = (next k x).reverse.toNat.testBit (w-1-i) := by
      rw [BitVec.testBit_toNat,BitVec.testBit_toNat,BitVec.getLsbD_reverse,BitVec.getMsbD_eq_getLsbD]
      simp [show w-1-i < w by omega,show w-1-(w-1-i) = i by omega]
    rw [hrev,toNat_reverse_next hk,Nat.testBit_mod_two_pow,Nat.testBit_mul_two_pow]
    simp [show ¬ w-k ≤ w-1-i by omega]
  · exact BitVec.getLsbD_of_ge _ _ (by omega)

end

end Bits
