import Tadpole.CString

/-! `string2ll` accepts the canonical decimal numerals of the 64-bit integers and nothing else, and its
unsigned accumulator does not wrap on the way. -/
namespace Tadpole

open Decimal

/-- A digit 1-9 and further digits. -/
def Canonical (s : Bytes) : Prop := (∃ d t, s = d::t ∧ 49 ≤ d.toNat) ∧ ∀ b ∈ s, IsDigit b

/-- A canonical decimal numeral, with the 64-bit integer it denotes. -/
inductive Numeral : Bytes → ℤ → Prop
  | zero : Numeral [48] 0
  | positive {s : Bytes} : Canonical s → value 0 s ≤ 9223372036854775807 → Numeral s (value 0 s)
  | negative {s : Bytes} : Canonical s → value 0 s ≤ 9223372036854775808 → Numeral (45::s) (-(value 0 s : ℤ))

/-- What the multiplications and additions of the digit loop come to before they are cut to 64 bits. -/
def loopResults (v : ℕ) : Bytes → List ℕ
  | [] => []
  | b::s =>
    if IsDigit b then
      if v > 18446744073709551615/10 then []
      else
        v*10::
          match addDigit v b with
          | none => []
          | some w => (v*10%18446744073709551616+(b.toNat-48))::loopResults w s
    else []

/-- The same for the whole of `string2ll`. -/
def accumulated (s : Bytes) : List ℕ :=
  match if s.head? = some 45 then s.tail else s with
  | [] => []
  | b::s => if 49 ≤ b.toNat ∧ b.toNat ≤ 57 then loopResults (b.toNat-48) s else []

/-- The two guards let a digit pass exactly when the accumulator has room for it. -/
theorem addDigit_iff {v w : ℕ} {b : UInt8} (hb : IsDigit b) :
    addDigit v b = some w ↔ w = shift v b ∧ shift v b < 18446744073709551616 := by
  constructor
  · intro h
    have hlt := b.toNat_lt
    unfold addDigit at h
    by_cases h₁ : v > 18446744073709551615/10
    · rw [if_pos h₁] at h
      cases h
    rw [if_neg h₁,Nat.mod_eq_of_lt (by omega)] at h
    by_cases h₂ : v*10 > 18446744073709551615-(b.toNat-48)
    · rw [if_pos h₂] at h
      cases h
    rw [if_neg h₂,Nat.mod_eq_of_lt (by omega)] at h
    have he := Option.some.inj h
    rw [shift]
    omega
  · rintro ⟨rfl,hlt⟩
    exact addDigit_eq hb hlt

/-- The loop reads all bytes exactly when they are digits of a number below 2^64. -/
theorem digitLoop_iff {v w : ℕ} {s : Bytes} (hv : v < 18446744073709551616) : digitLoop v s = some (w,[]) ↔
    (∀ b ∈ s, IsDigit b) ∧ w = value v s ∧ value v s < 18446744073709551616 := by
  refine ⟨fun h => ?_,fun h => h.2.1 ▸ digitLoop_eq h.1 h.2.2⟩
  induction s generalizing v with
  | nil =>
    obtain ⟨rfl,-⟩ := Prod.mk.inj (Option.some.inj h)
    rw [value_nil]
    exact ⟨by simp,rfl,hv⟩
  | cons b s ih =>
    rw [digitLoop] at h
    by_cases hb : IsDigit b
    · rw [if_pos hb] at h
      cases ha : addDigit v b with
      | none =>
        rw [ha] at h
        cases h
      | some v' =>
        rw [ha] at h
        obtain ⟨rfl,hlt⟩ := (addDigit_iff hb).mp ha
        obtain ⟨hs,hw⟩ := ih hlt h
        rw [value_cons]
        exact ⟨List.forall_mem_cons.mpr ⟨hb,hs⟩,hw⟩
    · rw [if_neg hb] at h
      cases h

theorem loopResults_lt {v : ℕ} {s : Bytes} : ∀ x ∈ loopResults v s, x < 18446744073709551616 := by
  induction s generalizing v with
  | nil => simp [loopResults]
  | cons b s ih =>
    rw [loopResults]
    by_cases hb : IsDigit b
    · rw [if_pos hb]
      by_cases hmax : v > 18446744073709551615/10
      · rw [if_pos hmax]
        simp
      · rw [if_neg hmax]
        refine List.forall_mem_cons.mpr ⟨by omega,?_⟩
        cases ha : addDigit v b with
        | none => simp
        | some w =>
          have hlt := ((addDigit_iff hb).mp ha).2
          rw [shift] at hlt
          refine List.forall_mem_cons.mpr ⟨?_,ih⟩
          rwa [Nat.mod_eq_of_lt (by omega)]
    · rw [if_neg hb]
      simp

/-- Conversion of an unsigned 64-bit value to a `long long`. -/
def int64 (n : ℤ) : ℤ := (9223372036854775808+n)%18446744073709551616-9223372036854775808

theorem unsigned2ll_iff {negative : Bool} {s : Bytes} {n : ℤ} : unsigned2ll negative s = some n ↔
    Canonical s ∧ value 0 s ≤ (if negative then 9223372036854775808 else 9223372036854775807) ∧
      n = if negative then -(value 0 s : ℤ) else value 0 s := by
  cases s with
  | nil => exact iff_of_false (by simp [unsigned2ll]) (by simp [Canonical])
  | cons d s =>
    rw [unsigned2ll]
    by_cases hd : 49 ≤ d.toNat ∧ d.toNat ≤ 57
    · have hlt : d.toNat-48 < 18446744073709551616 := by omega
      have hval : value 0 (d::s) = value (d.toNat-48) s := by rw [value_cons,shift,Nat.zero_mul,Nat.zero_add]
      rw [if_pos hd,hval]
      constructor
      · intro h
        rcases hl : digitLoop (d.toNat-48) s with - | ⟨w,- | ⟨b,rest⟩⟩
        · rw [hl] at h
          cases h
        · obtain ⟨hs,rfl,-⟩ := (digitLoop_iff hlt).mp hl
          rw [hl] at h
          refine ⟨⟨⟨d,s,rfl,hd.1⟩,List.forall_mem_cons.mpr ⟨⟨by omega,hd.2⟩,hs⟩⟩,?_⟩
          cases negative with
          | true =>
            simp only [if_true] at h ⊢
            split_ifs at h with hmax
            exact ⟨not_lt.mp hmax,(Option.some.inj h).symm⟩
          | false =>
            simp only [Bool.false_eq_true,if_false] at h ⊢
            split_ifs at h with hmax
            exact ⟨not_lt.mp hmax,(Option.some.inj h).symm⟩
        · rw [hl] at h
          cases h
      · rintro ⟨⟨-,hs⟩,hmax,rfl⟩
        have hl := (digitLoop_iff (w := value (d.toNat-48) s) hlt).mpr
          ⟨(List.forall_mem_cons.mp hs).2,rfl,by split_ifs at hmax <;> omega⟩
        rw [hl]
        cases negative with
        | true =>
          simp only [if_true] at hmax ⊢
          rw [if_neg (not_lt.mpr hmax)]
        | false =>
          simp only [Bool.false_eq_true,if_false] at hmax ⊢
          rw [if_neg (not_lt.mpr hmax)]
    · rw [if_neg hd]
      refine iff_of_false (by simp) ?_
      rintro ⟨⟨⟨_,_,he,hmin⟩,hs⟩,-⟩
      obtain ⟨rfl,-⟩ := List.cons.inj he
      exact hd ⟨hmin,(hs _ (by simp)).2⟩

theorem Canonical.head {s : Bytes} (h : Canonical s) : s ≠ [48] ∧ ∀ t, s ≠ 45::t := by
  obtain ⟨⟨d,s,rfl,hd⟩,-⟩ := h
  refine ⟨fun he => ?_,fun t he => ?_⟩
  · obtain ⟨rfl,-⟩ := List.cons.inj he
    exact absurd hd (by decide)
  · obtain ⟨rfl,-⟩ := List.cons.inj he
    exact absurd hd (by decide)

theorem string2ll_minus (s : Bytes) : string2ll (45::s) = unsigned2ll true s := by
  rw [string2ll,if_neg (by simp)]

theorem string2ll_plain {s : Bytes} (h0 : s ≠ [48]) (h : ∀ t, s ≠ 45::t) : string2ll s = unsigned2ll false s := by
  rw [string2ll,if_neg h0]
  exact fun t he => h t he

theorem numeral_of_string2ll {s : Bytes} {n : ℤ} (h : string2ll s = some n) : Numeral s n := by
  by_cases h0 : s = [48]
  · subst h0
    obtain rfl : 0 = n := Option.some.inj h
    exact .zero
  · by_cases hminus : ∃ t, s = 45::t
    · obtain ⟨t,rfl⟩ := hminus
      obtain ⟨ht,hmax,rfl⟩ := unsigned2ll_iff.mp (string2ll_minus t ▸ h)
      exact .negative ht hmax
    · rw [string2ll_plain h0 (not_exists.mp hminus)] at h
      obtain ⟨hs,hmax,rfl⟩ := unsigned2ll_iff.mp h
      exact .positive hs hmax

theorem Numeral.string2ll {s : Bytes} {n : ℤ} (h : Numeral s n) : string2ll s = some n := by
  cases h with
  | zero => rfl
  | positive hs hmax =>
    rw [string2ll_plain hs.head.1 hs.head.2]
    exact unsigned2ll_iff.mpr ⟨hs,hmax,rfl⟩
  | negative hs hmax =>
    rw [string2ll_minus]
    exact unsigned2ll_iff.mpr ⟨hs,hmax,rfl⟩

theorem accumulated_lt (s : Bytes) : ∀ x ∈ accumulated s, x < 18446744073709551616 := by
  rw [accumulated]
  split
  · simp
  · split_ifs
    · exact loopResults_lt
    · simp

/-- `string2ll` accepts the canonical numerals of the 64-bit integers and nothing else, and no step of
its accumulation wraps. -/
theorem string2ll_canonical (s : Bytes) : (∀ n, string2ll s = some n ↔ Numeral s n) ∧
    ∀ x ∈ accumulated s, x < 18446744073709551616 :=
  ⟨fun _ => ⟨numeral_of_string2ll,Numeral.string2ll⟩,accumulated_lt s⟩

example : string2ll (str "-9223372036854775808") = some (-9223372036854775808) ∧
    string2ll (str "9223372036854775808") = none ∧ string2ll (str "-0") = none := by decide

theorem string2ll_nonneg {s : Bytes} {n : ℤ} (h : string2ll s = some n) (h0 : 0 ≤ n) : s = encode n.toNat := by
  cases numeral_of_string2ll h with
  | zero => rfl
  | positive hs _ => rw [Int.toNat_natCast,encode_value hs.2 hs.1]
  | @negative s hs _ =>
    have hzero : encode (value 0 s) = [48] := by
      rw [(by omega : value 0 s = 0),encode_zero]
    rw [encode_value hs.2 hs.1] at hzero
    exact absurd hzero hs.head.1

end Tadpole
