import Mathlib.Algebra.Order.Group.Nat
import Mathlib.Data.List.Induction
import Mathlib.Tactic.Ring

/-! Decimal numerals as ASCII bytes: writing a natural number, reading digits back, and the
canonical form that makes the two inverse to each other. -/
namespace Decimal

def digit (d : ℕ) : UInt8 := UInt8.ofNat (48+d)

def IsDigit (b : UInt8) : Prop := 48 ≤ b.toNat ∧ b.toNat ≤ 57

instance (b : UInt8) : Decidable (IsDigit b) := inferInstanceAs (Decidable (_ ∧ _))

theorem digit_toNat {d : ℕ} (h : d < 10) : (digit d).toNat = 48+d := by
  simp only [digit,UInt8.toNat_ofNat']
  omega

theorem isDigit_digit {d : ℕ} (h : d < 10) : IsDigit (digit d) := by
  have hd := digit_toNat h
  exact ⟨by omega,by omega⟩

/-- The digits of `v`, least significant first; the first argument bounds their number. -/
def revDigits : ℕ → ℕ → List UInt8
  | 0, _ => []
  | n+1, v => digit (v%10) :: if v/10 = 0 then [] else revDigits n (v/10)

def encode (v : ℕ) : List UInt8 := (revDigits (v+1) v).reverse

/-- One more digit behind the number `acc`. -/
def shift (acc : ℕ) (b : UInt8) : ℕ := acc*10+(b.toNat-48)

/-- The number a list of digits denotes, continuing from `acc`. -/
def value (acc : ℕ) (s : List UInt8) : ℕ := s.foldl shift acc

@[simp] theorem value_nil (acc : ℕ) : value acc [] = acc := by simp only [value,List.foldl_nil]

@[simp] theorem value_cons (acc : ℕ) (b : UInt8) (s : List UInt8) :
    value acc (b::s) = value (shift acc b) s := by simp only [value,List.foldl_cons]

theorem value_append (acc : ℕ) (s t : List UInt8) :
    value acc (s++t) = value (value acc s) t := by simp only [value,List.foldl_append]

theorem shift_digit {d : ℕ} (acc : ℕ) (h : d < 10) : shift acc (digit d) = acc*10+d := by
  have hd := digit_toNat h
  unfold shift
  omega

theorem le_value (acc : ℕ) (s : List UInt8) : acc ≤ value acc s := by
  induction s generalizing acc with
  | nil => simp
  | cons b s ih => exact (by unfold shift; omega : acc ≤ shift acc b).trans (ih _)

theorem revDigits_stable {v n m : ℕ} (hn : v < n) (hm : v < m) :
    revDigits n v = revDigits m v := by
  induction n generalizing v m with
  | zero => omega
  | succ n ih =>
    obtain ⟨m,rfl⟩ : ∃ k, m = k+1 := ⟨m-1,by omega⟩
    simp only [revDigits]
    split_ifs with h
    · rfl
    · rw [ih (m:=m) (by omega) (by omega)]

theorem encode_lt {v : ℕ} (h : v < 10) : encode v = [digit v] := by
  simp [encode,revDigits,Nat.mod_eq_of_lt h,Nat.div_eq_of_lt h]

theorem encode_ge {v : ℕ} (h : 10 ≤ v) : encode v = encode (v/10)++[digit (v%10)] := by
  have hs : revDigits v (v/10) = revDigits (v/10+1) (v/10) :=
    revDigits_stable (by omega) (by omega)
  have hz : v/10 ≠ 0 := by omega
  rw [encode,revDigits,if_neg hz,hs,List.reverse_cons]
  rfl

theorem digits_induction {P : ℕ → Prop} (hlt : ∀ v, v < 10 → P v)
    (hge : ∀ v, 10 ≤ v → P (v/10) → P v) (v : ℕ) : P v := by
  induction v using Nat.strong_induction_on with
  | _ v ih =>
    by_cases h : v < 10
    · exact hlt v h
    · exact hge v (by omega) (ih (v/10) (by omega))

theorem encode_isDigit (v : ℕ) : ∀ b ∈ encode v, IsDigit b := by
  induction v using digits_induction with
  | hlt v h => simpa [encode_lt h] using isDigit_digit h
  | hge v h ih =>
    intro b hb
    rw [encode_ge h,List.mem_append,List.mem_singleton] at hb
    rcases hb with hb | rfl
    · exact ih b hb
    · exact isDigit_digit (by omega)

@[simp] theorem value_encode (v : ℕ) : value 0 (encode v) = v := by
  induction v using digits_induction with
  | hlt v h => simp [encode_lt h,shift_digit 0 h]
  | hge v h ih =>
    rw [encode_ge h,value_append,ih,value_cons,value_nil,shift_digit _ (by omega)]
    omega

theorem encode_head (v : ℕ) (hv : v ≠ 0) : ∃ d s, encode v = d::s ∧ 49 ≤ d.toNat := by
  induction v using digits_induction with
  | hlt v h => exact ⟨digit v,[],encode_lt h,by rw [digit_toNat h]; omega⟩
  | hge v h ih =>
    obtain ⟨d,s,hs,hd⟩ := ih (by omega)
    exact ⟨d,s++[digit (v%10)],by rw [encode_ge h,hs]; rfl,hd⟩

@[simp] theorem encode_zero : encode 0 = [48] := rfl

theorem encode_injective : Function.Injective encode := fun v w h => by
  simpa using congrArg (value 0) h

theorem encode_value {s : List UInt8} (hs : ∀ b ∈ s, IsDigit b) (hhead : ∃ d t, s = d::t ∧ 49 ≤ d.toNat) :
    encode (value 0 s) = s := by
  induction s using List.reverseRecOn with
  | nil =>
    obtain ⟨d,t,hnil,-⟩ := hhead
    cases hnil
  | append_singleton s b ih =>
    obtain ⟨hb₁,hb₂⟩ := hs b (by simp)
    have hdigit : digit (b.toNat-48) = b := by
      rw [← UInt8.toNat_inj,digit_toNat (by omega)]
      omega
    rw [value_append,value_cons,value_nil,shift]
    cases s with
    | nil => rw [value_nil,encode_lt (by omega),Nat.zero_mul,Nat.zero_add,hdigit,List.nil_append]
    | cons c s =>
      obtain ⟨d,t,ht,hd⟩ := hhead
      obtain ⟨rfl,-⟩ := List.cons.inj ht
      have hprev := ih (fun x hx => hs x (List.mem_append_left _ hx)) ⟨c,s,rfl,hd⟩
      have hpos : value 0 (c::s) ≠ 0 := by
        intro h0
        rw [h0,encode_zero] at hprev
        obtain ⟨rfl,-⟩ := List.cons.inj hprev
        exact absurd hd (by decide)
      have hdiv : (value 0 (c::s)*10+(b.toNat-48))/10 = value 0 (c::s) := by omega
      have hmod : (value 0 (c::s)*10+(b.toNat-48))%10 = b.toNat-48 := by omega
      rw [encode_ge (by omega),hdiv,hmod,hprev,hdigit]

end Decimal
