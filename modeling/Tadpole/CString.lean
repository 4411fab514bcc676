import Tadpole.Lib.Decimal
import Mathlib.Data.List.Lex
import Mathlib.Data.List.TakeWhile

/-! Byte strings, the C library functions the server calls on them, and `string2ll` of util.c.
An sds string is the list of its bytes; the NUL behind its last byte is implicit. -/

instance UInt8.linearOrder : LinearOrder UInt8 where
  le_refl := UInt8.le_refl
  le_trans _ _ _ := UInt8.le_trans
  lt_iff_le_not_ge a b := by simp [UInt8.le_iff_toNat_le,UInt8.lt_iff_toNat_lt]; omega
  le_antisymm _ _ := UInt8.le_antisymm
  le_total := UInt8.le_total
  toDecidableLE := inferInstance

namespace Tadpole

abbrev Bytes := List UInt8

def str (s : String) : Bytes := s.toList.map fun c => UInt8.ofNat c.toNat

abbrev NUL : UInt8 := 0
abbrev LF : UInt8 := 10
abbrev CR : UInt8 := 13
abbrev SPACE : UInt8 := 32
abbrev CRLF : Bytes := [CR,LF]

/-- Conversion of an integer to a 32-bit `int`. -/
def int32 (n : ℤ) : ℤ := (2147483648+n)%4294967296-2147483648

theorem int32_of_bounds {n : ℤ} (h₁ : -2147483648 ≤ n) (h₂ : n < 2147483648) : int32 n = n := by
  unfold int32
  omega

theorem int32_nat {n : ℕ} (h : n < 2147483648) : int32 n = n := int32_of_bounds (by omega) (by omega)

/-- What a C function sees of a buffer: the bytes in front of the first NUL. -/
def cstr (s : Bytes) : Bytes := s.takeWhile (· ≠ NUL)

theorem cstr_eq_self {s : Bytes} (h : NUL ∉ s) : cstr s = s := by
  rw [cstr,List.takeWhile_eq_self_iff]
  intro b hb
  simpa using fun he : b = NUL => h (he ▸ hb)

theorem cstr_length_le (s : Bytes) : (cstr s).length ≤ s.length := (List.takeWhile_prefix _).length_le

/-- Offset of the first `c` in front of the terminating NUL. -/
def strchr (c : UInt8) : Bytes → Option ℕ
  | [] => none
  | b::s => if b = c then some 0 else if b = NUL then none else (strchr c s).map (·+1)

theorem strchr_append {c : UInt8} {s t : Bytes} (hc : c ∉ s) (h0 : NUL ∉ s) :
    strchr c (s++t) = (strchr c t).map (s.length+·) := by
  induction s with
  | nil => simp
  | cons b s ih =>
    simp only [List.mem_cons,not_or] at hc h0
    simp only [List.cons_append,strchr,if_neg (Ne.symm hc.1),if_neg (Ne.symm h0.1),
      ih hc.2 h0.2,Option.map_map,List.length_cons]
    congr 1
    funext n
    simp only [Function.comp_apply]
    omega

theorem strchr_none {c : UInt8} {s : Bytes} (hc : c ∉ s) : strchr c s = none := by
  induction s with
  | nil => rfl
  | cons b s ih =>
    simp only [List.mem_cons,not_or] at hc
    simp [strchr,Ne.symm hc.1,ih hc.2]

@[simp] theorem strchr_self (c : UInt8) (s : Bytes) : strchr c (c::s) = some 0 := by simp [strchr]

theorem strchr_some {c : UInt8} {s : Bytes} {n : ℕ} (h : strchr c s = some n) :
    ∃ a t, s = a++c::t ∧ a.length = n ∧ c ∉ a ∧ (c ≠ NUL → NUL ∉ a) := by
  induction s generalizing n with
  | nil => simp [strchr] at h
  | cons b s ih =>
    simp only [strchr] at h
    split_ifs at h with h₁ h₂
    · subst h₁
      obtain rfl : 0 = n := by simpa using h
      exact ⟨[],s,rfl,rfl,by simp,by simp⟩
    · obtain ⟨m,hm,rfl⟩ := Option.map_eq_some_iff.mp h
      obtain ⟨a,t,rfl,rfl,hc,h0⟩ := ih hm
      refine ⟨b::a,t,rfl,rfl,by simp [Ne.symm h₁,hc],fun hn => ?_⟩
      simpa [Ne.symm h₂] using h0 hn

def tolower (b : UInt8) : UInt8 := if 65 ≤ b ∧ b ≤ 90 then b+32 else b

/-- `strcasecmp(a,b) == 0` in the C locale. -/
def strcasecmp (a b : Bytes) : Bool := (cstr a).map tolower = (cstr b).map tolower

/-- The sign of `memcmp` on the first `n` bytes. -/
def memcmp : Bytes → Bytes → ℕ → Ordering
  | a::s, b::t, n+1 => if a < b then .lt else if b < a then .gt else memcmp s t n
  | _, _, _ => .eq

theorem memcmp_of_length_eq {s t : Bytes} (h : s.length = t.length) :
    (memcmp s t s.length = .lt ↔ s < t) ∧ (memcmp s t s.length = .eq ↔ s = t) := by
  induction s generalizing t with
  | nil =>
    obtain rfl : t = [] := List.length_eq_zero_iff.mp h.symm
    simp [memcmp]
  | cons a s ih =>
    cases t with
    | nil => simp at h
    | cons b t =>
      have hl : s.length = t.length := by simpa using h
      obtain ⟨h₁,h₂⟩ := ih hl
      simp only [memcmp,List.length_cons]
      rcases lt_trichotomy a b with hab | rfl | hab
      · simp [hab,hab.ne,List.cons_lt_cons_iff]
      · simp [h₁,h₂]
      · simp [hab,hab.not_gt,hab.ne',List.cons_lt_cons_iff]

/-- One round of the digit loop of `string2ll`: both overflow guards, then the two updates of
the unsigned 64-bit accumulator. -/
def addDigit (v : ℕ) (b : UInt8) : Option ℕ :=
  if v > 18446744073709551615/10 then none
  else if v*10%18446744073709551616 > 18446744073709551615-(b.toNat-48) then none
  else some ((v*10%18446744073709551616+(b.toNat-48))%18446744073709551616)

/-- The digit loop: the accumulator and the bytes it leaves unread, or an overflow. -/
def digitLoop (v : ℕ) : Bytes → Option (ℕ × Bytes)
  | [] => some (v,[])
  | b::s =>
    if Decimal.IsDigit b then
      match addDigit v b with
      | none => none
      | some v => digitLoop v s
    else some (v,b::s)

/-- Behind the sign: a first digit 1-9, the digit loop, and the range check of each sign. -/
def unsigned2ll (negative : Bool) : Bytes → Option ℤ
  | [] => none
  | b::s =>
    if 49 ≤ b.toNat ∧ b.toNat ≤ 57 then
      match digitLoop (b.toNat-48) s with
      | none => none
      | some (_,_::_) => none
      | some (v,[]) =>
        if negative then
          if v > 9223372036854775808 then none else some (-(v : ℤ))
        else
          if v > 9223372036854775807 then none else some v
    else none

/-- A numeral of exactly these bytes, or `none` where the C function returns 0. The branch for a
lone zero behind the sign test cannot be reached and is left out. -/
def string2ll (s : Bytes) : Option ℤ :=
  if s = [48] then some 0
  else match s with
    | 45::t => unsigned2ll true t
    | t => unsigned2ll false t

theorem addDigit_eq {v : ℕ} {b : UInt8} (hb : Decimal.IsDigit b)
    (h : Decimal.shift v b < 18446744073709551616) : addDigit v b = some (Decimal.shift v b) := by
  obtain ⟨h₁,h₂⟩ := hb
  unfold Decimal.shift at *
  unfold addDigit
  rw [if_neg (by omega),Nat.mod_eq_of_lt (by omega),if_neg (by omega),Nat.mod_eq_of_lt (by omega)]

theorem digitLoop_eq {v : ℕ} {s : Bytes} (hs : ∀ b ∈ s, Decimal.IsDigit b)
    (h : Decimal.value v s < 18446744073709551616) :
    digitLoop v s = some (Decimal.value v s,[]) := by
  induction s generalizing v with
  | nil => rw [digitLoop,Decimal.value_nil]
  | cons b s ih =>
    have hb := hs b (by simp)
    rw [Decimal.value_cons] at h ⊢
    have ha := addDigit_eq hb ((Decimal.le_value _ s).trans_lt h)
    rw [digitLoop,if_pos hb,ha]
    exact ih (fun c hc => hs c (by simp [hc])) h

/-- `string2ll` reads the numeral of every non-negative `long long`. -/
theorem string2ll_encode {n : ℕ} (h : n < 9223372036854775808) :
    string2ll (Decimal.encode n) = some (n : ℤ) := by
  by_cases h0 : n = 0
  · subst h0; rfl
  obtain ⟨d,s,hs,hd⟩ := Decimal.encode_head n h0
  have hall := Decimal.encode_isDigit n
  have hval := Decimal.value_encode n
  rw [hs] at hall hval
  obtain ⟨hd₁,hd₂⟩ := hall d (by simp)
  have hshift : Decimal.shift 0 d = d.toNat-48 := by simp [Decimal.shift]
  rw [Decimal.value_cons,hshift] at hval
  have hloop := digitLoop_eq (v:=d.toNat-48) (s:=s) (fun b hb => hall b (by simp [hb])) (by omega)
  have hne : d::s ≠ [48] := by
    rintro he
    obtain ⟨rfl,-⟩ := List.cons.inj he
    simp at hd
  have hminus : d ≠ 45 := by rintro rfl; simp at hd
  have hplain : string2ll (d::s) = unsigned2ll false (d::s) := by
    rw [string2ll,if_neg hne]
    exact fun t he => hminus (List.cons.inj he).1
  rw [hs,hplain,unsigned2ll,if_pos ⟨hd,hd₂⟩,hloop,hval]
  simp only [Bool.false_eq_true,if_false]
  rw [if_neg (by omega)]

theorem addDigit_ge {v w : ℕ} {b : UInt8} (h : addDigit v b = some w) :
    v*10 ≤ w ∧ w < 18446744073709551616 := by
  have hb := b.toNat_lt
  unfold addDigit at h
  by_cases h₁ : v > 18446744073709551615/10
  · rw [if_pos h₁] at h
    cases h
  rw [if_neg h₁,Nat.mod_eq_of_lt (by omega)] at h
  by_cases h₂ : v*10 > 18446744073709551615-(b.toNat-48)
  · rw [if_pos h₂] at h
    cases h
  rw [if_neg h₂,Nat.mod_eq_of_lt (by omega)] at h
  have he := Option.some.inj h
  omega

theorem digitLoop_ge {v w : ℕ} {s : Bytes} (hv : v < 18446744073709551616)
    (h : digitLoop v s = some (w,[])) : v*10^s.length ≤ w ∧ w < 18446744073709551616 := by
  induction s generalizing v with
  | nil =>
    obtain ⟨rfl,-⟩ := Prod.mk.inj (Option.some.inj h)
    simpa using hv
  | cons b s ih =>
    rw [digitLoop] at h
    split_ifs at h with hb
    · cases ha : addDigit v b with
      | none => rw [ha] at h; cases h
      | some v' =>
        rw [ha] at h
        obtain ⟨hge,hlt⟩ := addDigit_ge ha
        obtain ⟨hw,hmax⟩ := ih hlt h
        refine ⟨?_,hmax⟩
        calc v*10^(b::s).length = v*10*10^s.length := by rw [List.length_cons,pow_succ]; ring
          _ ≤ v'*10^s.length := Nat.mul_le_mul_right _ hge
          _ ≤ w := hw
    · simp at h

theorem unsigned2ll_length {negative : Bool} {s : Bytes} {n : ℤ} (h : unsigned2ll negative s = some n) :
    s.length ≤ 20 := by
  unfold unsigned2ll at h
  split at h
  · cases h
  · rename_i b s
    by_cases hb : 49 ≤ b.toNat ∧ b.toNat ≤ 57
    case neg =>
      rw [if_neg hb] at h
      cases h
    rw [if_pos hb] at h
    cases hl : digitLoop (b.toNat-48) s with
    | none => rw [hl] at h; cases h
    | some p =>
      obtain ⟨w,r⟩ := p
      rw [hl] at h
      cases r with
      | cons x r => cases h
      | nil =>
        obtain ⟨hge,hlt⟩ := digitLoop_ge (by omega) hl
        by_contra hlong
        rw [List.length_cons] at hlong
        have hpow : 10^20 ≤ 10^s.length := Nat.pow_le_pow_right (by decide) (by omega)
        have hone : 10^s.length ≤ (b.toNat-48)*10^s.length := Nat.le_mul_of_pos_left _ (by omega)
        omega

theorem string2ll_length {s : Bytes} {n : ℤ} (h : string2ll s = some n) : s.length ≤ 21 := by
  unfold string2ll at h
  split_ifs at h with h0
  · subst h0; decide
  · split at h
    · have := unsigned2ll_length h
      rw [List.length_cons]
      omega
    · have := unsigned2ll_length h
      omega

end Tadpole
