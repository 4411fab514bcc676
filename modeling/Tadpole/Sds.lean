import Tadpole.CString

/-! The functions of sds.c the server calls. Their offsets are `int`s although a string may be
longer than an `int` can say, so the conversions stand where the source has them. -/
namespace Tadpole

/-- `sdsrange(s,start,stop)`: negative offsets count from the end; both ends are included. -/
def sdsrange (s : Bytes) (start stop : ℤ) : Bytes :=
  let len := s.length
  if len = 0 then s
  else
    let start := if start < 0 then max (int32 (len+start)) 0 else start
    let stop := if stop < 0 then max (int32 (len+stop)) 0 else stop
    if start > stop then []
    else if start ≥ int32 len then []
    else if stop ≥ int32 len then
      let stop := int32 (len-1)
      if start > stop then [] else (s.drop start.toNat).take (stop-start+1).toNat
    else (s.drop start.toNat).take (stop-start+1).toNat

theorem sdsrange_drop {s : Bytes} {n : ℕ} (h : s.length < 2147483648) :
    sdsrange s n (-1) = s.drop n := by
  have hl := int32_nat h
  have hl' : int32 (s.length+(-1)) = (s.length : ℤ)-1 := int32_of_bounds (by omega) (by omega)
  unfold sdsrange
  by_cases h0 : s.length = 0
  · simp [List.length_eq_zero_iff.mp h0]
  · simp only [h0,if_false,hl,hl']
    rw [if_neg (by omega : ¬ (n : ℤ) < 0),if_pos (by omega : (-1 : ℤ) < 0),
      max_eq_left (by omega : (0 : ℤ) ≤ (s.length : ℤ)-1)]
    split_ifs with h₁ h₂ h₃ h₄
    · exact (List.drop_eq_nil_of_le (by omega)).symm
    · exact (List.drop_eq_nil_of_le (by omega)).symm
    · omega
    · omega
    · rw [Int.toNat_natCast,List.take_of_length_le]
      simp only [List.length_drop]
      omega

/-- `sdsrange(s,0,-2)` drops the last byte, except of a one-byte string. -/
theorem sdsrange_dropLast {s : Bytes} (h₁ : s.length ≠ 1) (h : s.length < 2147483648) :
    sdsrange s 0 (-2) = s.dropLast := by
  have hl := int32_nat h
  unfold sdsrange
  by_cases h0 : s.length = 0
  · simp [List.length_eq_zero_iff.mp h0]
  · have hl' : int32 (s.length+(-2)) = (s.length : ℤ)-2 := int32_of_bounds (by omega) (by omega)
    simp only [h0,if_false,hl,hl',lt_irrefl]
    rw [if_pos (by omega : (-2 : ℤ) < 0),max_eq_left (by omega : (0 : ℤ) ≤ (s.length : ℤ)-2),
      if_neg (by omega),if_neg (by omega),if_neg (by omega)]
    have hn : ((s.length : ℤ)-2-0+1).toNat = s.length-1 := by omega
    rw [hn,List.dropLast_eq_take,Int.toNat_zero,List.drop_zero]

/-- The sign of `sdscmp`: the first byte that differs decides, then the lengths. -/
def sdscmp (s₁ s₂ : Bytes) : Ordering :=
  match memcmp s₁ s₂ (min s₁.length s₂.length) with
  | .lt => .lt
  | .gt => .gt
  | .eq => if s₁.length < s₂.length then .lt else if s₂.length < s₁.length then .gt else .eq

@[simp] theorem sdscmp_cons (a b : UInt8) (s t : Bytes) :
    sdscmp (a::s) (b::t) = if a < b then .lt else if b < a then .gt else sdscmp s t := by
  simp only [sdscmp,List.length_cons,Nat.add_min_add_right,memcmp]
  by_cases h₁ : a < b
  · simp [h₁]
  · by_cases h₂ : b < a <;> simp [h₁,h₂]

/-- `sdscmp` is the lexicographic order, a proper prefix being smaller. -/
theorem sdscmp_order {s t : Bytes} : (sdscmp s t = .lt ↔ s < t) ∧ (sdscmp s t = .gt ↔ t < s) := by
  induction s generalizing t with
  | nil => cases t <;> simp [sdscmp,memcmp]
  | cons a s ih =>
    cases t with
    | nil => simp [sdscmp,memcmp]
    | cons b t =>
      obtain ⟨h₁,h₂⟩ := ih (t:=t)
      rw [sdscmp_cons]
      rcases lt_trichotomy a b with hab | rfl | hab
      · simp [hab,hab.ne',hab.not_gt,List.cons_lt_cons_iff]
      · simp [h₁,h₂]
      · simp [hab,hab.not_gt,hab.ne',List.cons_lt_cons_iff]

/-- `sdsll2str`: the decimal numeral of a `long long`. -/
def sdsll2str (n : ℤ) : Bytes :=
  if n < 0 then 45::Decimal.encode n.natAbs else Decimal.encode n.natAbs

@[simp] theorem sdsll2str_nat (n : ℕ) : sdsll2str n = Decimal.encode n := by simp [sdsll2str]

/-- `sdscatfmt` with its directives already expanded. The write position is an `int`: a result
of 2^31 bytes or more is written through a negative index, which is undefined behaviour. -/
def sdscatfmt (s : Bytes) (pieces : List Bytes) : Option Bytes :=
  if (s++pieces.flatten).length < 2147483648 then some (s++pieces.flatten) else none

theorem sdscatfmt_eq {s b : Bytes} {pieces : List Bytes} (h : sdscatfmt s pieces = some b) :
    b = s++pieces.flatten ∧ b.length < 2147483648 := by
  unfold sdscatfmt at h
  split_ifs at h with hlt
  obtain rfl := Option.some.inj h
  exact ⟨rfl,hlt⟩

/-- The tokens around each separator, the token under way being `cur`. -/
def splitByte (sep : UInt8) (cur : Bytes) : Bytes → List Bytes
  | [] => [cur]
  | b::s => if b = sep then cur::splitByte sep [] s else splitByte sep (cur++[b]) s

/-- `sdssplitlen(s,len,sep,1,&count)`: NULL for a negative length, no token for length 0. -/
def sdssplitlen (s : Bytes) (len : ℤ) (sep : UInt8) : Option (List Bytes) :=
  if len < 0 then none
  else if len = 0 then some []
  else some (splitByte sep [] (s.take len.toNat))

theorem splitByte_of_notMem {sep : UInt8} {cur s : Bytes} (h : sep ∉ s) :
    splitByte sep cur s = [cur++s] := by
  induction s generalizing cur with
  | nil => simp [splitByte]
  | cons b s ih =>
    simp only [List.mem_cons,not_or] at h
    simp [splitByte,Ne.symm h.1,ih h.2]

theorem splitByte_append {sep : UInt8} {cur s t : Bytes} (h : sep ∉ s) :
    splitByte sep cur (s++sep::t) = (cur++s)::splitByte sep [] t := by
  induction s generalizing cur with
  | nil => simp [splitByte]
  | cons b s ih =>
    simp only [List.mem_cons,not_or] at h
    simp [splitByte,Ne.symm h.1,ih h.2]

theorem front_inj {sep : UInt8} {a b x y : Bytes} (ha : sep ∉ a) (hb : sep ∉ b)
    (h : a++sep::x = b++sep::y) : a = b := by
  have he := congrArg (splitByte sep []) h
  rw [splitByte_append ha,splitByte_append hb,List.nil_append,List.nil_append] at he
  exact (List.cons.inj he).1

theorem splitByte_ne_nil (sep : UInt8) (cur s : Bytes) : splitByte sep cur s ≠ [] := by
  induction s generalizing cur with
  | nil => simp [splitByte]
  | cons b s ih =>
    simp only [splitByte]
    split_ifs
    · simp
    · exact ih _

theorem splitByte_two {sep : UInt8} {cur s k v : Bytes} (h : splitByte sep cur s = [k,v]) :
    ∃ t, cur++t = k ∧ s = t++sep::v ∧ sep ∉ t ∧ sep ∉ v := by
  induction s generalizing cur with
  | nil => simp [splitByte] at h
  | cons b s ih =>
    simp only [splitByte] at h
    split_ifs at h with hb
    · subst hb
      obtain ⟨rfl,hs⟩ := List.cons.inj h
      by_cases hv : b ∈ s
      · obtain ⟨t,r,rfl,ht⟩ := List.eq_append_cons_of_mem hv
        rw [splitByte_append ht] at hs
        exact absurd (List.cons.inj hs).2 (splitByte_ne_nil b [] r)
      · rw [splitByte_of_notMem hv] at hs
        simp only [List.nil_append,List.cons.injEq,and_true] at hs
        subst hs
        exact ⟨[],by simp,by simp,by simp,hv⟩
    · obtain ⟨t,hk,rfl,ht,hv⟩ := ih h
      exact ⟨b::t,by simpa using hk,rfl,by simp [Ne.symm hb,ht],hv⟩

def isspace (b : UInt8) : Bool := b = 32 ∨ (9 ≤ b ∧ b ≤ 13)

def isHexDigit (b : UInt8) : Bool :=
  (48 ≤ b ∧ b ≤ 57) ∨ (97 ≤ b ∧ b ≤ 102) ∨ (65 ≤ b ∧ b ≤ 70)

def hexDigitToInt (b : UInt8) : UInt8 :=
  if 48 ≤ b ∧ b ≤ 57 then b-48
  else if 97 ≤ b ∧ b ≤ 102 then b-87
  else if 65 ≤ b ∧ b ≤ 70 then b-55
  else 0

def unescape (b : UInt8) : UInt8 :=
  if b = 110 then 10 else if b = 114 then 13 else if b = 116 then 9
  else if b = 98 then 8 else if b = 97 then 7 else b

/-- Where `sdssplitargs` stands: between tokens, in a token, in double or single quotes. -/
inductive ArgMode
  | blank | plain | inq | insq
  deriving DecidableEq

def closesToken : Bytes → Bool
  | [] => true
  | b::_ => isspace b

/-- The scanner of `sdssplitargs`, with the token under way and the tokens behind it. -/
def splitArgs : ArgMode → Bytes → List Bytes → Bytes → Option (List Bytes)
  | .blank, _, vector, [] => some vector
  | .plain, current, vector, [] => some (vector++[current])
  | .inq, _, _, [] => none
  | .insq, _, _, [] => none
  | .inq, current, vector, 92::120::a::b::s =>
    if isHexDigit a ∧ isHexDigit b then
      splitArgs .inq (current++[hexDigitToInt a*16+hexDigitToInt b]) vector s
    else splitArgs .inq (current++[120]) vector (a::b::s)
  | .inq, current, vector, 92::c::s => splitArgs .inq (current++[unescape c]) vector s
  | .inq, current, vector, b::s =>
    if b = 34 then
      if closesToken s then splitArgs .blank [] (vector++[current]) s else none
    else splitArgs .inq (current++[b]) vector s
  | .insq, current, vector, 92::39::s => splitArgs .insq (current++[39]) vector s
  | .insq, current, vector, b::s =>
    if b = 39 then
      if closesToken s then splitArgs .blank [] (vector++[current]) s else none
    else splitArgs .insq (current++[b]) vector s
  | mode, current, vector, b::s =>
    if mode = .blank ∧ isspace b then splitArgs .blank [] vector s
    else if b = 32 ∨ b = 10 ∨ b = 13 ∨ b = 9 then splitArgs .blank [] (vector++[current]) s
    else if b = 34 then splitArgs .inq current vector s
    else if b = 39 then splitArgs .insq current vector s
    else splitArgs .plain (current++[b]) vector s

/-- `sdssplitargs`: the argument vector of a line, or NULL for unbalanced quotes. -/
def sdssplitargs (line : Bytes) : Option (List Bytes) := splitArgs .blank [] [] (cstr line)

example : sdssplitargs (str "set  \"a\\x41\" 'b c'") = some [str "set",str "aA",str "b c"] := by
  decide

end Tadpole
