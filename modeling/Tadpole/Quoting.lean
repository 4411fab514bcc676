import Tadpole.Sds

/-! `sdscatrepr` and `sdssplitargs`: a list of byte strings, quoted and joined by spaces, is read back as it was. -/
namespace Tadpole

def isprint (b : UInt8) : Bool := 32 ≤ b ∧ b ≤ 126

/-- A digit of `%02x`. -/
def hexChar (d : UInt8) : UInt8 := if d < 10 then d+48 else d+87

/-- One round of the loop of `sdscatrepr`. -/
def reprByte (b : UInt8) : Bytes :=
  if b = 92 ∨ b = 34 then [92,b]
  else if b = LF then [92,110]
  else if b = CR then [92,114]
  else if b = 9 then [92,116]
  else if b = 7 then [92,97]
  else if b = 8 then [92,98]
  else if isprint b then [b]
  else [92,120,hexChar (b/16),hexChar (b%16)]

def sdscatrepr (s p : Bytes) : Bytes := s++([34]++p.flatMap reprByte++[34])

/-- `sdsjoinsds`: a separator behind every element but the last. -/
def sdsjoinsds (argv : List Bytes) (sep : Bytes) : Bytes := sep.intercalate argv

/-- The words of a command line as `redis-cli` would print them, `sdsempty()` being quoted behind. -/
def quoteLine (argv : List Bytes) : Bytes := sdsjoinsds (argv.map (sdscatrepr [])) [SPACE]

theorem byte_eq_ofNat (b : UInt8) : ∃ n : Fin 256, b = UInt8.ofNat n := ⟨⟨b.toNat,b.toNat_lt⟩,by simp⟩

theorem hex_digits (b : UInt8) : isHexDigit (hexChar (b/16)) = true ∧ isHexDigit (hexChar (b%16)) = true ∧
    hexDigitToInt (hexChar (b/16))*16+hexDigitToInt (hexChar (b%16)) = b := by
  obtain ⟨n,rfl⟩ := byte_eq_ofNat b
  revert n
  decide +kernel

/-- Whatever stands in front of a space or at the end, the escapes of a byte give the byte. -/
theorem splitArgs_reprByte (current : Bytes) (vector : List Bytes) (b : UInt8) (s : Bytes) :
    splitArgs .inq current vector (reprByte b++s) = splitArgs .inq (current++[b]) vector s := by
  rw [reprByte]
  split_ifs with h₁ h₂ h₃ h₄ h₅ h₆ h₇
  · rcases h₁ with rfl | rfl <;> simp [splitArgs,unescape]
  · subst h₂
    simp [splitArgs,unescape]
  · subst h₃
    simp [splitArgs,unescape]
  · subst h₄
    simp [splitArgs,unescape]
  · subst h₅
    simp [splitArgs,unescape]
  · subst h₆
    simp [splitArgs,unescape]
  · rw [not_or] at h₁
    simp [splitArgs,h₁]
  · obtain ⟨ha,hb,hval⟩ := hex_digits b
    simp [splitArgs,ha,hb,hval]

theorem splitArgs_repr (current : Bytes) (vector : List Bytes) (p s : Bytes) :
    splitArgs .inq current vector (p.flatMap reprByte++s) = splitArgs .inq (current++p) vector s := by
  induction p generalizing current with
  | nil => simp
  | cons b p ih => rw [List.flatMap_cons,List.append_assoc,splitArgs_reprByte,ih,List.append_assoc]; rfl

/-- A quoted word in front of the end or of a space. -/
theorem splitArgs_word (vector : List Bytes) (p s : Bytes) (hs : closesToken s = true) :
    splitArgs .blank [] vector (sdscatrepr [] p++s) = splitArgs .blank [] (vector++[p]) s := by
  rw [sdscatrepr,List.nil_append,List.append_assoc,List.append_assoc,List.singleton_append]
  have hopen : splitArgs .blank [] vector (34::(p.flatMap reprByte++([34]++s))) =
      splitArgs .inq [] vector (p.flatMap reprByte++([34]++s)) := by
    simp [splitArgs,isspace]
  rw [hopen,splitArgs_repr]
  simp [splitArgs,hs]

@[simp] theorem quoteLine_nil : quoteLine [] = [] := rfl

theorem quoteLine_singleton (p : Bytes) : quoteLine [p] = sdscatrepr [] p := by
  simp [quoteLine,sdsjoinsds]

theorem quoteLine_cons (p q : Bytes) (argv : List Bytes) :
    quoteLine (p::q::argv) = sdscatrepr [] p++SPACE::quoteLine (q::argv) := by
  simp [quoteLine,sdsjoinsds,List.intercalate]

theorem splitArgs_quoteLine (vector argv : List Bytes) :
    splitArgs .blank [] vector (quoteLine argv) = some (vector++argv) := by
  induction argv generalizing vector with
  | nil => simp [splitArgs]
  | cons p argv ih =>
    cases argv with
    | nil =>
      have h := splitArgs_word vector p [] rfl
      rw [List.append_nil] at h
      rw [quoteLine_singleton,h,splitArgs]
    | cons q argv =>
      rw [quoteLine_cons,splitArgs_word vector p _ rfl]
      have hblank : splitArgs .blank [] (vector++[p]) (SPACE::quoteLine (q::argv)) =
          splitArgs .blank [] (vector++[p]) (quoteLine (q::argv)) := by
        simp [splitArgs,isspace]
      rw [hblank,ih,List.append_assoc]
      rfl

theorem reprByte_isprint {b c : UInt8} (h : c ∈ reprByte b) : isprint c = true := by
  have hall : ∀ n < 256, (reprByte (UInt8.ofNat n)).all isprint = true := by decide +kernel
  obtain ⟨n,rfl⟩ := byte_eq_ofNat b
  exact List.all_eq_true.mp (hall n n.isLt) c h

theorem sdscatrepr_isprint {p : Bytes} {c : UInt8} (h : c ∈ sdscatrepr [] p) : isprint c = true := by
  simp only [sdscatrepr,List.nil_append,List.mem_append,List.mem_singleton,List.mem_flatMap] at h
  rcases h with (rfl | ⟨b,-,hc⟩) | rfl
  · rfl
  · exact reprByte_isprint hc
  · rfl

theorem quoteLine_isprint {argv : List Bytes} {c : UInt8} (h : c ∈ quoteLine argv) : isprint c = true := by
  induction argv with
  | nil => cases h
  | cons p argv ih =>
    cases argv with
    | nil => exact sdscatrepr_isprint (quoteLine_singleton p ▸ h)
    | cons q argv =>
      rw [quoteLine_cons,List.mem_append,List.mem_cons] at h
      rcases h with h | rfl | h
      · exact sdscatrepr_isprint h
      · rfl
      · exact ih h

theorem quoteLine_notMem {argv : List Bytes} {c : UInt8} (hc : isprint c = false) : c ∉ quoteLine argv := by
  intro h
  rw [quoteLine_isprint h] at hc
  cases hc

/-- Any words, of any bytes and also empty ones: quoted and joined by spaces they are read back. -/
theorem sdssplitargs_quoteLine (argv : List Bytes) : sdssplitargs (quoteLine argv) = some argv := by
  rw [sdssplitargs,cstr_eq_self (quoteLine_notMem rfl),splitArgs_quoteLine]
  rfl

end Tadpole
