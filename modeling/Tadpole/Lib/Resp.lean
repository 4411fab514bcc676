import Tadpole.Lib.Decimal
import Mathlib.Data.List.Infix

/-! A reader of protocol replies: a status or error is the line up to the first line end, a bulk is as
long as its header announces. -/
namespace Resp

abbrev Bytes := List UInt8

abbrev EOL : Bytes := [13,10]

inductive Value
  | status (s : Bytes)
  | error (s : Bytes)
  | bulk (s : Bytes)
  | nil
  deriving DecidableEq

def splitLine : Bytes → Option (Bytes × Bytes)
  | [] => none
  | 13::10::s => some ([],s)
  | b::s => (splitLine s).map fun (l,r) => (b::l,r)

def readLength : Bytes → ℤ
  | 45::s => if s.all (Decimal.IsDigit ·) then -(Decimal.value 0 s : ℤ) else -1
  | 43::s => if s.all (Decimal.IsDigit ·) then Decimal.value 0 s else -1
  | s => if s.all (Decimal.IsDigit ·) then Decimal.value 0 s else -1

def read : Bytes → Option (Value × Bytes)
  | 43::s => (splitLine s).map fun (l,r) => (.status l,r)
  | 45::s => (splitLine s).map fun (l,r) => (.error l,r)
  | 36::s =>
    match splitLine s with
    | none => none
    | some (l,r) =>
      if readLength l < 0 then some (.nil,r)
      else if (readLength l).toNat+2 ≤ r.length then
        some (.bulk (r.take (readLength l).toNat),r.drop ((readLength l).toNat+2))
      else none
  | _ => none

def readN : ℕ → Bytes → Option (List Value × Bytes)
  | 0, s => some ([],s)
  | n+1, s =>
    match read s with
    | none => none
    | some (v,r) => (readN n r).map fun (vs,t) => (v::vs,t)

theorem splitLine_cons {b : UInt8} {s : Bytes} (h : ¬ (b = 13 ∧ ∃ t, s = 10::t)) :
    splitLine (b::s) = (splitLine s).map fun (l,r) => (b::l,r) := by
  conv_lhs => unfold splitLine
  split
  · contradiction
  · rename_i s' he
    obtain ⟨rfl,rfl⟩ := List.cons.inj he
    exact absurd ⟨rfl,_,rfl⟩ h
  · rename_i he
    obtain ⟨rfl,rfl⟩ := List.cons.inj he
    rfl

theorem splitLine_clean {s : Bytes} (h : ¬ EOL <:+: s) (r : Bytes) :
    splitLine (s++EOL++r) = some (s,r) := by
  induction s with
  | nil => rfl
  | cons b s ih =>
    have hs : ¬ EOL <:+: s := fun hi => h (hi.trans (List.suffix_cons b s).isInfix)
    have hb : ¬ (b = 13 ∧ ∃ t, s++EOL++r = 10::t) := by
      rintro ⟨rfl,t,ht⟩
      cases s with
      | nil => simp at ht
      | cons c s =>
        obtain ⟨rfl,-⟩ := List.cons.inj ht
        exact h ⟨[],s,rfl⟩
    rw [List.cons_append,List.cons_append,splitLine_cons hb,ih hs]
    rfl

/-- Bytes with a line end are cut short there. -/
theorem splitLine_dirty {s : Bytes} (h : EOL <:+: s) (r : Bytes) :
    ∃ l t, splitLine (s++r) = some (l,t) ∧ l.length < s.length ∧ l <+: s := by
  induction s with
  | nil => simp at h
  | cons b s ih =>
    by_cases hb : b = 13 ∧ ∃ t, s = 10::t
    · obtain ⟨rfl,t,rfl⟩ := hb
      exact ⟨[],t++r,rfl,by simp,List.nil_prefix⟩
    · have hs : EOL <:+: s := by
        rcases List.infix_cons_iff.mp h with hp | hi
        · obtain ⟨t,ht⟩ := hp
          obtain ⟨rfl,rfl⟩ := List.cons.inj ht
          exact absurd ⟨rfl,t,rfl⟩ hb
        · exact hi
      obtain ⟨l,t,hl,hlen,hpre⟩ := ih hs
      have hb' : ¬ (b = 13 ∧ ∃ t, s++r = 10::t) := by
        rintro ⟨rfl,t',ht⟩
        cases s with
        | nil => simp at hs
        | cons c s =>
          obtain ⟨rfl,-⟩ := List.cons.inj ht
          exact hb ⟨rfl,s,rfl⟩
      refine ⟨b::l,t,?_,by simpa using hlen,by simpa using hpre⟩
      rw [List.cons_append,splitLine_cons hb',hl]
      rfl

theorem clean_of_notMem {s : Bytes} (h : (13 : UInt8) ∉ s) : ¬ EOL <:+: s :=
  fun hi => h (hi.subset (by simp))

theorem digits_clean {s : Bytes} (h : ∀ b ∈ s, Decimal.IsDigit b) : ¬ EOL <:+: s :=
  clean_of_notMem fun hm => absurd (h 13 hm) (by decide)

theorem eol_cons {b : UInt8} (hb : b ≠ 13) (s : Bytes) : EOL <:+: b::s ↔ EOL <:+: s := by
  refine ⟨fun h => ?_,fun h => h.trans (List.suffix_cons b s).isInfix⟩
  rcases List.infix_cons_iff.mp h with ⟨t,ht⟩ | hi
  · exact absurd (List.cons.inj ht).1.symm hb
  · exact hi

theorem eol_append {s t : Bytes} : EOL <:+: s++t ↔
    EOL <:+: s ∨ EOL <:+: t ∨ (s.getLast? = some 13 ∧ t.head? = some 10) := by
  constructor
  · rintro ⟨a,b,he⟩
    rw [List.append_assoc] at he
    rcases List.append_eq_append_iff.mp he with ⟨c,rfl,hc⟩ | ⟨c,rfl,rfl⟩
    · match c, hc with
      | [], hc => exact Or.inr (Or.inl ⟨[],b,hc⟩)
      | [_], hc =>
        simp only [List.cons_append,List.nil_append,List.cons.injEq] at hc
        obtain ⟨rfl,rfl⟩ := hc
        exact Or.inr (Or.inr (by simp))
      | _::_::c, hc =>
        simp only [List.cons_append,List.nil_append,List.cons.injEq] at hc
        obtain ⟨rfl,rfl,-⟩ := hc
        exact Or.inl ⟨a,c,by simp⟩
    · exact Or.inr (Or.inl ⟨c,b,by simp⟩)
  · rintro (h | h | ⟨hs,ht⟩)
    · exact h.trans (List.prefix_append s t).isInfix
    · exact h.trans (List.suffix_append s t).isInfix
    · obtain ⟨a,rfl⟩ := List.getLast?_eq_some_iff.mp hs
      obtain ⟨b,rfl⟩ := List.head?_eq_some_iff.mp ht
      exact ⟨a,b,by simp⟩

theorem readLength_encode (n : ℕ) : readLength (Decimal.encode n) = n := by
  have hd := Decimal.encode_isDigit n
  have hv := Decimal.value_encode n
  unfold readLength
  split
  · rename_i s he
    exact absurd (hd 45 (by rw [he]; simp)) (by decide)
  · rename_i s he
    exact absurd (hd 43 (by rw [he]; simp)) (by decide)
  · rw [if_pos (by simpa using hd),hv]

theorem read_status {s : Bytes} (h : ¬ EOL <:+: s) (r : Bytes) :
    read ([43]++s++EOL++r) = some (.status s,r) := by
  have := splitLine_clean h r
  simp only [List.append_assoc,List.cons_append,List.nil_append] at this ⊢
  rw [read,this]
  rfl

theorem read_error {s : Bytes} (h : ¬ EOL <:+: s) (r : Bytes) :
    read ([45]++s++EOL++r) = some (.error s,r) := by
  have := splitLine_clean h r
  simp only [List.append_assoc,List.cons_append,List.nil_append] at this ⊢
  rw [read,this]
  rfl

theorem read_bulk (s r : Bytes) :
    read ([36]++Decimal.encode s.length++EOL++s++EOL++r) = some (.bulk s,r) := by
  have hl := splitLine_clean (digits_clean (Decimal.encode_isDigit s.length)) (s++EOL++r)
  have hn := readLength_encode s.length
  simp only [List.append_assoc,List.cons_append,List.nil_append] at hl ⊢
  rw [read]
  simp only [hl,hn]
  rw [if_neg (by omega),if_pos (by simp)]
  simp only [Int.toNat_natCast]
  rw [List.take_left,List.drop_append]
  simp

theorem read_nil (r : Bytes) : read ([36,45,49]++EOL++r) = some (.nil,r) := by
  have hl : splitLine ([45,49]++EOL++r) = some ([45,49],r) := splitLine_clean (by decide) r
  simp only [List.cons_append,List.nil_append] at hl ⊢
  have hneg : readLength [45,49] < 0 := by decide
  rw [read]
  simp only [hl]
  rw [if_pos hneg]

/-- A status line with a line end inside is read short. -/
theorem read_status_dirty {s : Bytes} (h : EOL <:+: s) (r : Bytes) :
    ∃ l t, read ([43]++s++r) = some (.status l,t) ∧ l ≠ s := by
  obtain ⟨l,t,hl,hlen,-⟩ := splitLine_dirty h r
  refine ⟨l,t,?_,by rintro rfl; omega⟩
  rw [List.cons_append,List.nil_append,List.cons_append,read,hl]
  rfl

end Resp
