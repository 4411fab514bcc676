import Tadpole.Assertions
import Tadpole.FramerRefinement

/-! The body of `while(c->multibulklen)` as a step of its own: which bytes a pass takes from the rest of the
buffer, and what it leaves. -/
namespace Tadpole

/-- A pass appends an argument and goes on at an offset, or it is the last. -/
inductive Pass
  | next (c : Client) (pos : ℤ)
  | stop (p : Option Parsed)

def bulkPass (c : Client) (pos : ℤ) : Pass :=
  if pos < 0 ∨ c.querybuf.length < pos then .stop none
  else
    match readHeader c pos with
    | .error log => .stop (some (.err (some log) c))
    | .more => .stop (some (.err none (c.trim pos)))
    | .known c pos =>
      if pos < 0 ∨ c.querybuf.length < pos then .stop none
      else if c.querybuf.length-pos < (c.bulklen+2)%4294967296 then .stop (some (.err none (c.trim pos)))
      else if pos = 0 ∧ c.bulklen ≥ PROTO_MBULK_BIG_ARG ∧ int32 c.querybuf.length = c.bulklen+2 then
        .next ⟨[],c.reqtype,c.multibulklen-1,-1,c.argv++[c.querybuf]⟩ 0
      else
        let arg := (c.querybuf.drop pos.toNat).take c.bulklen.toNat
        .next ⟨c.querybuf,c.reqtype,c.multibulklen-1,-1,c.argv++[arg]⟩ (int32 (pos+c.bulklen+2))

/-- The loop from some client and offset on makes so many passes and comes to this. -/
inductive BulkRun : Client → ℤ → ℕ → Option Parsed → Prop
  | done {c : Client} {pos : ℤ} : c.multibulklen = 0 → BulkRun c pos 0 (some (.ok (c.trim pos)))
  | stop {c : Client} {pos : ℤ} {p : Option Parsed} : c.multibulklen ≠ 0 → bulkPass c pos = .stop p → BulkRun c pos 1 p
  | next {c d : Client} {pos pos' : ℤ} {k : ℕ} {p : Option Parsed} : c.multibulklen ≠ 0 →
      bulkPass c pos = .next d pos' → BulkRun d pos' k p → BulkRun c pos (k+1) p

theorem bulkLoop_succ {n : ℕ} {c : Client} (hn : c.multibulklen = n+1) (pos : ℤ) :
    bulkLoop (n+1) c pos =
      match bulkPass c pos with
      | .next d pos' => bulkLoop n d pos'
      | .stop p => p := by
  rw [bulkLoop,bulkPass]
  by_cases hpos : pos < 0 ∨ (c.querybuf.length : ℤ) < pos
  · rw [if_pos hpos,if_pos hpos]
  · rw [if_neg hpos,if_neg hpos]
    cases hr : readHeader c pos with
    | error log => rfl
    | more => rfl
    | known d pos' =>
      have hd := (readHeader_known hr).2
      dsimp only
      rw [hd,hn,Nat.add_sub_cancel]
      split_ifs <;> rfl

theorem bulkPass_next {c d : Client} {pos pos' : ℤ} (h : bulkPass c pos = .next d pos') :
    d.reqtype = c.reqtype ∧ d.multibulklen = c.multibulklen-1 ∧ d.bulklen = -1 := by
  rw [bulkPass] at h
  split_ifs at h
  cases hr : readHeader c pos with
  | error log =>
    rw [hr] at h
    cases h
  | more =>
    rw [hr] at h
    cases h
  | known c' pos'' =>
    obtain ⟨ht,hm⟩ := readHeader_known hr
    rw [hr] at h
    dsimp only at h
    split_ifs at h
    · obtain ⟨rfl,-⟩ := Pass.next.inj h
      exact ⟨ht,congrArg (·-1) hm,rfl⟩
    · obtain ⟨rfl,-⟩ := Pass.next.inj h
      exact ⟨ht,congrArg (·-1) hm,rfl⟩

/-- The loop ends after at most `multibulklen` passes, and with what `bulkLoop` says. -/
theorem BulkRun.bounded {c : Client} {pos : ℤ} {k : ℕ} {p : Option Parsed} (h : BulkRun c pos k p) :
    k ≤ c.multibulklen ∧ bulkLoop c.multibulklen c pos = p := by
  induction h with
  | done hn =>
    rw [hn,bulkLoop]
    exact ⟨le_rfl,rfl⟩
  | @stop c pos p hn hp =>
    obtain ⟨n,hn'⟩ := Nat.exists_eq_succ_of_ne_zero hn
    rw [hn',bulkLoop_succ hn',hp]
    exact ⟨Nat.succ_le_succ (Nat.zero_le n),rfl⟩
  | @next c d pos pos' k p hn hp _ ih =>
    obtain ⟨n,hn'⟩ := Nat.exists_eq_succ_of_ne_zero hn
    have hd := (bulkPass_next hp).2.1
    rw [hn',Nat.succ_sub_one] at hd
    rw [hd] at ih
    rw [hn',bulkLoop_succ hn',hp]
    exact ⟨Nat.succ_le_succ ih.1,ih.2⟩

theorem bulkRun_exists (c : Client) (pos : ℤ) : ∃ k p, BulkRun c pos k p := by
  obtain ⟨n,hn⟩ : ∃ n, c.multibulklen = n := ⟨_,rfl⟩
  induction n generalizing c pos with
  | zero => exact ⟨0,_,.done hn⟩
  | succ n ih =>
    have h0 : c.multibulklen ≠ 0 := by omega
    cases hp : bulkPass c pos with
    | stop p => exact ⟨1,p,.stop h0 hp⟩
    | next d pos' =>
      have hd := (bulkPass_next hp).2.1
      obtain ⟨k,p,hrun⟩ := ih d pos' (by omega)
      exact ⟨k+1,p,.next h0 hp hrun⟩

/-- A payload length is known already, or the bytes start with a header line that gives it; the payload is
expected behind it. -/
inductive Takes (bulklen : ℤ) : Bytes → ℕ → Bytes → Prop
  | known {s : Bytes} {len : ℕ} : bulklen = len → Takes bulklen s len s
  | header {digits t : Bytes} {x : UInt8} {len : ℕ} : bulklen = -1 → CR ∉ digits → NUL ∉ digits →
      bulkLength digits = some len → Takes bulklen (36::(digits++CR::x::t)) len t

/-- What a pass may come to: the header line is rejected, the line or the payload is not complete, or an
argument is taken with the two bytes behind it. A big one that is all there is keeps these. -/
inductive PassTakes (c : Client) (s : Bytes) : Pass → Prop
  | rejected (log : Bytes) : c.bulklen = -1 → PassTakes c s (.stop (some (.err (some log) c)))
  | noLine : c.bulklen = -1 → PassTakes c s (.stop (some (.err none {c with querybuf := s})))
  | noPayload {len : ℕ} {t : Bytes} : Takes c.bulklen s len t → t.length < len+2 →
      PassTakes c s (.stop (some (.err none {c with querybuf := t, bulklen := len})))
  | argument {len : ℕ} {p a t b : Bytes} {pos : ℕ} : Takes c.bulklen s len (p++t) → p.length = len+2 →
      a = p.take len ∨ PROTO_MBULK_BIG_ARG ≤ len ∧ a = p → pos ≤ b.length → b.length ≤ c.querybuf.length →
      b.drop pos = t → pos = 0 ∨ (∃ u, b = u++(p++t)) →
      PassTakes c s (.next ⟨b,c.reqtype,c.multibulklen-1,-1,c.argv++[a]⟩ pos)

theorem trim_bulklen (c : Client) (pos : ℤ) : (c.trim pos).bulklen = c.bulklen := by
  rw [Client.trim]
  split_ifs <;> rfl

def BulkLengthOk (bulklen : ℤ) : Prop := bulklen = -1 ∨ 0 ≤ bulklen ∧ bulklen ≤ 512*1024*1024

theorem Takes.len_le {bulklen : ℤ} (hb : BulkLengthOk bulklen) {s t : Bytes} {len : ℕ} (h : Takes bulklen s len t) :
    len ≤ 512*1024*1024 := by
  cases h with
  | known hlen =>
    rw [BulkLengthOk] at hb
    omega
  | header _ _ _ hlen => exact (bulkLength_length hlen).2

theorem Takes.length_le {bulklen : ℤ} {s t : Bytes} {len : ℕ} (h : Takes bulklen s len t) : t.length ≤ s.length := by
  cases h with
  | known => exact le_rfl
  | header =>
    rw [List.length_cons,List.length_append,List.length_cons,List.length_cons]
    omega

theorem readHeader_takes {c c' : Client} {pos pos' : ℤ} (hlen : c.querybuf.length < 2147483648) (h0 : 0 ≤ pos)
    (hpos : pos ≤ c.querybuf.length) (hb : BulkLengthOk c.bulklen) (h : readHeader c pos = .known c' pos') :
    ∃ (len : ℕ) (b : Bytes) (k : ℕ), Takes c.bulklen (c.querybuf.drop pos.toNat) len (b.drop k) ∧
      c' = {c with querybuf := b, bulklen := len} ∧ pos' = k ∧ k ≤ b.length ∧ b.length ≤ c.querybuf.length := by
  obtain ⟨hne,rfl,rfl⟩ | ⟨n,ll,hline,hcr,hfar,hmark,hll,hcase⟩ := readHeader_cases h
  · obtain ⟨len,hlen'⟩ := Int.eq_ofNat_of_zero_le (hb.resolve_left hne).1
    obtain ⟨k,rfl⟩ := Int.eq_ofNat_of_zero_le h0
    refine ⟨len,c'.querybuf,k,.known hlen',?_,rfl,by omega,le_rfl⟩
    rw [← hlen']
  · obtain ⟨k,rfl⟩ := Int.eq_ofNat_of_zero_le h0
    rw [int32_nat hlen,int32_of_bounds (by omega) (by omega)] at hfar
    have hint : int32 ((k : ℤ)+n+2) = ((k+n+2 : ℕ) : ℤ) := int32_of_bounds (by omega) (by omega)
    rw [hint,sdsrange_drop hlen] at hcase
    rw [Int.toNat_natCast] at hcr hmark hll ⊢
    obtain ⟨l,t,hs,rfl,hc,h0⟩ := strchr_some hcr
    have hlong := congrArg List.length hs
    rw [List.length_drop,List.length_append,List.length_cons] at hlong
    cases t with
    | nil =>
      rw [List.length_nil] at hlong
      omega
    | cons x t =>
      cases l with
      | nil =>
        rw [hs] at hmark
        cases hmark
      | cons m digits =>
        rw [hs] at hmark hll
        obtain rfl : m = 36 := Option.some.inj hmark
        have hdigits : ((36::digits++CR::x::t).drop 1).take ((36::digits).length-1) = digits := List.take_left
        rw [hdigits] at hll
        have hrest : c.querybuf.drop (k+(36::digits).length+2) = t := by
          rw [Nat.add_assoc,← List.drop_drop,hs,← List.drop_drop,List.drop_left]
          rfl
        simp only [List.mem_cons,not_or] at hc
        have h0' := h0 (by decide)
        simp only [List.mem_cons,not_or] at h0'
        have htakes : ∀ (b : Bytes) (j : ℕ), b.drop j = t → Takes c.bulklen (c.querybuf.drop k) ll (b.drop j) := by
          intro b j hbj
          rw [hs,hbj]
          exact .header hline hc.2 h0'.2 hll
        obtain ⟨rfl,rfl⟩ | ⟨rfl,rfl⟩ := hcase
        · exact ⟨ll,_,0,htakes _ 0 (by rw [List.drop_zero,hrest]),rfl,rfl,Nat.zero_le _,by rw [List.length_drop]; omega⟩
        · exact ⟨ll,c.querybuf,_,htakes _ _ hrest,rfl,rfl,by omega,le_rfl⟩

theorem bulkPass_stop {c : Client} {pos : ℤ} {p : Parsed} (hb : BulkLengthOk c.bulklen)
    (h : bulkPass c pos = .stop (some p)) : ∃ log d, p = .err log d ∧ d.reqtype = c.reqtype ∧
      d.multibulklen = c.multibulklen ∧ BulkLengthOk d.bulklen := by
  rw [bulkPass] at h
  by_cases hpos : pos < 0 ∨ (c.querybuf.length : ℤ) < pos
  · rw [if_pos hpos] at h
    cases h
  rw [if_neg hpos] at h
  cases hr : readHeader c pos with
  | error log =>
    rw [hr] at h
    obtain rfl := Option.some.inj (Pass.stop.inj h)
    exact ⟨_,c,rfl,rfl,rfl,hb⟩
  | more =>
    rw [hr] at h
    obtain rfl := Option.some.inj (Pass.stop.inj h)
    exact ⟨_,_,rfl,trim_reqtype c pos,trim_multibulklen c pos,(trim_bulklen c pos).symm ▸ hb⟩
  | known c' pos' =>
    obtain ⟨ht,hm⟩ := readHeader_known hr
    have hb' : BulkLengthOk c'.bulklen := by
      obtain ⟨-,rfl,-⟩ | ⟨n,len,-,-,-,-,hlen,⟨rfl,-⟩ | ⟨rfl,-⟩⟩ := readHeader_cases hr
      · exact hb
      · exact Or.inr ⟨Int.natCast_nonneg len,by have := (bulkLength_length hlen).2; dsimp only; omega⟩
      · exact Or.inr ⟨Int.natCast_nonneg len,by have := (bulkLength_length hlen).2; dsimp only; omega⟩
    rw [hr] at h
    dsimp only at h
    by_cases hpos' : pos' < 0 ∨ (c'.querybuf.length : ℤ) < pos'
    · rw [if_pos hpos'] at h
      cases h
    rw [if_neg hpos'] at h
    split_ifs at h
    obtain rfl := Option.some.inj (Pass.stop.inj h)
    exact ⟨_,_,rfl,(trim_reqtype c' pos').trans ht,(trim_multibulklen c' pos').trans hm,(trim_bulklen c' pos').symm ▸ hb'⟩

theorem bulklen_of_not_known {c : Client} (pos : ℤ) (h : ∀ c' pos', readHeader c pos ≠ .known c' pos') :
    c.bulklen = -1 := by
  by_contra hlen
  exact h c pos (by rw [readHeader,if_pos hlen])

theorem trim_drop {c : Client} (hlen : c.querybuf.length < 2147483648) (pos : ℕ) :
    c.trim pos = {c with querybuf := c.querybuf.drop pos} := trim_eq hlen

/-- A pass over a buffer whose length fits an `int`: no offset leaves the buffer, and these are the bytes it
takes from what is behind the offset. -/
theorem bulkPass_takes {c : Client} {pos : ℕ} (hlen : c.querybuf.length < 2147483648) (hpos : pos ≤ c.querybuf.length)
    (hb : BulkLengthOk c.bulklen) : PassTakes c (c.querybuf.drop pos) (bulkPass c pos) := by
  rw [bulkPass,if_neg (by omega)]
  cases hr : readHeader c pos with
  | error log => exact .rejected log (bulklen_of_not_known (pos : ℤ) (by simp [hr]))
  | more =>
    rw [trim_drop hlen]
    exact .noLine (bulklen_of_not_known (pos : ℤ) (by simp [hr]))
  | known d pos' =>
    obtain ⟨len,b,k,htakes,rfl,rfl,hk,hblen⟩ := readHeader_takes hlen (Int.natCast_nonneg pos) (by omega) hb hr
    rw [Int.toNat_natCast] at htakes
    have hmax := htakes.len_le hb
    dsimp only
    rw [if_neg (by omega),Int.emod_eq_of_lt (by omega) (by omega)]
    have hrest : (b.drop k).length = b.length-k := List.length_drop
    by_cases hshort : (b.length : ℤ)-k < len+2
    · have hfew : (b.drop k).length < len+2 := by omega
      rw [if_pos hshort,trim_drop (by dsimp only; omega)]
      exact .noPayload htakes hfew
    · have hsplit : (b.drop k).take (len+2)++(b.drop k).drop (len+2) = b.drop k := List.take_append_drop _ _
      have hp : ((b.drop k).take (len+2)).length = len+2 := by
        rw [List.length_take]
        omega
      rw [← hsplit] at htakes
      rw [if_neg hshort]
      by_cases htake : (k : ℤ) = 0 ∧ (len : ℤ) ≥ (PROTO_MBULK_BIG_ARG : ℕ) ∧ int32 b.length = len+2
      · obtain ⟨hk0,hbig,hfit⟩ := htake
        rw [int32_nat (by omega)] at hfit
        obtain rfl : k = 0 := by omega
        have hall : (b.drop 0).take (len+2) = b := by
          rw [List.drop_zero,List.take_of_length_le (by omega)]
        have hnil : (b.drop 0).drop (len+2) = [] := List.drop_of_length_le (by rw [List.drop_zero]; omega)
        rw [if_pos ⟨hk0,hbig,by rw [int32_nat (by omega)]; exact hfit⟩]
        have hend : ([] : Bytes).drop 0 = (b.drop 0).drop (len+2) := hnil.symm
        exact .argument htakes hp (Or.inr ⟨Int.ofNat_le.mp hbig,hall.symm⟩) le_rfl (Nat.zero_le _) hend (Or.inl rfl)
      · rw [if_neg htake]
        have hint : int32 ((k : ℤ)+len+2) = ((k+(len+2) : ℕ) : ℤ) := by
          rw [int32_of_bounds (by omega) (by omega)]
          omega
        rw [hint,Int.toNat_natCast,Int.toNat_natCast]
        refine .argument htakes hp (Or.inl ?_) (by omega) hblen List.drop_drop.symm (Or.inr ⟨b.take k,?_⟩)
        · rw [List.take_take,min_eq_left (by omega)]
        · rw [hsplit,List.take_append_drop]

end Tadpole
