import Tadpole.Framer

/-! The parser refines the framer: between two reads the client is where the framer is, whatever way
the stream was cut, as long as no rejected header leaves one that is accepted in front of it. -/
namespace Tadpole

open Stage

/-- Some CR in the buffer has a byte behind it, so what stands in front of the first is final. -/
def HasLine (b : Bytes) : Prop := ∃ l x t, b = l++CR::x::t

/-- Where a client that waits for its next read stands. -/
inductive Waits : Client → Stage → Prop
  | count {b : Bytes} : lineEnd b = none → (∀ x ∈ b.head?, x = 42) →
      Waits ⟨b,if b = [] then .unknown else .multibulk,0,-1,[]⟩ (line 0 [] b)
  | header {b : Bytes} {left : ℕ} {argv : List Bytes} : lineEnd b = none →
      Waits ⟨b,.multibulk,left+1,-1,argv⟩ (line (left+1) argv b)
  | body {b : Bytes} {left len : ℕ} {argv : List Bytes} : b.length < len+2 → len ≤ 512*1024*1024 →
      Waits ⟨b,.multibulk,left+1,len,argv⟩ (body (left+1) argv len b)
  | badCount {b : Bytes} {n : ℕ} : lineEnd b = some n → b.head? = some 42 → countOf (b.take n) = none →
      Waits ⟨b,.multibulk,0,-1,[]⟩ rejected
  | badHeader {b : Bytes} {left : ℕ} {argv : List Bytes} : HasLine b →
      Waits ⟨b,.multibulk,left+1,-1,argv⟩ rejected

/-- A complete bulk header that is accepted stands at the front of the buffer. -/
def HeaderAt (b : Bytes) : Prop := ∃ n len, lineEnd b = some n ∧ headerOf (b.take n) = some len

instance (b : Bytes) : Decidable (HeaderAt b) :=
  decidable_of_iff (((lineEnd b).bind fun n => headerOf (b.take n)).isSome = true) (by
    simp only [Option.isSome_iff_exists,Option.bind_eq_some_iff]
    exact exists_comm)

/-- The next read would parse bytes again that were parsed already. -/
def Rereads (c : Client) : Prop := c.multibulklen ≠ 0 ∧ c.bulklen = -1 ∧ HeaderAt c.querybuf

instance (c : Client) : Decidable (Rereads c) := inferInstanceAs (Decidable (_ ∧ _ ∧ _))

/-- What the framer makes of the buffer is what the parser did: it waits where the framer stands, or
it has one request, if any, and the framer does the rest from the start, with the bytes that the parser leaves. -/
def Does (bound : ℕ) (p : Option Parsed) (f : Stage × List (List Bytes × Bytes)) : Prop :=
  (∃ log c, p = some (.err log c) ∧ f.2 = [] ∧ Waits c f.1) ∨
    ∃ c, p = some (.ok c) ∧ c.querybuf.length ≤ bound ∧
      f = ((feedLeft start c.querybuf).1,
        (if c.argv = [] then [] else [(c.argv,c.querybuf)])++(feedLeft start c.querybuf).2)

/-- Bytes are parsed again only behind a line that was rejected. -/
theorem Waits.not_rereads {c : Client} {σ : Stage} (hw : Waits c σ) (h : σ ≠ rejected) : ¬ Rereads c := by
  cases hw with
  | count => exact fun hr => hr.1 rfl
  | header hend =>
    rintro ⟨-,-,n,len,hn,-⟩
    rw [hend] at hn
    cases hn
  | body hshort hlen =>
    rintro ⟨-,hb,-⟩
    dsimp only at hb
    omega
  | badCount => exact absurd rfl h
  | badHeader => exact absurd rfl h

theorem Waits.eq_createClient {c : Client} (hw : Waits c start) : c = createClient := by
  cases hw
  rfl

theorem take_line (l t : Bytes) : (l++t).take l.length = l := List.take_left

theorem digits_eq (s : Bytes) (n : ℕ) : (s.drop 1).take (n-1) = (s.take n).drop 1 := by
  rw [List.drop_take]

theorem bulkLength_length {s : Bytes} {len : ℕ} (h : bulkLength s = some len) :
    s.length ≤ 21 ∧ len ≤ 512*1024*1024 := by
  unfold bulkLength at h
  cases hs : string2ll s with
  | none => rw [hs] at h; cases h
  | some ll =>
    rw [hs] at h
    simp only [] at h
    split_ifs at h with hbad
    obtain rfl := Option.some.inj h
    exact ⟨string2ll_length hs,by omega⟩

theorem headerOf_some {l : Bytes} {len : ℕ} (h : headerOf l = some len) :
    l.head? = some 36 ∧ l.length ≤ 22 ∧ len ≤ 512*1024*1024 := by
  unfold headerOf at h
  split_ifs at h with hd
  obtain ⟨hlen,hmax⟩ := bulkLength_length h
  rw [List.length_drop] at hlen
  exact ⟨not_not.mp hd,by omega,hmax⟩

theorem countOf_some {l : Bytes} {k : ℕ} (h : countOf l = some k) :
    ∃ ll : ℤ, string2ll (l.drop 1) = some ll ∧ ll ≤ MAX_MULTIBULK ∧ k = ll.toNat ∧ l.length ≤ 22 := by
  unfold countOf at h
  cases hs : string2ll (l.drop 1) with
  | none => rw [hs] at h; cases h
  | some ll =>
    rw [hs] at h
    simp only [] at h
    split_ifs at h with hbad
    obtain rfl := Option.some.inj h
    have hlen := string2ll_length hs
    rw [List.length_drop] at hlen
    exact ⟨ll,rfl,not_lt.mp hbad,rfl,by omega⟩

theorem head?_line {s : Bytes} {n : ℕ} (h : lineEnd s = some n) {m : UInt8} (hm : m ≠ CR) :
    (s.take n).head? = some m ↔ s.head? = some m := by
  obtain ⟨l,x,t,rfl,rfl,-,-⟩ := lineEnd_some h
  rw [take_line]
  cases l with
  | nil => simp [hm.symm]
  | cons b l => simp

theorem strchr_le {s : Bytes} {n m : ℕ} (hcr : strchr CR s = some n) (h : ((s.take n).drop 1).length ≤ m) : n ≤ m+1 := by
  obtain ⟨a,t,hs,rfl,-,-⟩ := strchr_some hcr
  rw [hs,take_line,List.length_drop] at h
  omega

theorem lineEnd_of_accepted {s : Bytes} {n : ℕ} (hcr : strchr CR s = some n)
    (hfar : ¬ (n : ℤ) > int32 (int32 s.length-2)) (hshort : n ≤ 22) : lineEnd s = some n := by
  rw [lineEnd,hcr,Option.bind_some,if_pos]
  obtain ⟨a,t,hs,rfl,-,-⟩ := strchr_some hcr
  have hlong := congrArg List.length hs
  rw [List.length_append,List.length_cons] at hlong
  by_contra hend
  rw [int32_nat (by omega),int32_of_bounds (by omega) (by omega)] at hfar
  omega

section
variable {b : Bytes} (left : ℕ) (argv : List Bytes)

theorem readHeader_stuck (h : ¬ HeaderAt b) :
    readHeader ⟨b,.multibulk,left,-1,argv⟩ 0 = .more ∨
      ∃ log, readHeader ⟨b,.multibulk,left,-1,argv⟩ 0 = .error log := by
  rw [readHeader,if_neg (by simp)]
  simp only [Int.toNat_zero,List.drop_zero,zero_add]
  cases hcr : strchr CR b with
  | none =>
    simp only []
    split_ifs
    · exact Or.inr ⟨_,rfl⟩
    · exact Or.inl rfl
  | some n =>
    simp only []
    split_ifs with hfar hmark
    · exact Or.inl rfl
    · exact Or.inr ⟨_,rfl⟩
    · rw [digits_eq]
      cases hd : bulkLength ((b.take n).drop 1) with
      | none => exact Or.inr ⟨_,rfl⟩
      | some len =>
        -- the line would be complete
        have hl := (bulkLength_length hd).1
        have hend := lineEnd_of_accepted hcr hfar (strchr_le hcr hl)
        have hhead := (head?_line hend (by decide)).mpr (not_not.mp hmark)
        exact absurd ⟨n,len,hend,by rw [headerOf,if_neg (not_not.mpr hhead),hd]⟩ h

theorem bulkLoop_stuck (h : ¬ HeaderAt b) :
    ∃ log, bulkLoop (left+1) ⟨b,.multibulk,left+1,-1,argv⟩ 0 =
      some (.err log ⟨b,.multibulk,left+1,-1,argv⟩) := by
  rw [bulkLoop,if_neg (by simp)]
  rcases readHeader_stuck (left+1) argv h with hr | ⟨log,hr⟩
  · exact ⟨none,by rw [hr]; rfl⟩
  · exact ⟨some log,by rw [hr]⟩

end

/-- What `readHeader` finds in a buffer small enough for its offsets and its limit. -/
theorem readHeader_spec {b : Bytes} (left : ℕ) {pos : ℕ} (argv : List Bytes) (hpos : pos ≤ b.length)
    (hb : b.length ≤ 65536) :
    let c : Client := ⟨b,.multibulk,left,-1,argv⟩
    match lineEnd (b.drop pos) with
    | none => readHeader c pos = .more
    | some n =>
      match headerOf ((b.drop pos).take n) with
      | none => ∃ log, readHeader c pos = .error log
      | some len =>
        readHeader c pos = if len ≥ PROTO_MBULK_BIG_ARG
          then .known ⟨b.drop (pos+n+2),.multibulk,left,len,argv⟩ 0
          else .known ⟨b,.multibulk,left,len,argv⟩ ↑(pos+n+2) := by
  intro c
  have hint : int32 (int32 (b.length : ℕ)-2) = (b.length : ℤ)-2 := by
    rw [int32_nat (by omega),int32_of_bounds (by omega) (by omega)]
  have hread : readHeader c pos =
      match strchr CR (b.drop pos) with
      | none => .more
      | some n =>
        if (pos : ℤ)+n > (b.length : ℤ)-2 then .more
        else if (b.drop pos).head? ≠ some 36 then
          .error (str "Protocol error: Protocol error: expected '$', got '"++(b.drop pos).head?.toList++
            str "'")
        else
          match bulkLength (((b.drop pos).take n).drop 1) with
          | none => .error (str "Protocol error: invalid bulk length")
          | some ll =>
            if ll ≥ PROTO_MBULK_BIG_ARG then
              .known {c with querybuf := sdsrange b (int32 (pos+n+2)) (-1), bulklen := ll} 0
            else .known {c with bulklen := ll} (int32 (pos+n+2)) := by
    rw [readHeader,if_neg (by simp [c])]
    simp only [Int.toNat_natCast,c,hint,digits_eq]
    cases strchr CR (b.drop pos) with
    | none =>
      simp only []
      rw [if_neg (by rw [PROTO_INLINE_MAX_SIZE]; omega)]
    | some n => rfl
  rw [hread,lineEnd]
  cases hcr : strchr CR (b.drop pos) with
  | none => rfl
  | some n =>
    rw [Option.bind_some,List.length_drop]
    by_cases hfull : n+2 ≤ b.length-pos
    · have hend : lineEnd (b.drop pos) = some n := by
        rw [lineEnd,hcr,Option.bind_some,List.length_drop,if_pos hfull]
      rw [if_pos hfull]
      simp only []
      rw [if_neg (by omega),headerOf]
      have hmark := head?_line hend (m:=36) (by decide)
      by_cases hd : (b.drop pos).head? = some 36
      · rw [if_neg (not_not.mpr (hmark.mpr hd)),if_neg (not_not.mpr hd)]
        cases bulkLength (((b.drop pos).take n).drop 1) with
        | none => exact ⟨_,rfl⟩
        | some len =>
          have hoff : int32 (pos+n+2) = ((pos+n+2 : ℕ) : ℤ) := by
            rw [int32_of_bounds (by omega) (by omega)]
            omega
          simp only [hoff,c]
          rw [sdsrange_drop (by omega)]
      · rw [if_pos (fun h => hd (hmark.mp h)),if_pos hd]
        exact ⟨_,rfl⟩
    · rw [if_neg hfull]
      simp only []
      rw [if_pos (by omega)]

theorem trim_eq {b : Bytes} {left pos : ℕ} {len : ℤ} {argv : List Bytes} {rt : ReqType}
    (hb : b.length < 2147483648) :
    (⟨b,rt,left,len,argv⟩ : Client).trim pos = ⟨b.drop pos,rt,left,len,argv⟩ := by
  rw [Client.trim]
  by_cases h0 : pos = 0
  · subst h0
    simp
  · rw [if_neg (by omega),sdsrange_drop hb]

/-- From an offset in a small buffer the loop does what the framer does with the rest of it. -/
theorem bulkLoop_spec {b : Bytes} {left : ℕ} (pos : ℕ) {bound : ℕ} {argv : List Bytes} (hpos : pos ≤ b.length)
    (hb : b.length ≤ 65536) (hbound : bound ≤ PROTO_IOBUF_LEN) (hargv : left = 0 → argv ≠ [])
    (hnew : ∀ n, lineEnd (b.drop pos) = some n → b.length ≤ pos+n+2+bound)
    (hrest : left = 0 → b.length ≤ pos+bound) :
    Does bound (bulkLoop left ⟨b,.multibulk,left,-1,argv⟩ pos) (afterLeft left argv (b.drop pos)) := by
  induction left generalizing pos argv with
  | zero =>
    right
    refine ⟨⟨b.drop pos,.multibulk,0,-1,argv⟩,?_,?_,?_⟩
    · rw [bulkLoop,trim_eq (by omega)]
    · have := hrest rfl
      rw [List.length_drop]
      omega
    · rw [if_neg (hargv rfl)]
      rfl
  | succ left ih =>
    have hspec := readHeader_spec (left+1) argv hpos hb
    rw [afterLeft_succ,bulkLoop,if_neg (by simp only []; omega)]
    cases hend : lineEnd (b.drop pos) with
    | none =>
      simp only [hend] at hspec
      rw [hspec,feedLeft_quiet (feed_line_front hend (by simp))]
      exact Or.inl ⟨none,_,rfl,rfl,by rw [trim_eq (by omega)]; exact .header hend⟩
    | some n =>
      simp only [hend] at hspec
      have hn := hnew n hend
      obtain ⟨l,x,t,hs,rfl,hc,h0⟩ := lineEnd_some hend
      have hfeed : feedLeft (line (left+1) argv []) (l++CR::x::t) = feedLeft (endLine (left+1) argv l) t :=
        feedLeft_line_end hc h0 (by simp) x t
      have ht : b.drop (pos+l.length+2) = t := by
        rw [Nat.add_assoc,← List.drop_drop,hs]
        simp
      have hblen : b.length = pos+l.length+2+t.length := by
        have := congrArg List.length hs
        simp only [List.length_drop,List.length_append,List.length_cons] at this
        omega
      rw [hs,take_line] at hspec
      rw [hs,hfeed,endLine,if_neg (by simp)]
      cases hhead : headerOf l with
      | none =>
        simp only [hhead] at hspec
        obtain ⟨log,hlog⟩ := hspec
        rw [hlog,Option.elim_none,feedLeft_quiet (rejected_absorbing.feed t)]
        refine Or.inl ⟨some log,_,rfl,rfl,.badHeader ⟨b.take pos++l,x,t,?_⟩⟩
        rw [List.append_assoc,← hs,List.take_append_drop]
      | some len =>
        simp only [hhead] at hspec
        have hmax := (headerOf_some hhead).2.2
        rw [hspec,Option.elim_some]
        by_cases hbig : len ≥ PROTO_MBULK_BIG_ARG
        · have hbig' : 32768 ≤ len := hbig
          have hio : PROTO_IOBUF_LEN = 16384 := rfl
          rw [if_pos hbig,ht]
          simp only []
          rw [if_neg (by omega),if_pos (by omega),feedLeft_quiet (feed_body_front (by omega))]
          exact Or.inl ⟨none,_,rfl,rfl,.body (by omega) hmax⟩
        · rw [if_neg hbig]
          simp only []
          rw [if_neg (by omega)]
          by_cases hshort : t.length < len+2
          · rw [if_pos (by omega),feedLeft_quiet (feed_body_front hshort),trim_eq (by omega),ht]
            exact Or.inl ⟨none,_,rfl,rfl,.body hshort hmax⟩
          · rw [if_neg (by omega),if_neg (by omega)]
            have hsplit : t = t.take (len+2)++t.drop (len+2) := (List.take_append_drop ..).symm
            have hplen : (t.take (len+2)).length = len+2 := by
              rw [List.length_take]
              omega
            have hbody := feedLeft_body_end (left+1) argv hplen (t.drop (len+2))
            rw [← hsplit,Nat.add_sub_cancel] at hbody
            have harg : argument len (t.take (len+2)) = t.take len := by
              rw [argument,if_neg hbig,List.take_take,min_eq_left (by omega)]
            have hoff : int32 (((pos+l.length+2 : ℕ) : ℤ)+len+2) = ((pos+l.length+2+len+2 : ℕ) : ℤ) := by
              rw [int32_of_bounds (by omega) (by omega)]
              omega
            have hdrop : b.drop (pos+l.length+2+len+2) = t.drop (len+2) := by
              rw [← ht,List.drop_drop]
              congr 1
            rw [hbody,harg,Int.toNat_natCast,Int.toNat_natCast,ht,hoff]
            have hnext := @ih (pos+l.length+2+len+2) (argv++[t.take len]) (by omega) (by simp)
              (fun n' _ => by omega) (fun _ => by omega)
            rw [hdrop] at hnext
            exact hnext

end Tadpole
