import Tadpole.FramerRefinement

/-! A read and the rounds of the input loop behind it, against the framer: first one call of the
parser, then the loop, then the reads of a connection. -/
namespace Tadpole

open Stage

theorem lineEnd_bound {b s : Bytes} {n : ℕ} (hb : lineEnd b = none) (h : lineEnd (b++s) = some n) :
    b.length < n+2 := by
  by_contra hlen
  obtain ⟨l,x,t,hs,rfl,hc,h0⟩ := lineEnd_some h
  obtain ⟨r,rfl⟩ : l++[CR,x] <+: b := by
    refine List.prefix_of_prefix_length_le (⟨t,by simp [hs]⟩ : _ <+: b++s) ⟨s,rfl⟩ ?_
    rw [List.length_append,List.length_cons,List.length_singleton]
    omega
  rw [List.append_assoc] at hb
  have hend : lineEnd (l++CR::x::r) = some l.length := lineEnd_line hc h0 x r
  exact absurd (hend.symm.trans hb) (by simp)

section
variable {b : Bytes} {bound : ℕ}

theorem waits_count (hend : lineEnd b = none) (hstar : b.head? = some 42) :
    Waits ⟨b,.multibulk,0,-1,[]⟩ (line 0 [] b) := by
  have hne : b ≠ [] := by
    rintro rfl
    cases hstar
  have hw := Waits.count hend fun x hx => Option.some.inj (hx.symm.trans hstar)
  rwa [if_neg hne] at hw

theorem CountLine.accepted {c : Client} {n : ℕ} {ll : ℤ} (h : CountLine c n ll) :
    lineEnd c.querybuf = some n ∧ countOf (c.querybuf.take n) = some ll.toNat := by
  have hnum := h.number
  rw [digits_eq] at hnum
  refine ⟨lineEnd_of_accepted h.cr h.whole (strchr_le h.cr (string2ll_length hnum)),?_⟩
  rw [countOf,hnum]
  dsimp only
  rw [if_neg h.limit]

theorem count_stuck (hstar : b.head? = some 42) (hbad : ∀ n, lineEnd b = some n → countOf (b.take n) = none) :
    ∃ log, processMultibulkBuffer ⟨b,.multibulk,0,-1,[]⟩ = some (.err log ⟨b,.multibulk,0,-1,[]⟩) := by
  have hno : ∀ {n ll}, ¬ CountLine ⟨b,.multibulk,0,-1,[]⟩ n ll := by
    intro n ll hline
    obtain ⟨hend,hcount⟩ := hline.accepted
    rw [hbad n hend] at hcount
    cases hcount
  have hcases := processMultibulkBuffer_cases ⟨b,.multibulk,0,-1,[]⟩
  generalize processMultibulkBuffer ⟨b,.multibulk,0,-1,[]⟩ = p at hcases
  cases hcases with
  | notReset _ hargv => exact absurd rfl hargv
  | noStar _ h => exact absurd hstar h
  | waits log _ _ => exact ⟨log,rfl⟩
  | blank hline _ => exact absurd hline hno
  | counted hline _ => exact absurd hline hno
  | resumed h => exact absurd rfl h

theorem parse_count (hstar : b.head? = some 42) (hbound : bound ≤ PROTO_IOBUF_LEN)
    (hnew : ∀ n k, lineEnd b = some n → countOf (b.take n) = some k → b.length ≤ n+2+bound) :
    Does bound (processMultibulkBuffer ⟨b,.multibulk,0,-1,[]⟩) (feedLeft start b) := by
  have hhead : ∀ x ∈ b.head?, x = 42 := fun x hx => Option.some.inj (hx.symm.trans hstar)
  cases hend : lineEnd b with
  | none =>
    have hfeed : feedLeft start b = (line 0 [] b,[]) := feedLeft_quiet (feed_line_front hend fun _ => hhead)
    obtain ⟨log,hlog⟩ := count_stuck hstar fun n hn => by cases hend.symm.trans hn
    rw [hfeed,hlog]
    exact Or.inl ⟨log,_,rfl,rfl,waits_count hend hstar⟩
  | some n =>
    obtain ⟨l,x,t,rfl,rfl,hc,h0⟩ := lineEnd_some hend
    have hline : l.head? = some 42 := by
      have := (head?_line hend (m:=42) (by decide)).mpr hstar
      rwa [take_line] at this
    have hfeed : feedLeft start (l++CR::x::t) = feedLeft (endLine 0 [] l) t :=
      feedLeft_line_end hc h0 (fun _ => hline) x t
    cases hcount : countOf l with
    | none =>
      have hbad : countOf ((l++CR::x::t).take l.length) = none := by rw [take_line,hcount]
      obtain ⟨log,hlog⟩ := count_stuck hstar fun n hn => Option.some.inj (hend.symm.trans hn) ▸ hbad
      rw [hlog,hfeed,endLine,if_pos rfl,hcount,Option.elim_none,feedLeft_quiet (rejected_absorbing.feed t)]
      exact Or.inl ⟨log,_,rfl,rfl,.badCount hend hstar hbad⟩
    | some k =>
      obtain ⟨ll,hll,hmax,rfl,hshort⟩ := countOf_some hcount
      have hlen := hnew l.length ll.toNat hend (by rw [take_line,hcount])
      have hio : PROTO_IOBUF_LEN = 16384 := rfl
      have hblen : (l++CR::x::t).length = l.length+2+t.length := by
        rw [List.length_append,List.length_cons,List.length_cons]
        omega
      have hfar : ¬ (l.length : ℤ) > int32 (int32 (l++CR::x::t).length-2) := by
        rw [int32_nat (by omega),int32_of_bounds (by omega) (by omega)]
        omega
      have hoff : int32 ((l.length : ℤ)+2) = ((l.length+2 : ℕ) : ℤ) := by
        rw [int32_of_bounds (by omega) (by omega)]
        omega
      have hdrop : (l++CR::x::t).drop (l.length+2) = t := by
        rw [← List.drop_drop,List.drop_left]
        rfl
      rw [hfeed,endLine,if_pos rfl,hcount,Option.elim_some,processMultibulkBuffer,if_pos rfl,
        if_neg (by simp),strchr_line hc h0]
      simp only []
      rw [if_neg hfar,if_neg (by rw [not_not]; exact hstar),digits_eq,take_line,hll]
      simp only []
      rw [if_neg (not_lt.mpr hmax)]
      by_cases hpos : ll ≤ 0
      · rw [if_pos hpos,hoff,sdsrange_drop (by omega),hdrop,Int.toNat_of_nonpos hpos]
        exact Or.inr ⟨_,rfl,by simp only []; omega,rfl⟩
      · obtain ⟨k,hk⟩ : ∃ k, ll.toNat = k+1 := Nat.exists_eq_succ_of_ne_zero (by omega)
        rw [if_neg hpos,hoff,enterLoop,if_neg (by simp only []; omega),hk]
        have hloop : Does bound (bulkLoop (k+1) ⟨l++CR::x::t,.multibulk,k+1,-1,[]⟩ ↑(l.length+2))
            (afterLeft (k+1) [] ((l++CR::x::t).drop (l.length+2))) :=
          bulkLoop_spec _ (by omega) (by omega) hbound (by simp) (fun n _ => by omega) (by simp)
        rw [hdrop] at hloop
        exact hloop

theorem parse_header {left : ℕ} {argv : List Bytes} (hbound : bound ≤ PROTO_IOBUF_LEN)
    (hnew : ∀ n, lineEnd b = some n → b.length ≤ n+2+bound) :
    Does bound (processMultibulkBuffer ⟨b,.multibulk,left+1,-1,argv⟩) (feedLeft (line (left+1) argv []) b) := by
  rw [processMultibulkBuffer,if_neg (by simp),enterLoop,if_neg (by simp)]
  by_cases hhead : HeaderAt b
  · obtain ⟨n,len,hend,hlen⟩ := hhead
    have hshort := (headerOf_some hlen).2.1
    have hb := hnew n hend
    have hio : PROTO_IOBUF_LEN = 16384 := rfl
    have hn : n ≤ 22 := by
      obtain ⟨l,x,t,rfl,rfl,-,-⟩ := lineEnd_some hend
      rwa [take_line] at hshort
    exact bulkLoop_spec 0 (by omega) (by omega) hbound (by simp) (fun n hn => by
      have := hnew n hn
      omega) (by simp)
  · obtain ⟨log,hlog⟩ := bulkLoop_stuck left argv hhead
    rw [hlog]
    refine Or.inl ⟨log,_,rfl,?_⟩
    cases hend : lineEnd b with
    | none =>
      rw [feedLeft_quiet (feed_line_front hend (by simp))]
      exact ⟨rfl,.header hend⟩
    | some n =>
      obtain ⟨l,x,t,rfl,rfl,hc,h0⟩ := lineEnd_some hend
      have hbad : headerOf l = none := by
        refine Option.eq_none_iff_forall_ne_some.mpr fun len hlen => hhead ⟨l.length,len,hend,?_⟩
        rw [take_line,hlen]
      rw [feedLeft_line_end hc h0 (by simp),endLine,if_neg (by simp),hbad,Option.elim_none,
        feedLeft_quiet (rejected_absorbing.feed t)]
      exact ⟨rfl,.badHeader ⟨l,x,t,rfl⟩⟩

theorem parse_body {left len : ℕ} {argv : List Bytes} (hbound : bound ≤ PROTO_IOBUF_LEN)
    (hlen : len ≤ 512*1024*1024) (hsmall : len < PROTO_MBULK_BIG_ARG → b.length ≤ len+2+bound)
    (hbig : PROTO_MBULK_BIG_ARG ≤ len → b.length ≤ len+2) :
    Does bound (processMultibulkBuffer ⟨b,.multibulk,left+1,len,argv⟩) (feedLeft (body (left+1) argv len []) b) := by
  have hio : PROTO_IOBUF_LEN = 16384 := rfl
  have hmb : PROTO_MBULK_BIG_ARG = 32768 := rfl
  rw [processMultibulkBuffer,if_neg (by simp),enterLoop,if_neg (by simp),bulkLoop,if_neg (by simp),
    readHeader,if_pos (by simp only []; omega)]
  simp only []
  rw [if_neg (by omega)]
  by_cases hshort : b.length < len+2
  · rw [if_pos (by omega),feedLeft_quiet (feed_body_front hshort)]
    exact Or.inl ⟨none,_,rfl,rfl,.body hshort hlen⟩
  · rw [if_neg (by omega)]
    have hsplit : b = b.take (len+2)++b.drop (len+2) := (List.take_append_drop ..).symm
    have hplen : (b.take (len+2)).length = len+2 := by
      rw [List.length_take]
      omega
    have hbody := feedLeft_body_end (left+1) argv hplen (b.drop (len+2))
    rw [← hsplit,Nat.add_sub_cancel] at hbody
    rw [hbody]
    by_cases hfat : PROTO_MBULK_BIG_ARG ≤ len
    · have hfit : b.length = len+2 := by
        have := hbig hfat
        omega
      have hall : b.take (len+2) = b := by rw [← hfit,List.take_length]
      have hrest : b.drop (len+2) = [] := by rw [← hfit,List.drop_length]
      rw [if_pos ⟨trivial,by omega,by rw [int32_nat (by omega)]; omega⟩,argument,if_pos hfat,hall,hrest]
      exact bulkLoop_spec (b:=[]) 0 (by simp) (by simp) hbound (by simp) (by simp) (by simp)
    · have hb := hsmall (not_le.mp hfat)
      have hoff : int32 ((0 : ℤ)+len+2) = ((len+2 : ℕ) : ℤ) := by
        rw [int32_of_bounds (by omega) (by omega)]
        omega
      rw [if_neg (by omega),argument,if_neg hfat,List.take_take,min_eq_left (by omega),hoff,
        Int.toNat_natCast]
      exact bulkLoop_spec (len+2) (by omega) (by omega) hbound (by simp) (fun n _ => by omega)
        (fun _ => by omega)

end

theorem readlen_le (c : Client) : readlen c ≤ PROTO_IOBUF_LEN := by
  rw [readlen]
  split_ifs
  · exact min_le_left ..
  · exact le_rfl

theorem readlen_body {b : Bytes} (left : ℕ) {len : ℕ} (argv : List Bytes) (hlen : len ≤ 512*1024*1024)
    (hshort : b.length < len+2) (hbig : PROTO_MBULK_BIG_ARG ≤ len) :
    readlen ⟨b,.multibulk,left+1,len,argv⟩ ≤ (len : ℤ)+2-b.length := by
  have hmb : PROTO_MBULK_BIG_ARG = 32768 := rfl
  rw [readlen,if_pos ⟨rfl,by simp,by simp only []; omega,by simp only []; omega⟩]
  simp only []
  rw [int32_of_bounds (by omega) (by omega)]
  exact min_le_right ..

theorem Stage.feedLeft_resume {σ₀ σ : Stage} {b : Bytes} (h : feed σ₀ b = (σ,[])) (s : Bytes) :
    feedLeft σ s = feedLeft σ₀ (b++s) := (Mealy.feedLeft_append step h s).symm

theorem Stage.feed_foreign (s : Bytes) : feed foreign s = (foreign,[]) := foreign_absorbing.feed s

theorem Stage.feed_start_foreign {s : Bytes} (hne : s ≠ []) (h : s.head? ≠ some 42) : feed start s = (foreign,[]) := by
  cases s with
  | nil => exact absurd rfl hne
  | cons b s =>
    have hstep : step start b = (foreign,none) := by
      rw [start,step,if_pos ⟨rfl,rfl,fun h42 => h (congrArg some h42)⟩]
    rw [feed_cons,hstep,feed_foreign]
    rfl

theorem not_headerAt_append {b : Bytes} (hline : HasLine b) (h : ¬ HeaderAt b) (s : Bytes) :
    ¬ HeaderAt (b++s) := by
  rintro ⟨n,len,hend,hlen⟩
  have hfront : lineEnd b = some n := by
    cases hb : lineEnd b with
    | none =>
      -- the CR of the buffer would be at the end of the line that is found only now
      obtain ⟨l,x,t,rfl⟩ := hline
      have hlen := lineEnd_bound hb hend
      obtain ⟨l',x',t',hs,rfl,hc,-⟩ := lineEnd_some hend
      rw [List.append_assoc] at hs
      have hl : l.length < l'.length := by
        rw [List.length_append,List.length_cons,List.length_cons] at hlen
        omega
      obtain ⟨r,rfl⟩ : l++[CR] <+: l' := by
        have hfront : l' <+: l++CR::x::t++s := ⟨CR::x'::t',by rw [List.append_assoc,hs]⟩
        refine List.prefix_of_prefix_length_le ⟨x::t++s,by simp⟩ hfront ?_
        · rw [List.length_append,List.length_singleton]
          omega
      simp at hc
    | some m =>
      have := lineEnd_append hb s
      rw [hend] at this
      exact this.symm
  refine h ⟨n,len,hfront,?_⟩
  obtain ⟨l,x,t,rfl,rfl,-,-⟩ := lineEnd_some hfront
  rw [List.append_assoc,take_line] at hlen
  rwa [take_line]

/-- A read is parsed as the framer takes it, if it is not longer than was asked for and begins no inline request. -/
theorem read_does {c : Client} {σ : Stage} {s : Bytes} (hw : Waits c σ) (hone : ¬ Rereads c) (hne : s ≠ [])
    (hlen : s.length ≤ readlen c) (hfirst : σ = start → s.head? = some 42) :
    Does (min PROTO_IOBUF_LEN ((c.querybuf++s).length-1))
      (parse (setReqtype {c with querybuf := c.querybuf++s})) (feedLeft σ s) := by
  have hpos : 0 < s.length := List.length_pos_iff.mpr hne
  have hio : PROTO_IOBUF_LEN = 16384 := rfl
  have hmax := hlen.trans (readlen_le c)
  cases hw with dsimp only
  | @count b hend hhead =>
    have hresume : feedLeft (line 0 [] b) s = feedLeft start (b++s) :=
      feedLeft_resume (feed_line_front hend fun _ => hhead) s
    rw [hresume]
    have hstar : (b++s).head? = some 42 := by
      cases b with
      | nil => exact hfirst rfl
      | cons x b => exact congrArg some (hhead x rfl)
    have hset : setReqtype ⟨b++s,if b = [] then .unknown else .multibulk,0,-1,[]⟩ =
        ⟨b++s,.multibulk,0,-1,[]⟩ := by
      rw [setReqtype]
      split_ifs <;> simp_all
    rw [hset]
    refine parse_count hstar (min_le_left ..) fun n k hn _ => ?_
    have := lineEnd_bound hend hn
    rw [List.length_append]
    omega
  | @header b left argv hend =>
    rw [feedLeft_resume (feed_line_front hend (by simp)) s]
    refine parse_header (min_le_left ..) fun n hn => ?_
    have := lineEnd_bound hend hn
    rw [List.length_append]
    omega
  | @body b left len argv hshort hbig =>
    rw [feedLeft_resume (feed_body_front hshort) s]
    refine parse_body (min_le_left ..) hbig (fun _ => ?_) fun hfat => ?_
    · rw [List.length_append]
      omega
    · have := readlen_body left argv hbig hshort hfat
      rw [List.length_append]
      omega
  | @badCount b n hend hstar hbad =>
    obtain ⟨l,x,t,rfl,rfl,-,-⟩ := lineEnd_some hend
    have hbad' : countOf ((l++CR::x::t++s).take l.length) = none := by
      rw [List.append_assoc,take_line]
      rwa [take_line] at hbad
    have hstar' : (l++CR::x::t++s).head? = some 42 := by
      rw [List.head?_append,hstar]
      rfl
    have hend' := lineEnd_append hend s
    obtain ⟨log,hlog⟩ := count_stuck hstar' fun n hn => Option.some.inj (hend'.symm.trans hn) ▸ hbad'
    rw [feedLeft_quiet (rejected_absorbing.feed s)]
    exact Or.inl ⟨log,_,hlog,rfl,.badCount hend' hstar' hbad'⟩
  | @badHeader b left argv hline =>
    have hno : ¬ HeaderAt b := fun h => hone ⟨by simp,rfl,h⟩
    obtain ⟨log,hlog⟩ := bulkLoop_stuck left argv (not_headerAt_append hline hno s)
    have hparse : processMultibulkBuffer ⟨b++s,.multibulk,left+1,-1,argv⟩ =
        some (.err log ⟨b++s,.multibulk,left+1,-1,argv⟩) := by
      rw [processMultibulkBuffer,if_neg (by simp),enterLoop,if_neg (by simp)]
      exact hlog
    obtain ⟨l,x,t,rfl⟩ := hline
    rw [feedLeft_quiet (rejected_absorbing.feed s)]
    exact Or.inl ⟨log,_,hparse,rfl,.badHeader ⟨l,x,t++s,by simp⟩⟩

end Tadpole
