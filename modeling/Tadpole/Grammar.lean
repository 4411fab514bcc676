import Tadpole.LoopTermination
import Tadpole.Numerals

/-! Which bytes of the stream a command that is executed has taken: the converse of decoding. The two bytes
behind a line or a payload are skipped and not looked at. -/
namespace Tadpole

def takenFrom (x d : Client) : Bytes := x.querybuf.take (x.querybuf.length-d.querybuf.length)

/-- The bytes taken so far for a request, and at its end the request with all of them. -/
def consume (taken : Bytes) (x : Client) : Bytes × Option (Event × Bytes) :=
  match parse x with
  | some (.ok d) => ([],if d.argv = [] then none else some (d.event,taken++takenFrom x d))
  | some (.err _ d) => (taken++takenFrom x d,none)
  | _ => (taken,none)

/-- The commands that a connection executes, each with the bytes consumed for it. -/
def consumed (exec : List Bytes → Status) (chunks : List Bytes) : List (Event × Bytes) :=
  (readAll exec createClient chunks).1.flatten.zip
    ((Mealy.feed consume [] (allCalls exec createClient chunks)).2.map Prod.snd)

/-- Every multibulk command was a request in which all lines and payloads have their line ends, and where no
argument is big, the encoding of `argv` itself. -/
structure GrammarExact (exec : List Bytes → Status) (chunks : List Bytes) : Prop where
  encoded : ∀ r ∈ consumed exec chunks, r.1.reqtype = .multibulk →
    (∀ a ∈ r.1.argv, a.length < PROTO_MBULK_BIG_ARG) → r.2 = encodeRequest r.1.argv
  terminated : ∀ r ∈ consumed exec chunks, r.1.reqtype = .multibulk → ∃ as, r.2 = encodeRequest as

/-- The length of a payload and the bytes it is expected in: the length is known, or a header line in front
gives it, with the two bytes behind the line. -/
def payloadAt (bulklen : ℤ) (s : Bytes) : Option (List Bytes × ℕ × Bytes) :=
  if bulklen = -1 then
    (lineEnd s).bind fun n => (headerOf (s.take n)).map fun len => ([(s.drop n).take 2],len,s.drop (n+2))
  else some ([],bulklen.toNat,s)

def skippedArgs : ℕ → ℤ → Bytes → List Bytes
  | 0, _, _ => []
  | n+1, bulklen, s =>
    match payloadAt bulklen s with
    | none => []
    | some (ends,len,t) =>
      ends++if t.length < len+2 then [] else (t.drop len).take 2::skippedArgs n (-1) (t.drop (len+2))

/-- The pairs of bytes that a call of the parser skips in a multibulk request. -/
def skipped (x : Client) : List Bytes :=
  if x.reqtype ≠ .multibulk then []
  else if x.multibulklen = 0 then
    match lineEnd x.querybuf with
    | none => []
    | some n =>
      match countOf (x.querybuf.take n) with
      | some (k+1) => (x.querybuf.drop n).take 2::skippedArgs (k+1) (-1) (x.querybuf.drop (n+2))
      | _ => []
  else skippedArgs x.multibulklen x.bulklen x.querybuf

/-- All that a call skips are line ends, in a buffer whose length fits an `int`. -/
def Client.SkipsEnds (x : Client) : Prop := ∀ e ∈ skipped x, e = CRLF ∧ x.querybuf.length < 2147483648

instance decidableSkipsEnds (x : Client) : Decidable x.SkipsEnds :=
  inferInstanceAs (Decidable (∀ e ∈ skipped x, e = CRLF ∧ x.querybuf.length < 2147483648))

/-- A read for which no bytes are parsed again, and all that its calls skip are line ends. -/
def SkipsLineEnds (exec : List Bytes → Status) (c : Client) (s : Bytes) : Prop :=
  ¬ Rereads c ∧ ∀ x ∈ readCalls exec c s, x.SkipsEnds

instance decidableSkipsLineEnds (exec : List Bytes → Status) (c : Client) (s : Bytes) :
    Decidable (SkipsLineEnds exec c s) := inferInstanceAs (Decidable (_ ∧ _))

def lengthLine (bulklen : ℤ) : Bytes := if bulklen = -1 then [] else str "$"++Decimal.encode bulklen.toNat++CRLF

theorem lengthLine_nat (len : ℕ) : lengthLine len = str "$"++Decimal.encode len++CRLF := by
  rw [lengthLine,if_neg (by omega),Int.toNat_natCast]

theorem bulkLength_encode {digits : Bytes} {len : ℕ} (h : bulkLength digits = some len) : digits = Decimal.encode len := by
  unfold bulkLength at h
  cases hs : string2ll digits with
  | none =>
    rw [hs] at h
    cases h
  | some ll =>
    rw [hs] at h
    dsimp only at h
    split_ifs at h with hbad
    obtain rfl := Option.some.inj h
    exact string2ll_nonneg hs (by omega)

theorem Takes.payloadAt {bulklen : ℤ} {s t : Bytes} {len : ℕ} (h : Takes bulklen s len t) :
    ∃ ends, Tadpole.payloadAt bulklen s = some (ends,len,t) ∧
      ((∀ e ∈ ends, e = CRLF) → lengthLine bulklen++s = lengthLine len++t) := by
  cases h with
  | known hlen =>
    subst hlen
    exact ⟨[],by rw [Tadpole.payloadAt,if_neg (by omega),Int.toNat_natCast],fun _ => rfl⟩
  | @header digits t x len hlen hc h0 hdigits =>
    subst hlen
    have hline : lineEnd (36::digits++CR::x::t) = some (36::digits).length :=
      lineEnd_line (List.not_mem_cons_of_ne_of_not_mem (by decide) hc)
        (List.not_mem_cons_of_ne_of_not_mem (by decide) h0) x t
    have hhead : headerOf (36::digits) = some len := by
      rw [headerOf,if_neg (by simp)]
      exact hdigits
    refine ⟨[[CR,x]],?_,fun hends => ?_⟩
    · rw [Tadpole.payloadAt,if_pos rfl,← List.cons_append,hline,Option.bind_some,take_line,hhead,← List.drop_drop,
        List.drop_left]
      rfl
    · have hpair : [CR,x] = CRLF := hends _ (by simp)
      obtain ⟨-,hx⟩ := List.cons.inj hpair
      obtain ⟨rfl,-⟩ := List.cons.inj hx
      rw [lengthLine_nat,bulkLength_encode hdigits,lengthLine,if_pos rfl]
      simp [str]

theorem Takes.skippedArgs {bulklen : ℤ} {s t : Bytes} {len : ℕ} (h : Takes bulklen s len t) (n : ℕ) :
    ∃ ends, skippedArgs (n+1) bulklen s =
        ends++(if t.length < len+2 then [] else (t.drop len).take 2::Tadpole.skippedArgs n (-1) (t.drop (len+2))) ∧
      ((∀ e ∈ ends, e = CRLF) → lengthLine bulklen++s = lengthLine len++t) := by
  obtain ⟨ends,hat,hline⟩ := h.payloadAt
  exact ⟨ends,by rw [Tadpole.skippedArgs,hat],hline⟩

/-- What an argument in `argv` was sent as: itself, or a big one that has kept its line end. -/
def SentAs (a s : Bytes) : Prop := s = a ∨ PROTO_MBULK_BIG_ARG ≤ s.length ∧ s = a++CRLF

def begun (as : List Bytes) (left : ℕ) (bulklen : ℤ) : Bytes :=
  str "*"++Decimal.encode (as.length+left)++CRLF++as.flatMap encodeArg++lengthLine bulklen

theorem begun_all (as : List Bytes) : begun as 0 (-1) = encodeRequest as := by
  rw [begun,lengthLine,if_pos rfl,List.append_nil,encodeRequest,Nat.add_zero]

theorem begun_line (as : List Bytes) (left : ℕ) {bulklen : ℤ} {len : ℕ} {s t : Bytes}
    (h : lengthLine bulklen++s = lengthLine len++t) : begun as left bulklen++s = begun as left len++t := by
  rw [begun,begun,List.append_assoc _ (lengthLine bulklen),h,← List.append_assoc]

theorem begun_next (as : List Bytes) (left : ℕ) (a : Bytes) :
    begun (as++[a]) left (-1) = begun as (left+1) a.length++a++CRLF := by
  rw [begun,begun,lengthLine_nat,lengthLine,if_pos rfl,List.flatMap_append,List.flatMap_singleton,encodeArg,
    List.length_append,List.length_singleton,Nat.add_assoc,Nat.add_comm 1 left]
  simp only [List.append_assoc,List.append_nil]

theorem SentAs.eq_of_small {a s : Bytes} (h : SentAs a s) (hs : s.length < PROTO_MBULK_BIG_ARG) : a = s :=
  (h.resolve_right fun hbig => absurd hbig.1 (not_le.mpr hs)).symm

theorem sentAs_small {as argv : List Bytes} (h : List.Forall₂ SentAs as argv)
    (hsmall : ∀ a ∈ argv, a.length < PROTO_MBULK_BIG_ARG) : as = argv := by
  induction h with
  | nil => rfl
  | cons ha _ ih =>
    rw [List.forall_mem_cons] at hsmall
    rw [ha.eq_of_small hsmall.1,ih hsmall.2]

/-- Where a client stands that has taken these bytes: outside of a multibulk request, inside of one, or in front
of a line that was rejected. -/
inductive Stands (P : Bytes → Prop) : Client → Bytes → Prop
  | outside {c : Client} : c.multibulklen = 0 → c.bulklen = -1 → Stands P c []
  | inside {c : Client} {as : List Bytes} : c.reqtype = .multibulk → c.multibulklen ≠ 0 → BulkLengthOk c.bulklen →
      List.Forall₂ SentAs as c.argv → Stands P c (begun as c.multibulklen c.bulklen)
  | stuck {c : Client} {taken : Bytes} : c.reqtype = .multibulk → c.multibulklen ≠ 0 → c.bulklen = -1 →
      P c.querybuf → Stands P c taken

def NoHeader (b : Bytes) : Prop := HasLine b ∧ ¬ HeaderAt b

/-- What the loop comes to, of all the bytes that have come for a request and behind it. -/
inductive LoopTakes (total : Bytes) : Option Parsed → Prop
  | undefined : LoopTakes total none
  | ok {d : Client} {as : List Bytes} : d.multibulklen = 0 → d.bulklen = -1 → List.Forall₂ SentAs as d.argv →
      total = encodeRequest as++d.querybuf → LoopTakes total (some (.ok d))
  | waits {log : Option Bytes} {d : Client} {taken : Bytes} : Stands HasLine d taken → total = taken++d.querybuf →
      LoopTakes total (some (.err log d))
  | stuck {log : Option Bytes} {d : Client} : (∀ taken, Stands HasLine d taken) → LoopTakes total (some (.err log d))

theorem bulkLoop_loopTakes (n : ℕ) {c : Client} {pos : ℕ} {as : List Bytes} {total : Bytes}
    (hlen : c.querybuf.length < 2147483648) (hpos : pos ≤ c.querybuf.length) (ht : c.reqtype = .multibulk)
    (hn : c.multibulklen = n) (hb : c.bulklen = -1 ∨ n ≠ 0 ∧ BulkLengthOk c.bulklen)
    (hargs : List.Forall₂ SentAs as c.argv) (htotal : total = begun as n c.bulklen++c.querybuf.drop pos)
    (hline : pos ≠ 0 → HasLine c.querybuf) (hends : ∀ e ∈ skippedArgs n c.bulklen (c.querybuf.drop pos), e = CRLF) :
    LoopTakes total (bulkLoop n c pos) := by
  induction n generalizing c pos as with
  | zero =>
    have hbulk : c.bulklen = -1 := hb.resolve_right fun h => h.1 rfl
    rw [bulkLoop,trim_drop hlen]
    rw [hbulk,begun_all] at htotal
    exact .ok hn hbulk hargs htotal
  | succ n ih =>
    have hok : BulkLengthOk c.bulklen := hb.elim Or.inl And.right
    have hm : c.multibulklen ≠ 0 := by omega
    have htakes := bulkPass_takes hlen hpos hok
    rw [bulkLoop_succ hn]
    rw [← hn] at htotal
    generalize bulkPass c pos = q at htakes
    cases htakes with
    | rejected log hbulk =>
      by_cases h0 : pos = 0
      · subst h0
        exact .waits (.inside ht hm hok hargs) htotal
      · exact .stuck fun taken => .stuck ht hm hbulk (hline h0)
    | noLine hbulk => exact .waits (.inside (c := {c with querybuf := c.querybuf.drop pos}) ht hm hok hargs) htotal
    | @noPayload len t h hshort =>
      obtain ⟨ends,hskip,hfront⟩ := h.skippedArgs n
      rw [hskip,if_pos hshort,List.append_nil] at hends
      refine .waits (.inside ht hm (Or.inr ⟨Int.natCast_nonneg len,?_⟩) hargs) ?_
      · have := h.len_le hok
        dsimp only
        omega
      · rw [htotal,begun_line as _ (hfront hends)]
    | @argument len p a t b pos' h hp ha hposb hblen hrest hfront =>
      obtain ⟨ends,hskip,hhead⟩ := h.skippedArgs n
      rw [hskip,if_neg (by rw [List.length_append]; omega),List.forall_mem_append,List.forall_mem_cons] at hends
      obtain ⟨hends,hpair,hnext⟩ := hends
      -- the payload with its line end
      have hq : (p.take len).length = len := by
        rw [List.length_take]
        omega
      have hsplit : p.take len++CRLF = p := by
        rw [List.drop_append_of_le_length (by omega),List.take_append_of_le_length (by rw [List.length_drop]; omega),
          List.take_of_length_le (by rw [List.length_drop]; omega)] at hpair
        rw [← hpair,List.take_append_drop]
      have hsent : SentAs (p.take len) a := by
        obtain rfl | ⟨hbig,rfl⟩ := ha
        · exact Or.inl rfl
        · exact Or.inr ⟨by omega,hsplit.symm⟩
      have hleft : c.multibulklen-1 = n := by omega
      refine ih (by dsimp only; omega) hposb ht hleft (Or.inl rfl)
        (List.rel_append hargs (.cons hsent .nil)) ?_ (fun h0 => ?_) ?_
      · rw [htotal,begun_line as _ (hhead hends),hn,begun_next,hq,List.append_assoc _ _ CRLF,hsplit,hrest,List.append_assoc]
      · obtain h0' | ⟨u,hu⟩ := hfront
        · exact absurd h0' h0
        · exact ⟨u++p.take len,LF,t,by rw [hu,← hsplit]; simp [hq]⟩
      · have hbehind : (p++t).drop (len+2) = t := hp ▸ List.drop_left
        rw [hbehind] at hnext
        dsimp only
        rwa [hrest]

/-- What a call of the parser comes to, with the bytes that were taken in front of it. -/
inductive CallTakes (x : Client) (taken : Bytes) : Option Parsed → Prop
  | undefined : CallTakes x taken none
  | abort : CallTakes x taken (some .abort)
  | badFree {d : Client} : CallTakes x taken (some (.badFree d))
  | nothing {d : Client} : d.multibulklen = 0 → d.bulklen = -1 → d.argv = [] → CallTakes x taken (some (.ok d))
  | request {d : Client} {as : List Bytes} : d.multibulklen = 0 → d.bulklen = -1 → List.Forall₂ SentAs as d.argv →
      taken++takenFrom x d = encodeRequest as → CallTakes x taken (some (.ok d))
  | waits {log : Option Bytes} {d : Client} : Stands HasLine d (taken++takenFrom x d) →
      CallTakes x taken (some (.err log d))

theorem takenFrom_self (x : Client) : takenFrom x x = [] := by
  rw [takenFrom,Nat.sub_self,List.take_zero]

theorem taken_eq {x d : Client} {taken taken' : Bytes} (h : taken++x.querybuf = taken'++d.querybuf)
    (hlen : d.querybuf.length ≤ x.querybuf.length) : taken++takenFrom x d = taken' := by
  have hlong := congrArg List.length h
  rw [List.length_append,List.length_append] at hlong
  have hfront := congrArg (List.take taken'.length) h
  rw [List.take_left,(by omega : taken'.length = taken.length+(x.querybuf.length-d.querybuf.length)),
    List.take_length_add_append] at hfront
  exact hfront

theorem LoopTakes.call {x : Client} {taken : Bytes} {used : ℕ} {p : Option Parsed}
    (h : LoopTakes (taken++x.querybuf) p) (hstops : ParserStops x.querybuf.length used p) : CallTakes x taken p := by
  cases h with
  | undefined => exact .undefined
  | ok hm hb hargs htotal =>
    cases hstops with
    | ok _ hlen => exact .request hm hb hargs (taken_eq htotal (by omega))
  | waits hd htotal =>
    cases hstops with
    | err _ hlen =>
      obtain rfl := taken_eq htotal hlen
      exact .waits hd
  | stuck hd => exact .waits (hd _)

theorem enterLoop_stuck {x : Client} (ht : x.reqtype = .multibulk) (hm : x.multibulklen ≠ 0) (hb : x.bulklen = -1)
    (h : ¬ HeaderAt x.querybuf) : ∃ log, enterLoop x 0 = some (.err log x) := by
  obtain ⟨b,rt,n,len,argv⟩ := x
  obtain ⟨left,rfl⟩ := Nat.exists_eq_succ_of_ne_zero hm
  obtain rfl : rt = .multibulk := ht
  obtain rfl : len = -1 := hb
  rw [enterLoop,if_neg hm]
  exact bulkLoop_stuck left argv h

theorem skippedArgs_fit {x : Client} (hm : x.multibulklen ≠ 0) (hb : BulkLengthOk x.bulklen)
    (hhead : x.bulklen = -1 → HeaderAt x.querybuf)
    (h : ∀ e ∈ skippedArgs x.multibulklen x.bulklen x.querybuf, e = CRLF ∧ x.querybuf.length < 2147483648) :
    x.querybuf.length < 2147483648 := by
  obtain ⟨n,hn⟩ := Nat.exists_eq_succ_of_ne_zero hm
  rw [hn,skippedArgs] at h
  by_cases hline : x.bulklen = -1
  · obtain ⟨k,len,hend,hlen⟩ := hhead hline
    rw [payloadAt,if_pos hline,hend,Option.bind_some,hlen,Option.map_some] at h
    exact (h ((x.querybuf.drop k).take 2) (by simp)).2
  · have hbound := hb.resolve_left hline
    rw [payloadAt,if_neg hline] at h
    by_contra hbig
    dsimp only at h
    rw [if_neg (by omega)] at h
    exact hbig (h _ List.mem_cons_self).2

/-- A count line is taken, and what there is of the arguments behind it. -/
theorem CountLine.callTakes {x : Client} {n : ℕ} {ll : ℤ} (h : CountLine x n ll) (hpos : 0 < ll)
    (ht : x.reqtype = .multibulk) (hb : x.bulklen = -1) (hends : x.SkipsEnds) :
    CallTakes x [] (bulkLoop ll.toNat {x with multibulklen := ll.toNat} (int32 (n+2))) := by
  have hnum := h.number
  rw [digits_eq] at hnum
  obtain ⟨hline,hcount⟩ := h.accepted
  have hmark := (head?_line hline (by decide)).mpr h.star
  obtain ⟨left,hleft⟩ : ∃ left, ll.toNat = left+1 := ⟨ll.toNat-1,by omega⟩
  rw [hleft] at hcount
  rw [Client.SkipsEnds,skipped,if_neg (not_not.mpr ht),if_pos h.closed,hline] at hends
  dsimp only at hends
  rw [hcount] at hends
  dsimp only at hends
  obtain ⟨l,y,t,hs,rfl,-,-⟩ := lineEnd_some hline
  rw [List.forall_mem_cons,hs,List.drop_left,← List.drop_drop,List.drop_left,← hs] at hends
  obtain ⟨⟨hpair,hlen⟩,hargs⟩ := hends
  obtain ⟨hint,hin⟩ := h.offset hlen
  rw [hs,take_line] at hnum hmark
  cases l with
  | nil => cases hmark
  | cons m digits =>
    obtain rfl : m = 42 := Option.some.inj hmark
    obtain rfl : digits = Decimal.encode (left+1) := hleft ▸ string2ll_nonneg hnum hpos.le
    obtain ⟨-,hy⟩ := List.cons.inj hpair
    obtain ⟨rfl,-⟩ := List.cons.inj hy
    have hbehind : x.querybuf.drop ((42::Decimal.encode (left+1)).length+2) = t := by
      rw [← List.drop_drop,hs,List.drop_left]
      rfl
    have htotal : []++x.querybuf = begun [] (left+1) (-1)++t := by
      rw [hs,begun,lengthLine,if_pos rfl]
      simp [str]
    have hnone : List.Forall₂ SentAs [] x.argv := by
      rw [h.reset]
      exact .nil
    have hloop : LoopTakes ([]++x.querybuf) (bulkLoop (left+1) {x with multibulklen := left+1}
        ((42::Decimal.encode (left+1)).length+2 : ℕ)) := by
      refine bulkLoop_loopTakes (left+1) hlen hin ht rfl (Or.inl hb) hnone ?_ (fun _ => ⟨_,_,_,hs⟩) ?_
      · dsimp only
        rw [htotal,hb,hbehind]
      · intro e he
        dsimp only at he
        rw [hb,hbehind] at he
        exact (hargs e he).1
    rw [hleft,hint]
    exact hloop.call (bulkLoop_stops (c := {x with multibulklen := left+1}) (left+1) hlen hin ht rfl (Or.inl hb))

theorem processMultibulkBuffer_callTakes {x : Client} {taken : Bytes} (ht : x.reqtype = .multibulk)
    (hx : Stands NoHeader x taken)
    (hends : x.SkipsEnds) :
    CallTakes x taken (processMultibulkBuffer x) := by
  have hsame : ∀ log, Stands HasLine x taken → CallTakes x taken (some (.err log x)) := by
    intro log hd
    refine .waits ?_
    rwa [takenFrom_self,List.append_nil]
  cases hx with
  | outside h0 hb =>
    have hcases := processMultibulkBuffer_cases x
    generalize processMultibulkBuffer x = p at hcases
    cases hcases with
    | notReset _ _ => exact .abort
    | noStar _ _ => exact .abort
    | waits log _ _ => exact hsame log (.outside h0 hb)
    | blank hline _ => exact .nothing h0 hb hline.reset
    | counted hline hpos => exact hline.callTakes hpos ht hb hends
    | resumed hm => exact absurd h0 hm
  | @inside as _ hm hb hargs =>
    rw [processMultibulkBuffer,if_neg hm]
    by_cases hstuck : x.bulklen = -1 ∧ ¬ HeaderAt x.querybuf
    · obtain ⟨log,hlog⟩ := enterLoop_stuck ht hm hstuck.1 hstuck.2
      rw [hlog]
      exact hsame log (.inside ht hm hb hargs)
    · rw [Client.SkipsEnds,skipped,if_neg (not_not.mpr ht),if_neg hm] at hends
      have hlen := skippedArgs_fit hm hb (fun h => not_not.mp fun h' => hstuck ⟨h,h'⟩) hends
      have htotal : begun as x.multibulklen x.bulklen++x.querybuf =
          begun as x.multibulklen x.bulklen++x.querybuf.drop (0 : ℕ) := rfl
      rw [enterLoop,if_neg hm]
      exact (bulkLoop_loopTakes x.multibulklen hlen (Nat.zero_le _) ht rfl (Or.inr ⟨hm,hb⟩) hargs htotal
        (fun h => absurd rfl h) fun e he => (hends e he).1).call
        (bulkLoop_stops x.multibulklen hlen (Nat.zero_le _) ht rfl (hb.imp_right fun h => ⟨hm,h⟩))
  | stuck _ hm hb hno =>
    obtain ⟨log,hlog⟩ := enterLoop_stuck ht hm hb hno.2
    rw [processMultibulkBuffer,if_neg hm,hlog]
    exact hsame log (.stuck ht hm hb hno.1)

theorem Stands.mono {P Q : Bytes → Prop} (hPQ : ∀ b, P b → Q b) {c : Client} {taken : Bytes} (h : Stands P c taken) :
    Stands Q c taken := by
  cases h with
  | outside hm hb => exact .outside hm hb
  | inside ht hm hb hargs => exact .inside ht hm hb hargs
  | stuck ht hm hb hline => exact .stuck ht hm hb (hPQ _ hline)

theorem setReqtype_stands {P : Bytes → Prop} {c : Client} {taken : Bytes} (h : Stands P c taken) :
    Stands P (setReqtype c) taken := by
  have hsame : c.reqtype = .multibulk → setReqtype c = c := by
    intro ht
    rw [setReqtype,if_neg (by rw [ht]; decide)]
  cases h with
  | outside hm hb =>
    rw [setReqtype]
    split_ifs
    · exact .outside hm hb
    · exact .outside hm hb
    · exact .outside hm hb
  | inside ht hm hb hargs =>
    rw [hsame ht]
    exact .inside ht hm hb hargs
  | stuck ht hm hb hline =>
    rw [hsame ht]
    exact .stuck ht hm hb hline

theorem parse_callTakes {x : Client} {taken : Bytes} (hknown : x.reqtype ≠ .unknown)
    (hx : Stands NoHeader x taken)
    (hends : x.SkipsEnds) : CallTakes x taken (parse x) := by
  rw [parse]
  cases ht : x.reqtype with
  | unknown => exact absurd ht hknown
  | multibulk =>
    rw [if_neg (by decide)]
    exact processMultibulkBuffer_callTakes ht hx hends
  | inline =>
    rw [if_pos rfl]
    cases hx with
    | inside hm => cases ht.symm.trans hm
    | stuck hm => cases ht.symm.trans hm
    | outside hm hb =>
      obtain hp | ⟨b,argv,hp⟩ := processInlineBuffer_cases x
      · rw [hp]
        refine .waits ?_
        rw [takenFrom_self]
        exact .outside hm hb
      · rw [hp]
        exact .badFree

/-- A multibulk command has taken an encoded request whose arguments it has in `argv`. -/
def TookRequest (r : Event × Bytes) : Prop :=
  r.1.reqtype = .multibulk → ∃ as, List.Forall₂ SentAs as r.1.argv ∧ r.2 = encodeRequest as

theorem CallTakes.took {x : Client} {taken : Bytes} (h : CallTakes x taken (parse x)) :
    ∀ q ∈ (consume taken x).2, TookRequest q := by
  intro q hq
  rw [consume] at hq
  generalize parse x = p at h hq
  cases h with
  | undefined => cases hq
  | abort => cases hq
  | badFree => cases hq
  | waits _ => cases hq
  | nothing _ _ hnone =>
    dsimp only at hq
    rw [if_pos hnone] at hq
    cases hq
  | request _ _ hargs htook =>
    dsimp only at hq
    split_ifs at hq
    · cases hq
    · obtain rfl := Option.some.inj hq
      exact fun _ => ⟨_,hargs,htook⟩

theorem CallTakes.stands {x d : Client} {taken : Bytes} (h : CallTakes x taken (some (.ok d))) (P : Bytes → Prop) :
    Stands P d [] := by
  cases h with
  | nothing hm hb _ => exact .outside hm hb
  | request hm hb _ _ => exact .outside hm hb

theorem resetClient_stands (d : Client) (P : Bytes → Prop) : Stands P (resetClient d) [] := .outside rfl rfl

theorem consume_ok {x d : Client} (taken : Bytes) (hp : parse x = some (.ok d)) : (consume taken x).1 = [] := by
  rw [consume,hp]

theorem consume_handed (taken : Bytes) (x : Client) : (consume taken x).2.map Prod.fst = handed x := by
  rw [consume,handed]
  rcases parse x with - | d | ⟨log,d⟩ | - | d
  · rfl
  · dsimp only
    split_ifs <;> rfl
  · rfl
  · rfl
  · rfl

section
variable {exec : List Bytes → Status}

theorem took_cons {x : Client} {taken : Bytes} {calls : List Client} (hx : CallTakes x taken (parse x))
    (hrest : ∀ q ∈ (Mealy.feed consume (consume taken x).1 calls).2, TookRequest q) :
    ∀ q ∈ (Mealy.feed consume taken (x::calls)).2, TookRequest q := by
  rw [Mealy.feed_cons]
  refine List.forall_mem_append.mpr ⟨fun q hq => hx.took q (Option.mem_toList.mp hq),hrest⟩

theorem LoopRun.took {c : Client} {es : List Event} {calls : List Client} {r : Result} (h : LoopRun exec c es calls r)
    {taken : Bytes} (hc : Stands NoHeader c taken)
    (hends : ∀ x ∈ calls, x.SkipsEnds) :
    (∀ q ∈ (Mealy.feed consume taken calls).2, TookRequest q) ∧
      ∀ d, r = .idle d → Stands HasLine d (Mealy.feed consume taken calls).1 := by
  -- the call of the parser with which a round starts
  have hcall : ∀ {c : Client} {taken : Bytes}, Stands NoHeader c taken →
      (setReqtype c).SkipsEnds →
      CallTakes (setReqtype c) taken (parse (setReqtype c)) :=
    fun hc hends => parse_callTakes (setReqtype_known _) (setReqtype_stands hc) hends
  have hnone : ∀ {c : Client} {taken : Bytes}, CallTakes (setReqtype c) taken (parse (setReqtype c)) →
      ∀ q ∈ (Mealy.feed consume taken [setReqtype c]).2, TookRequest q :=
    fun hc => took_cons hc (by simp)
  induction h generalizing taken with
  | empty _ =>
    refine ⟨by simp,fun d hd => ?_⟩
    obtain rfl := Result.idle.inj hd
    exact hc.mono fun b hb => hb.1
  | waits hp =>
    have htakes := hcall hc (hends _ (by simp))
    refine ⟨hnone htakes,fun d hd => ?_⟩
    obtain rfl := Result.idle.inj hd
    rw [hp.2] at htakes
    rw [Mealy.feed_cons,Mealy.feed_nil,consume,hp.2]
    cases htakes with
    | waits hd => exact hd
  | aborts _ => exact ⟨hnone (hcall hc (hends _ (by simp))),fun d hd => by cases hd⟩
  | frees _ => exact ⟨hnone (hcall hc (hends _ (by simp))),fun d hd => by cases hd⟩
  | fails _ => exact ⟨hnone (hcall hc (hends _ (by simp))),fun d hd => by cases hd⟩
  | repeats _ => exact ⟨hnone (hcall hc (hends _ (by simp))),fun d hd => by cases hd⟩
  | exits _ _ _ => exact ⟨hnone (hcall hc (hends _ (by simp))),fun d hd => by cases hd⟩
  | blank hp _ _ ih =>
    rw [List.forall_mem_cons] at hends
    obtain ⟨htook,hidle⟩ := ih (resetClient_stands _ _) hends.2
    rw [← consume_ok taken hp.2] at htook hidle
    exact ⟨took_cons (hcall hc hends.1) htook,hidle⟩
  | runs hp _ _ _ ih =>
    rw [List.forall_mem_cons] at hends
    obtain ⟨htook,hidle⟩ := ih (resetClient_stands _ _) hends.2
    rw [← consume_ok taken hp.2] at htook hidle
    exact ⟨took_cons (hcall hc hends.1) htook,hidle⟩
  | quits hp _ _ _ ih =>
    rw [List.forall_mem_cons] at hends
    have htakes := hcall hc hends.1
    obtain ⟨htook,hidle⟩ := ih ((hp.2 ▸ htakes).stands _) hends.2
    rw [← consume_ok taken hp.2] at htook hidle
    exact ⟨took_cons htakes htook,hidle⟩

theorem Stands.read {c : Client} {taken : Bytes} (hc : Stands HasLine c taken) (hone : ¬ Rereads c) (s : Bytes) :
    Stands NoHeader {c with querybuf := c.querybuf++s} taken := by
  cases hc with
  | outside hm hb => exact .outside hm hb
  | inside ht hm hb hargs => exact .inside (c := {c with querybuf := c.querybuf++s}) ht hm hb hargs
  | stuck ht hm hb hline =>
    have hno : ¬ HeaderAt c.querybuf := fun h => hone ⟨hm,hb,h⟩
    obtain ⟨l,y,t,hs⟩ := hline
    refine .stuck ht hm hb ⟨⟨l,y,t++s,?_⟩,not_headerAt_append ⟨l,y,t,hs⟩ hno s⟩
    dsimp only
    rw [hs,List.append_assoc]
    rfl

theorem allCalls_took {chunks : List Bytes} {c : Client} {taken : Bytes} (hc : Stands HasLine c taken)
    (h : EachRead exec (SkipsLineEnds exec) c chunks) :
    ∀ q ∈ (Mealy.feed consume taken (allCalls exec c chunks)).2, TookRequest q := by
  induction chunks generalizing c taken with
  | nil => simp [allCalls]
  | cons s chunks ih =>
    obtain ⟨⟨hone,hends⟩,hrest⟩ := h
    obtain ⟨htook,hidle⟩ := (readQueryFromClient_run exec c s).took (hc.read hone s) hends
    rw [allCalls,Mealy.feed_append,List.forall_mem_append]
    refine ⟨htook,?_⟩
    cases hq : (readQueryFromClient exec c s).2 with
    | idle d =>
      rw [hq] at hrest
      exact ih (hidle d hq) hrest
    | exit => simp
    | abort => simp
    | badFree => simp
    | undefined => simp

end

theorem mem_of_mem_zip {A B : Type} {l : List A} {m : List (A × B)} (h : l <+: m.map Prod.fst) {q : A × B}
    (hq : q ∈ l.zip (m.map Prod.snd)) : q ∈ m := by
  induction m generalizing l with
  | nil => simp at hq
  | cons p m ih =>
    cases l with
    | nil => simp at hq
    | cons a l =>
      obtain ⟨rfl,hrest⟩ := List.cons_prefix_cons.mp h
      rw [List.map_cons,List.zip_cons_cons] at hq
      rcases List.mem_cons.mp hq with rfl | hq
      · simp
      · exact List.mem_cons_of_mem p (ih hrest hq)

theorem mem_consumed {exec : List Bytes → Status} {chunks : List Bytes} {q : Event × Bytes}
    (hq : q ∈ consumed exec chunks) : q ∈ (Mealy.feed consume [] (allCalls exec createClient chunks)).2 := by
  refine mem_of_mem_zip ?_ hq
  rw [Mealy.map_feed consume consume_handed]
  exact allCalls_handed createClient chunks

/-- As long as no read parses bytes again or skips other bytes than line ends, the bytes consumed for a multibulk
command are the encoding of a request, and of `argv` where nothing in it is big. -/
theorem grammarExact (exec : List Bytes → Status) (chunks : List Bytes)
    (h : EachRead exec (SkipsLineEnds exec) createClient chunks) : GrammarExact exec chunks := by
  have htook : ∀ q ∈ consumed exec chunks, TookRequest q :=
    fun q hq => allCalls_took (.outside rfl rfl) h q (mem_consumed hq)
  refine ⟨fun q hq hmulti hsmall => ?_,fun q hq hmulti => ?_⟩
  · obtain ⟨as,hargs,htaken⟩ := htook q hq hmulti
    rw [htaken,sentAs_small hargs hsmall]
  · obtain ⟨as,-,htaken⟩ := htook q hq hmulti
    exact ⟨as,htaken⟩

/-- A request in three reads, and one behind a count of no arguments. -/
theorem grammarExact_put_ping : GrammarExact commandStatus
    [str "*3\r\n$3\r\nput\r\n$1\r\na\r",str "\n$",str "1\r\nb\r\n*0\r\n*1\r\n$4\r\nping\r\n"] :=
  grammarExact commandStatus _ (by decide +kernel)

/-- Other bytes than the encoding of the command that is executed: there is no LF behind the count. -/
theorem ping_X_not_grammarExact :
    consumed commandStatus [str "*1\rX$4\r\nping\r\n"] = [(⟨[str "ping"],.multibulk,[]⟩,str "*1\rX$4\r\nping\r\n")] ∧
      ¬ GrammarExact commandStatus [str "*1\rX$4\r\nping\r\n"] := by
  have hrun : consumed commandStatus [str "*1\rX$4\r\nping\r\n"] =
      [(⟨[str "ping"],.multibulk,[]⟩,str "*1\rX$4\r\nping\r\n")] := by decide +kernel
  refine ⟨hrun,fun h => ?_⟩
  have hping := h.encoded
  rw [hrun,List.forall_mem_singleton] at hping
  exact absurd (hping rfl (by decide)) (by decide)

end Tadpole
