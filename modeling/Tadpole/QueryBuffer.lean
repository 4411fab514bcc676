import Tadpole.ArgumentLoop
import Tadpole.InlineCommands

/-! The length of the query buffer. A payload is waited for with less than its own length, but nothing
bounds the bytes of a line that does not end or is rejected again at every read. -/
namespace Tadpole

abbrev PROTO_MAX_QUERYBUF_LEN : ℕ := 1024*1024*1024

/-- The `int`s taken of the buffer's length, of an offset in it and of the end of a payload behind that
offset fit. -/
def IntsFit (c : Client) : Prop := 512*1024*1024+2+c.querybuf.length < 2147483648

/-- What a read must come to: every call of the parser has `int`s that fit, no offset is out of its
buffer, and the buffer that is left is bounded. -/
structure StaysBounded (c : Client) (s : Bytes) : Prop where
  fit : ∀ x ∈ readCalls commandStatus c s, IntsFit x
  defined : (readQueryFromClient commandStatus c s).2 ≠ .undefined
  bounded : ∀ d, (readQueryFromClient commandStatus c s).2 = .idle d →
    d.querybuf.length ≤ PROTO_MAX_QUERYBUF_LEN

/-- A client that waits for no payload has, with what is read, no more than the limit. -/
def LineInBounds (c : Client) (s : Bytes) : Prop :=
  c.bulklen = -1 → (c.querybuf++s).length ≤ PROTO_MAX_QUERYBUF_LEN

instance decidableLineInBounds (c : Client) (s : Bytes) : Decidable (LineInBounds c s) :=
  inferInstanceAs (Decidable (_ → _))

def Client.BulkOk (c : Client) : Prop :=
  c.bulklen = -1 ∨ c.reqtype = .multibulk ∧ c.multibulklen ≠ 0 ∧ 0 ≤ c.bulklen ∧ c.bulklen ≤ 512*1024*1024

/-- Between two reads a client has less than the payload it waits for. -/
def Client.Short (c : Client) : Prop := c.BulkOk ∧ (c.bulklen ≠ -1 → c.querybuf.length < c.bulklen+2)

/-- What comes of a buffer of some length: a request is handed over, with some bytes used and no payload
to come, or the client waits; or the process ends, with an inline line that is used as well. -/
inductive ParserStops (len : ℕ) (used : ℤ) : Option Parsed → Prop
  | ok {d : Client} : d.bulklen = -1 → d.querybuf.length+used ≤ len → ParserStops len used (some (.ok d))
  | err {log : Option Bytes} {d : Client} : d.Short → d.querybuf.length ≤ len → ParserStops len used (some (.err log d))
  | abort : ParserStops len used (some .abort)
  | badFree {d : Client} : d.querybuf.length+used ≤ len → ParserStops len used (some (.badFree d))

theorem ParserStops.mono {len len' : ℕ} {used used' : ℤ} {p : Option Parsed} (h : ParserStops len used p) (hlen : len ≤ len')
    (hused : len+used' ≤ len'+used) : ParserStops len' used' p := by
  cases h with
  | ok hd h => exact .ok hd (by omega)
  | err hd h => exact .err hd (h.trans hlen)
  | abort => exact .abort
  | badFree h => exact .badFree (by omega)

theorem bulkLoop_stops (n : ℕ) {c : Client} {pos : ℕ} (hlen : c.querybuf.length < 2147483648)
    (hpos : pos ≤ c.querybuf.length) (ht : c.reqtype = .multibulk) (hn : c.multibulklen = n)
    (hb : c.bulklen = -1 ∨ n ≠ 0 ∧ 0 ≤ c.bulklen ∧ c.bulklen ≤ 512*1024*1024) :
    ParserStops c.querybuf.length (pos+min n 1) (bulkLoop n c pos) := by
  induction n generalizing c pos with
  | zero =>
    rw [bulkLoop,trim_drop hlen]
    refine .ok (hb.resolve_right fun h => h.1 rfl) ?_
    rw [List.length_drop]
    omega
  | succ n ih =>
    have hok : BulkLengthOk c.bulklen := hb.imp_right And.right
    have htakes := bulkPass_takes hlen hpos hok
    have hdrop : (c.querybuf.drop pos).length = c.querybuf.length-pos := List.length_drop
    rw [bulkLoop_succ hn]
    generalize bulkPass c pos = q at htakes
    cases htakes with
    | rejected log hline => exact .err ⟨Or.inl hline,fun h => absurd hline h⟩ le_rfl
    | noLine hline =>
      refine .err ⟨Or.inl hline,fun h => absurd hline h⟩ ?_
      rw [hdrop]
      exact Nat.sub_le _ _
    | @noPayload len t h hshort =>
      have hmax := h.len_le hok
      have hle := h.length_le
      refine .err ⟨Or.inr ⟨ht,?_,Int.natCast_nonneg len,by dsimp only; omega⟩,fun _ => by dsimp only; omega⟩ ?_
      · dsimp only
        omega
      · dsimp only
        omega
    | @argument len p a t b pos' h hp _ hposb hblen hrest _ =>
      have hle := h.length_le
      have hleft := congrArg List.length hrest
      rw [List.length_drop] at hleft
      rw [List.length_append] at hle
      have hnext : c.multibulklen-1 = n := by omega
      refine (ih (c := ⟨b,c.reqtype,c.multibulklen-1,-1,c.argv++[a]⟩) (by dsimp only; omega) hposb ht hnext
        (Or.inl rfl)).mono hblen ?_
      dsimp only
      omega

theorem processInlineBuffer_stops {c : Client} (hlen : c.querybuf.length < 2147483646) (hb : c.bulklen = -1) :
    ParserStops c.querybuf.length 1 (some (processInlineBuffer c)) := by
  have hwait : ParserStops c.querybuf.length 1 (some (.err none c)) := .err ⟨Or.inl hb,fun h => absurd hb h⟩ le_rfl
  rw [processInlineBuffer]
  cases hlf : strchr LF c.querybuf with
  | none => exact hwait
  | some n =>
    have hn : n < c.querybuf.length := by
      obtain ⟨a,t,hs,rfl,-,-⟩ := strchr_some hlf
      rw [hs,List.length_append,List.length_cons]
      omega
    dsimp only
    cases sdssplitargs (c.querybuf.take
        (if n ≠ 0 ∧ c.querybuf[n-1]? = some CR then n-1 else n)) with
    | none => exact hwait
    | some argv =>
      refine .badFree ?_
      dsimp only
      generalize hline : (if n ≠ 0 ∧ c.querybuf[n-1]? = some CR then n-1 else n) = len
      have hle : len ≤ n := by
        rw [← hline]
        split_ifs <;> omega
      have hint : int32 ((len : ℤ)+2) = (len+2 : ℕ) := int32_of_bounds (by omega) (by omega)
      rw [hint,sdsrange_drop (by omega),List.length_drop]
      omega

theorem CountLine.offset {c : Client} {n : ℕ} {ll : ℤ} (h : CountLine c n ll) (hlen : c.querybuf.length < 2147483648) :
    int32 ((n : ℤ)+2) = (n+2 : ℕ) ∧ n+2 ≤ c.querybuf.length := by
  have hfar := h.whole
  rw [int32_nat hlen,int32_of_bounds (by omega) (by omega)] at hfar
  exact ⟨int32_of_bounds (by omega) (by omega),by omega⟩

theorem processMultibulkBuffer_stops {c : Client} (hlen : c.querybuf.length < 2147483648) (ht : c.reqtype = .multibulk)
    (hb : c.BulkOk) : ParserStops c.querybuf.length 1 (processMultibulkBuffer c) := by
  have hclosed : c.multibulklen = 0 → c.bulklen = -1 := fun h0 => hb.resolve_right fun h => h.2.1 h0
  have hcases := processMultibulkBuffer_cases c
  generalize processMultibulkBuffer c = p at hcases
  cases hcases with
  | notReset _ _ => exact .abort
  | noStar _ _ => exact .abort
  | waits log h0 _ => exact .err ⟨hb,fun h => absurd (hclosed h0) h⟩ le_rfl
  | @blank n ll hline _ =>
    obtain ⟨hint,hin⟩ := hline.offset hlen
    refine .ok (hclosed hline.closed) ?_
    dsimp only
    rw [hint,sdsrange_drop hlen,List.length_drop]
    omega
  | @counted n ll hline hpos =>
    obtain ⟨hint,hin⟩ := hline.offset hlen
    rw [hint]
    refine (bulkLoop_stops ll.toNat (c := {c with multibulklen := ll.toNat}) hlen hin ht rfl
      (Or.inl (hclosed hline.closed))).mono le_rfl ?_
    dsimp only
    omega
  | resumed h0 =>
    refine (bulkLoop_stops c.multibulklen hlen (Nat.zero_le _) ht rfl (hb.imp_right fun h => h.2)).mono le_rfl ?_
    omega

theorem setReqtype_bulk {c : Client} (hb : c.BulkOk) : (setReqtype c).querybuf = c.querybuf ∧ (setReqtype c).BulkOk := by
  rw [setReqtype]
  by_cases ht : c.reqtype = .unknown
  · rw [if_pos ht]
    refine ⟨rfl,Or.inl (hb.resolve_right fun h => ?_)⟩
    rw [ht] at h
    cases h.1
  · rw [if_neg ht]
    exact ⟨rfl,hb⟩

/-- A call of the parser uses a byte at least, or the client waits. -/
theorem parse_stops {c : Client} (hlen : c.querybuf.length < 2147483646) (hb : c.BulkOk) :
    ParserStops c.querybuf.length 1 (parse (setReqtype c)) := by
  obtain ⟨hq,hb'⟩ := setReqtype_bulk hb
  rw [← hq] at hlen ⊢
  rw [parse]
  cases ht : (setReqtype c).reqtype with
  | unknown => exact absurd ht (setReqtype_known c)
  | inline =>
    rw [if_pos rfl]
    refine processInlineBuffer_stops hlen (hb'.resolve_right fun h => ?_)
    rw [ht] at h
    cases h.1
  | multibulk =>
    rw [if_neg (by decide)]
    exact processMultibulkBuffer_stops (by omega) ht hb'

section
variable {exec : List Bytes → Status}

/-- What the loop comes to with a buffer of some length. -/
structure LoopStops (len : ℕ) (calls : List Client) (r : Result) : Prop where
  calls : ∀ x ∈ calls, x.querybuf.length ≤ len
  defined : r ≠ .undefined
  idle : ∀ d, r = .idle d → d.Short ∧ d.querybuf.length ≤ len

theorem LoopStops.cons {len len' : ℕ} {calls : List Client} {r : Result} (h : LoopStops len calls r) {x : Client}
    (hx : x.querybuf.length ≤ len') (hlen : len ≤ len') : LoopStops len' (x::calls) r where
  calls := List.forall_mem_cons.mpr ⟨hx,fun y hy => (h.calls y hy).trans hlen⟩
  defined := h.defined
  idle d hd := ⟨(h.idle d hd).1,(h.idle d hd).2.trans hlen⟩

theorem inputLoop_stops (rounds : ℕ) {c : Client} (hlen : c.querybuf.length < 2147483646) (hb : c.BulkOk)
    (hr : c.querybuf.length ≤ rounds) :
    LoopStops c.querybuf.length (parserCalls exec rounds c) (inputLoop exec rounds c).2 := by
  have hempty : ∀ d : Client, d.BulkOk → d.querybuf = [] → d.Short := by
    intro d hd hq
    refine ⟨hd,fun hne => ?_⟩
    have hmin := (hd.resolve_left hne).2.2.1
    rw [hq,List.length_nil]
    omega
  induction rounds generalizing c with
  | zero =>
    have hq : c.querybuf = [] := List.length_eq_zero_iff.mp (by omega)
    rw [inputLoop,parserCalls,if_pos hq,if_pos hq]
    exact ⟨by simp,by simp,fun d hd => Result.idle.inj hd ▸ ⟨hempty c hb hq,le_rfl⟩⟩
  | succ rounds ih =>
    rw [inputLoop,parserCalls]
    by_cases hq : c.querybuf = []
    · rw [if_pos hq,if_pos hq]
      exact ⟨by simp,by simp,fun d hd => Result.idle.inj hd ▸ ⟨hempty c hb hq,le_rfl⟩⟩
    · have hx : (setReqtype c).querybuf.length ≤ c.querybuf.length := (congrArg _ (setReqtype_bulk hb).1).le
      have hone : ∀ x ∈ [setReqtype c], x.querybuf.length ≤ c.querybuf.length := by simpa using hx
      have hstops := parse_stops hlen hb
      rw [if_neg hq,if_neg hq]
      generalize parse (setReqtype c) = p at hstops
      cases hstops with
      | abort => exact ⟨hone,by simp,by simp⟩
      | badFree _ => exact ⟨hone,by simp,by simp⟩
      | err hd hle => exact ⟨hone,by simp,fun d' hd' => Result.idle.inj hd' ▸ ⟨hd,hle⟩⟩
      | @ok d hd hless =>
        have hnext := ih (c := resetClient d) (by simp only [resetClient]; omega) (Or.inl rfl)
          (by simp only [resetClient]; omega)
        dsimp only
        by_cases hargv : d.argv = []
        · rw [if_pos hargv,if_pos hargv]
          exact hnext.cons hx (by simp only [resetClient]; omega)
        · rw [if_neg hargv,if_neg hargv]
          cases exec d.argv with
          | ok => exact hnext.cons hx (by simp only [resetClient]; omega)
          | err => exact (ih (by omega) (Or.inl hd) (by omega)).cons hx (by omega)
          | exit => exact ⟨hone,by simp,by simp⟩

end

theorem readAll_bounded {chunks : List Bytes} {c : Client} (hc : c.Short) (hlen : ∀ s ∈ chunks, s.length ≤ PROTO_IOBUF_LEN)
    (hline : EachRead commandStatus LineInBounds c chunks) : EachRead commandStatus StaysBounded c chunks := by
  induction chunks generalizing c with
  | nil => trivial
  | cons s chunks ih =>
    obtain ⟨hs,hrest⟩ := hline
    have hslen : s.length ≤ 16384 := hlen s (by simp)
    have hlimit : PROTO_MAX_QUERYBUF_LEN = 1073741824 := rfl
    -- a payload that is waited for is shorter than the limit
    have hbound : (c.querybuf++s).length ≤ PROTO_MAX_QUERYBUF_LEN := by
      by_cases hb : c.bulklen = -1
      · exact hs hb
      · have hshort := hc.2 hb
        have hmax := (hc.1.resolve_left hb).2.2.2
        rw [List.length_append]
        omega
    have hfit : IntsFit {c with querybuf := c.querybuf++s} := by
      rw [IntsFit]
      dsimp only
      omega
    have hint : (c.querybuf++s).length < 2147483646 := by omega
    have hstops : LoopStops _ (readCalls commandStatus c s) (readQueryFromClient commandStatus c s).2 :=
      inputLoop_stops (c := {c with querybuf := c.querybuf++s}) _ hint hc.1 le_rfl
    refine ⟨⟨fun x hx => ?_,hstops.defined,fun d hd => (hstops.idle d hd).2.trans hbound⟩,?_⟩
    · have := hstops.calls x hx
      rw [IntsFit] at hfit ⊢
      omega
    · rcases hq : (readQueryFromClient commandStatus c s).2 with d | - | - | - | -
      · rw [hq] at hrest
        exact ih (hstops.idle d hq).1 (fun t ht => hlen t (by simp [ht])) hrest
      · trivial
      · trivial
      · trivial
      · trivial

/-- However bytes are cut into reads, the buffer is bounded as long as it is at every read that no
payload is waited for. -/
theorem querybufBounded {chunks : List Bytes} (hlen : ∀ s ∈ chunks, s.length ≤ PROTO_IOBUF_LEN)
    (hline : EachRead commandStatus LineInBounds createClient chunks) :
    EachRead commandStatus StaysBounded createClient chunks :=
  readAll_bounded ⟨Or.inl rfl,fun h => absurd rfl h⟩ hlen hline

/-- A count line and a payload, each in two reads. -/
theorem querybufBounded_ping_get : EachRead commandStatus StaysBounded createClient
    [str "*1",str "\r\n$4\r\nping\r\n*2\r\n$3\r\nge",str "t\r\n$1\r\na\r\n"] :=
  querybufBounded (by decide) (by decide +kernel)

theorem read_unfinished {s p : Bytes} {c : Client} (hc : Inlines c p) (hlf : LF ∉ p++s) (hstar : 42 ∉ p++s) :
    ∃ d, (readQueryFromClient commandStatus c s).2 = .idle d ∧ Inlines d (p++s) := by
  obtain ⟨d,hd,hdi⟩ := inputLoop_unfinished commandStatus (c.querybuf++s).length (hc.append s).2 hlf
    fun h => hstar (List.mem_of_mem_head? h)
  exact ⟨d,congrArg Prod.snd hd,hdi⟩

theorem unfinished_length {s : Bytes} (hlf : LF ∉ s) (hstar : 42 ∉ s) (k : ℕ) {c : Client} {p : Bytes} (hc : Inlines c p)
    (hplf : LF ∉ p) (hpstar : 42 ∉ p) (h : EachRead commandStatus StaysBounded c (List.replicate (k+1) s)) :
    p.length+(k+1)*s.length ≤ PROTO_MAX_QUERYBUF_LEN := by
  have hlf' : LF ∉ p++s := by simp [hplf,hlf]
  have hstar' : 42 ∉ p++s := by simp [hpstar,hstar]
  obtain ⟨d,hd,hd'⟩ := read_unfinished hc hlf' hstar'
  rw [List.replicate_succ] at h
  obtain ⟨hread,hrest⟩ := h
  rw [hd] at hrest
  cases k with
  | zero =>
    have hlen := hread.bounded d hd
    rw [(hd'.append []).1,List.length_append] at hlen
    omega
  | succ k =>
    have hnext := unfinished_length hlf hstar k hd' hlf' hstar' hrest
    rw [List.length_append] at hnext
    rw [Nat.succ_mul (k+1)]
    omega

/-- A gigabyte and one more read, without a line end. -/
theorem no_newline_not_querybufBounded :
    (∀ s ∈ List.replicate 65537 (List.replicate 16384 97), s ≠ [] ∧ s.length ≤ PROTO_IOBUF_LEN) ∧
      ¬ EachRead commandStatus StaysBounded createClient (List.replicate 65537 (List.replicate 16384 97)) := by
  have hmem : ∀ b : UInt8, b ≠ 97 → b ∉ List.replicate 16384 (97 : UInt8) :=
    fun b hb h => hb (List.eq_of_mem_replicate h)
  refine ⟨fun s hs => ?_,fun h => ?_⟩
  · obtain rfl := List.eq_of_mem_replicate hs
    rw [List.length_replicate]
    exact ⟨List.ne_nil_of_length_pos (by rw [List.length_replicate]; decide),le_rfl⟩
  · have hlen := unfinished_length (hmem LF (by decide)) (hmem 42 (by decide)) 65536 (Or.inl rfl) List.not_mem_nil
      List.not_mem_nil h
    rw [List.length_replicate] at hlen
    exact absurd hlen (by decide)

end Tadpole
