import Tadpole.Client
import Tadpole.Lib.Mealy

/-! What a stream of multibulk requests says, one byte at a time: a machine that never looks back, and
what it makes of encoded requests. -/
namespace Tadpole

def lineEnd (s : Bytes) : Option ℕ :=
  (strchr CR s).bind fun n => if n+2 ≤ s.length then some n else none

/-- The number of arguments a count line announces, none for a number that is not positive. -/
def countOf (line : Bytes) : Option ℕ :=
  match string2ll (line.drop 1) with
  | none => none
  | some ll => if ll > MAX_MULTIBULK then none else some ll.toNat

def headerOf (line : Bytes) : Option ℕ :=
  if line.head? ≠ some 36 then none else bulkLength (line.drop 1)

/-- Where the stream stands: in a line with `left` arguments to come (none: the count line), in the
bytes of an argument and its line end, behind a line that was rejected, or in a request that is not
a multibulk. -/
inductive Stage
  | line (left : ℕ) (argv : List Bytes) (acc : Bytes)
  | body (left : ℕ) (argv : List Bytes) (len : ℕ) (acc : Bytes)
  | rejected
  | foreign

namespace Stage

def start : Stage := line 0 [] []

def endLine (left : ℕ) (argv : List Bytes) (l : Bytes) : Stage :=
  if left = 0 then (countOf l).elim rejected fun n => line n [] []
  else (headerOf l).elim rejected fun len => body left argv len []

/-- A big argument keeps its line end. -/
def argument (len : ℕ) (s : Bytes) : Bytes := if len ≥ PROTO_MBULK_BIG_ARG then s else s.take len

def endBody (left : ℕ) (argv : List Bytes) : Stage × Option (List Bytes) :=
  if left = 0 then (start,some argv) else (line left argv [],none)

def step : Stage → UInt8 → Stage × Option (List Bytes)
  | line left argv acc, b =>
    if left = 0 ∧ acc = [] ∧ b ≠ 42 then (foreign,none)
    else
      match lineEnd (acc++[b]) with
      | none => (line left argv (acc++[b]),none)
      | some n => (endLine left argv ((acc++[b]).take n),none)
  | body left argv len acc, b =>
    if (acc++[b]).length < len+2 then (body left argv len (acc++[b]),none)
    else endBody (left-1) (argv++[argument len (acc++[b])])
  | rejected, _ => (rejected,none)
  | foreign, _ => (foreign,none)

def feed (σ : Stage) (s : Bytes) : Stage × List (List Bytes) := Mealy.feed step σ s

/-- The requests that are put out, each with the bytes behind it. -/
def feedLeft (σ : Stage) (s : Bytes) : Stage × List (List Bytes × Bytes) := Mealy.feedLeft step σ s

@[simp] theorem feed_nil (σ : Stage) : feed σ [] = (σ,[]) := rfl

theorem feed_cons (σ : Stage) (b : UInt8) (s : Bytes) :
    feed σ (b::s) = ((feed (step σ b).1 s).1,(step σ b).2.toList++(feed (step σ b).1 s).2) := rfl

theorem feed_append (σ : Stage) (s t : Bytes) :
    feed σ (s++t) = ((feed (feed σ s).1 t).1,(feed σ s).2++(feed (feed σ s).1 t).2) :=
  Mealy.feed_append step σ s t

theorem rejected_absorbing : Mealy.Absorbing step rejected := fun _ => rfl

theorem foreign_absorbing : Mealy.Absorbing step foreign := fun _ => rfl

end Stage

theorem lineEnd_some {s : Bytes} {n : ℕ} (h : lineEnd s = some n) :
    ∃ l x t, s = l++CR::x::t ∧ l.length = n ∧ CR ∉ l ∧ NUL ∉ l := by
  obtain ⟨m,hm,h⟩ := Option.bind_eq_some_iff.mp h
  split_ifs at h with hlen
  obtain rfl := Option.some.inj h
  obtain ⟨l,t,rfl,rfl,hc,h0⟩ := strchr_some hm
  cases t with
  | nil => simp at hlen
  | cons x t => exact ⟨l,x,t,rfl,rfl,hc,h0 (by decide)⟩

theorem strchr_line {l : Bytes} (hc : CR ∉ l) (h0 : NUL ∉ l) (t : Bytes) :
    strchr CR (l++CR::t) = some l.length := by
  rw [strchr_append hc h0]
  simp

theorem lineEnd_line {l : Bytes} (hc : CR ∉ l) (h0 : NUL ∉ l) (x : UInt8) (t : Bytes) :
    lineEnd (l++CR::x::t) = some l.length := by
  rw [lineEnd,strchr_line hc h0,Option.bind_some,if_pos]
  simp

theorem lineEnd_cr {l : Bytes} (hc : CR ∉ l) (h0 : NUL ∉ l) : lineEnd (l++[CR]) = none := by
  rw [lineEnd,strchr_line hc h0,Option.bind_some,if_neg]
  simp

theorem lineEnd_append {s : Bytes} {n : ℕ} (h : lineEnd s = some n) (t : Bytes) :
    lineEnd (s++t) = some n := by
  obtain ⟨l,x,r,rfl,rfl,hc,h0⟩ := lineEnd_some h
  rw [List.append_assoc]
  exact lineEnd_line hc h0 x (r++t)

theorem lineEnd_none_of_append {s t : Bytes} (h : lineEnd (s++t) = none) : lineEnd s = none := by
  cases hs : lineEnd s with
  | none => rfl
  | some n => rw [lineEnd_append hs] at h; cases h

namespace Stage

theorem feed_line {left : ℕ} {argv : List Bytes} {acc s : Bytes} (hend : lineEnd (acc++s) = none)
    (hstar : left = 0 → ∀ b ∈ (acc++s).head?, b = 42) :
    feed (line left argv acc) s = (line left argv (acc++s),[]) := by
  induction s generalizing acc with
  | nil => simp
  | cons b s ih =>
    have hacc : acc++b::s = acc++[b]++s := by simp
    rw [hacc] at hend hstar ⊢
    have hforeign : ¬ (left = 0 ∧ acc = [] ∧ b ≠ 42) := by
      rintro ⟨h0,rfl,hb⟩
      exact hb (hstar h0 b (by simp))
    have hstep : step (line left argv acc) b = (line left argv (acc++[b]),none) := by
      rw [step,if_neg hforeign,lineEnd_none_of_append hend]
    rw [feed_cons,hstep]
    exact ih hend hstar

theorem feed_line_front {left : ℕ} {argv : List Bytes} {s : Bytes} (hend : lineEnd s = none)
    (hstar : left = 0 → ∀ b ∈ s.head?, b = 42) : feed (line left argv []) s = (line left argv s,[]) :=
  feed_line hend hstar

theorem feed_line_end {left : ℕ} {argv : List Bytes} {l : Bytes} (hc : CR ∉ l) (h0 : NUL ∉ l)
    (hstar : left = 0 → l.head? = some 42) (x : UInt8) (t : Bytes) :
    feed (line left argv []) (l++CR::x::t) = feed (endLine left argv l) t := by
  have hsplit : l++CR::x::t = (l++[CR])++x::t := by simp
  have hfront : feed (line left argv []) (l++[CR]) = (line left argv (l++[CR]),[]) := by
    refine feed_line_front (lineEnd_cr hc h0) fun hl b hb => ?_
    obtain ⟨c,l,rfl⟩ : ∃ c l', l = c::l' := by
      cases l with
      | nil => exact absurd (hstar hl) (by simp)
      | cons c l => exact ⟨c,l,rfl⟩
    have hc := hstar hl
    simp only [List.cons_append,List.head?_cons,Option.mem_def,Option.some.injEq] at hb hc
    exact hb.symm.trans hc
  have hstep : step (line left argv (l++[CR])) x = (endLine left argv l,none) := by
    have hl : lineEnd (l++[CR]++[x]) = some l.length := by
      rw [List.append_assoc]
      exact lineEnd_line hc h0 x []
    rw [step,if_neg (by simp),hl]
    simp
  rw [hsplit,feed_append,hfront,feed_cons,hstep]
  simp

theorem feed_body {left len : ℕ} {argv : List Bytes} {acc s : Bytes} (h : (acc++s).length < len+2) :
    feed (body left argv len acc) s = (body left argv len (acc++s),[]) := by
  induction s generalizing acc with
  | nil => simp
  | cons b s ih =>
    have hacc : acc++b::s = acc++[b]++s := by simp
    rw [hacc] at h ⊢
    have hstep : step (body left argv len acc) b = (body left argv len (acc++[b]),none) := by
      rw [step,if_pos]
      rw [List.length_append] at h
      omega
    rw [feed_cons,hstep]
    exact ih h

theorem feed_body_front {left len : ℕ} {argv : List Bytes} {s : Bytes} (h : s.length < len+2) :
    feed (body left argv len []) s = (body left argv len s,[]) :=
  feed_body h

/-- What the framer does once `argv` is there and `left` arguments are missing. -/
def after (left : ℕ) (argv : List Bytes) (s : Bytes) : Stage × List (List Bytes) :=
  ((feed (endBody left argv).1 s).1,(endBody left argv).2.toList++(feed (endBody left argv).1 s).2)

@[simp] theorem after_zero (argv : List Bytes) (s : Bytes) :
    after 0 argv s = ((feed start s).1,argv::(feed start s).2) := rfl

@[simp] theorem after_succ (left : ℕ) (argv : List Bytes) (s : Bytes) :
    after (left+1) argv s = feed (line (left+1) argv []) s := rfl

@[simp] theorem feedLeft_nil (σ : Stage) : feedLeft σ [] = (σ,[]) := rfl

theorem feedLeft_feed (σ : Stage) (s : Bytes) : feed σ s = ((feedLeft σ s).1,(feedLeft σ s).2.map Prod.fst) :=
  Mealy.feedLeft_feed step σ s

theorem feedLeft_quiet {σ τ : Stage} {s : Bytes} (h : feed σ s = (τ,[])) : feedLeft σ s = (τ,[]) :=
  Mealy.feedLeft_quiet step h

theorem feedLeft_line_end {left : ℕ} {argv : List Bytes} {l : Bytes} (hc : CR ∉ l) (h0 : NUL ∉ l)
    (hstar : left = 0 → l.head? = some 42) (x : UInt8) (t : Bytes) :
    feedLeft (line left argv []) (l++CR::x::t) = feedLeft (endLine left argv l) t := by
  have hsplit : l++CR::x::t = (l++[CR,x])++t := by simp
  rw [hsplit]
  exact Mealy.feedLeft_append step (feed_line_end hc h0 hstar x []) t

/-- `after`, with the bytes behind each request. -/
def afterLeft (left : ℕ) (argv : List Bytes) (s : Bytes) : Stage × List (List Bytes × Bytes) :=
  ((feedLeft (endBody left argv).1 s).1,(endBody left argv).2.toList.map (·,s)++(feedLeft (endBody left argv).1 s).2)

@[simp] theorem afterLeft_zero (argv : List Bytes) (s : Bytes) :
    afterLeft 0 argv s = ((feedLeft start s).1,(argv,s)::(feedLeft start s).2) := rfl

@[simp] theorem afterLeft_succ (left : ℕ) (argv : List Bytes) (s : Bytes) :
    afterLeft (left+1) argv s = feedLeft (line (left+1) argv []) s := rfl

theorem afterLeft_after (left : ℕ) (argv : List Bytes) (s : Bytes) :
    after left argv s = ((afterLeft left argv s).1,(afterLeft left argv s).2.map Prod.fst) := by
  rw [after,afterLeft,feedLeft_feed,List.map_append,List.map_map]
  congr 2
  exact (List.map_id _).symm

theorem feedLeft_body_end (left : ℕ) {len : ℕ} (argv : List Bytes) {p : Bytes} (hp : p.length = len+2) (t : Bytes) :
    feedLeft (body left argv len []) (p++t) = afterLeft (left-1) (argv++[argument len p]) t := by
  obtain ⟨q,b,rfl⟩ : ∃ q b, p = q++[b] := by
    rcases List.eq_nil_or_concat' p with rfl | ⟨q,b,rfl⟩
    · simp at hp
    · exact ⟨q,b,rfl⟩
  rw [List.length_append,List.length_singleton] at hp
  have hfront : feed (body left argv len []) q = (body left argv len q,[]) :=
    feed_body_front (by omega)
  have hstep : step (body left argv len q) b = endBody (left-1) (argv++[argument len (q++[b])]) := by
    rw [step,if_neg]
    rw [List.length_append,List.length_singleton]
    omega
  rw [List.append_assoc,feedLeft,Mealy.feedLeft_append step hfront,List.singleton_append,Mealy.feedLeft_cons,hstep]
  rfl

theorem feed_body_end (left : ℕ) {len : ℕ} (argv : List Bytes) {p : Bytes} (hp : p.length = len+2) (t : Bytes) :
    feed (body left argv len []) (p++t) = after (left-1) (argv++[argument len p]) t := by
  rw [feedLeft_feed,feedLeft_body_end left argv hp,← afterLeft_after]

end Stage

def encodeArg (a : Bytes) : Bytes := str "$"++Decimal.encode a.length++CRLF++a++CRLF

def encodeRequest (r : List Bytes) : Bytes :=
  str "*"++Decimal.encode r.length++CRLF++r.flatMap encodeArg

def encodeRequests (rs : List (List Bytes)) : Bytes := rs.flatMap encodeRequest

/-- A request the parser takes whole: up to 1048576 arguments, none of them big. -/
def WellFormedRequest (r : List Bytes) : Prop :=
  1 ≤ r.length ∧ r.length ≤ 1048576 ∧ ∀ a ∈ r, a.length < PROTO_MBULK_BIG_ARG

instance (r : List Bytes) : Decidable (WellFormedRequest r) :=
  inferInstanceAs (Decidable (_ ∧ _ ∧ _))

/-- The requests of which the last byte is among the first `n` bytes. -/
def arrived : ℕ → List (List Bytes) → List (List Bytes)
  | _, [] => []
  | n, r::rs => if (encodeRequest r).length ≤ n then r::arrived (n-(encodeRequest r).length) rs else []

theorem digits_notMem {b : UInt8} (hb : ¬ Decimal.IsDigit b) (n : ℕ) : b ∉ Decimal.encode n :=
  fun h => hb (Decimal.encode_isDigit n b h)

theorem marked_notMem {b : UInt8} (hb : ¬ Decimal.IsDigit b) {m : UInt8} (hm : b ≠ m) (n : ℕ) :
    b ∉ m::Decimal.encode n := by
  rw [List.mem_cons,not_or]
  exact ⟨hm,digits_notMem hb n⟩

theorem countOf_encode {n : ℕ} (h : n ≤ 1048576) : countOf (42::Decimal.encode n) = some n := by
  rw [countOf,List.drop_succ_cons,List.drop_zero,string2ll_encode (by omega)]
  simp only []
  rw [if_neg (by rw [MAX_MULTIBULK]; omega),Int.toNat_natCast]

theorem headerOf_encode {n : ℕ} (h : n ≤ 512*1024*1024) :
    headerOf (36::Decimal.encode n) = some n := by
  rw [headerOf,if_neg (by simp),List.drop_succ_cons,List.drop_zero,bulkLength,
    string2ll_encode (by omega)]
  simp only []
  rw [if_neg (by omega),Int.toNat_natCast]

namespace Stage

/-- What an argument is in `argv`: a big one keeps its line end. -/
def kept (a : Bytes) : Bytes := argument a.length (a++CRLF)

theorem feed_encodeArg_kept {left : ℕ} {argv : List Bytes} {a : Bytes} (ha : a.length ≤ 512*1024*1024)
    (t : Bytes) : feed (line (left+1) argv []) (encodeArg a++t) = after left (argv++[kept a]) t := by
  have hsplit : encodeArg a++t = (36::Decimal.encode a.length)++CR::LF::((a++CRLF)++t) := by
    simp [encodeArg,str,CRLF]
  have hhead : endLine (left+1) argv (36::Decimal.encode a.length) = body (left+1) argv a.length [] := by
    rw [endLine,if_neg (by simp),headerOf_encode ha]
    rfl
  have hp : (a++CRLF).length = a.length+2 := by simp [CRLF]
  rw [hsplit,feed_line_end (marked_notMem (by decide) (by decide) _) (marked_notMem (by decide) (by decide) _)
    (by simp),hhead,feed_body_end _ _ hp]
  rfl

theorem kept_big {a : Bytes} (h : PROTO_MBULK_BIG_ARG ≤ a.length) : kept a = a++CRLF := by
  rw [kept,argument,if_pos h]

theorem kept_small {a : Bytes} (h : a.length < PROTO_MBULK_BIG_ARG) : kept a = a := by
  rw [kept,argument,if_neg (not_le.mpr h),List.take_left]

def argHead (a : Bytes) : Bytes := 36::Decimal.encode a.length++CR::LF::(a++[CR])

theorem encodeArg_eq (a : Bytes) : encodeArg a = argHead a++[LF] := by
  simp [encodeArg,argHead,str,CRLF]

theorem feed_argHead {left : ℕ} {argv : List Bytes} {a : Bytes} (ha : a.length < PROTO_MBULK_BIG_ARG) :
    feed (line (left+1) argv []) (argHead a) = (body (left+1) argv a.length (a++[CR]),[]) := by
  have hline : feed (line (left+1) argv []) (argHead a) =
      feed (endLine (left+1) argv (36::Decimal.encode a.length)) (a++[CR]) :=
    feed_line_end (marked_notMem (by decide) (by decide) _) (marked_notMem (by decide) (by decide) _)
      (by simp) LF (a++[CR])
  have hend : endLine (left+1) argv (36::Decimal.encode a.length) = body (left+1) argv a.length [] := by
    have hmax : a.length < 32768 := ha
    rw [endLine,if_neg (by simp),headerOf_encode (by omega)]
    rfl
  rw [hline,hend]
  exact feed_body_front (by simp)

theorem step_lastByte {left : ℕ} {argv : List Bytes} {a : Bytes} (ha : a.length < PROTO_MBULK_BIG_ARG) :
    step (body (left+1) argv a.length (a++[CR])) LF = endBody left (argv++[a]) := by
  rw [step,if_neg (by simp),argument,if_neg (not_le.mpr ha)]
  simp

theorem feed_encodeArg {left : ℕ} {argv : List Bytes} {a : Bytes} (ha : a.length < PROTO_MBULK_BIG_ARG) :
    feed (line (left+1) argv []) (encodeArg a) =
      ((endBody left (argv++[a])).1,(endBody left (argv++[a])).2.toList) := by
  have hmax : a.length < 32768 := ha
  rw [← List.append_nil (encodeArg a),feed_encodeArg_kept (by omega),kept_small ha,after]
  simp

theorem feed_args (argv : List Bytes) {init : List Bytes} {a : Bytes} (hinit : ∀ b ∈ init, b.length < PROTO_MBULK_BIG_ARG)
    (ha : a.length < PROTO_MBULK_BIG_ARG) :
    feed (line (init.length+1) argv []) (init.flatMap encodeArg++argHead a) =
      (body 1 (argv++init) a.length (a++[CR]),[]) := by
  induction init generalizing argv with
  | nil => simpa using (feed_argHead ha : feed (line (0+1) argv []) (argHead a) = _)
  | cons b init ih =>
    have hb : b.length < PROTO_MBULK_BIG_ARG := hinit b (by simp)
    have hnext : endBody (init.length+1) (argv++[b]) = (line (init.length+1) (argv++[b]) [],none) := by
      rw [endBody,if_neg (by simp)]
    rw [List.flatMap_cons,List.append_assoc,List.length_cons,feed_append,
      feed_encodeArg hb,hnext]
    have hrest := ih (argv++[b]) fun b hb => hinit b (by simp [hb])
    rw [hrest]
    simp

/-- A request is put out at its last byte and not before. -/
theorem request_split {r : List Bytes} (h : WellFormedRequest r) :
    ∃ s, encodeRequest r = s++[LF] ∧ (feed start s).2 = [] ∧ step (feed start s).1 LF = (start,some r) := by
  obtain ⟨h1,hmax,hargs⟩ := h
  obtain ⟨init,a,rfl⟩ : ∃ init a, r = init++[a] :=
    (List.eq_nil_or_concat' r).resolve_left (by rintro rfl; simp at h1)
  have ha : a.length < PROTO_MBULK_BIG_ARG := hargs a (by simp)
  have hinit : ∀ b ∈ init, b.length < PROTO_MBULK_BIG_ARG := fun b hb => hargs b (by simp [hb])
  rw [List.length_append,List.length_singleton] at hmax
  let s := 42::Decimal.encode (init.length+1)++CR::LF::(init.flatMap encodeArg++argHead a)
  have hs : feed start s = (body 1 init a.length (a++[CR]),[]) := by
    have hline : feed start s = feed (endLine 0 [] (42::Decimal.encode (init.length+1)))
        (init.flatMap encodeArg++argHead a) :=
      feed_line_end (marked_notMem (by decide) (by decide) _) (marked_notMem (by decide) (by decide) _)
        (by simp) LF _
    have hend : endLine 0 [] (42::Decimal.encode (init.length+1)) = line (init.length+1) [] [] := by
      rw [endLine,if_pos rfl,countOf_encode hmax]
      rfl
    rw [hline,hend]
    exact feed_args [] hinit ha
  refine ⟨s,?_,by rw [hs],?_⟩
  · simp [s,encodeRequest,str,CRLF,encodeArg_eq]
  · rw [hs,step_lastByte ha]
    rfl

theorem feed_request {r : List Bytes} (h : WellFormedRequest r) :
    feed start (encodeRequest r) = (start,[r]) := by
  obtain ⟨s,hs,hout,hstep⟩ := request_split h
  rw [hs,feed_append,feed_cons,hstep,hout]
  rfl

theorem feed_requests {rs : List (List Bytes)} (h : ∀ r ∈ rs, WellFormedRequest r) :
    feed start (encodeRequests rs) = (start,rs) := by
  induction rs with
  | nil => rfl
  | cons r rs ih =>
    have hrest : feed start (rs.flatMap encodeRequest) = (start,rs) := ih fun r hr => h r (by simp [hr])
    rw [encodeRequests,List.flatMap_cons,feed_append,
      feed_request (h r (by simp)),
      hrest]
    rfl

/-- After a part of the stream, the requests that have arrived are out. -/
theorem feed_arrived {rs : List (List Bytes)} (h : ∀ r ∈ rs, WellFormedRequest r) {p q : Bytes}
    (hpq : p++q = encodeRequests rs) : (feed start p).2 = arrived p.length rs := by
  induction rs generalizing p with
  | nil =>
    obtain rfl : p = [] := (List.append_eq_nil_iff.mp hpq).1
    rfl
  | cons r rs ih =>
    have hr := h r (by simp)
    rw [encodeRequests,List.flatMap_cons] at hpq
    rw [arrived]
    split_ifs with hlen
    · obtain ⟨p',rfl⟩ : ∃ p', p = encodeRequest r++p' :=
        (List.prefix_of_prefix_length_le ⟨_,rfl⟩ ⟨q,hpq⟩ hlen).imp fun _ => Eq.symm
      rw [List.append_assoc,List.append_right_inj] at hpq
      rw [feed_append,feed_request hr,List.length_append,
        Nat.add_sub_cancel_left]
      exact congrArg (r::·) (ih (fun r hr => h r (by simp [hr])) hpq)
    · obtain ⟨s,hs,hout,-⟩ := request_split hr
      have hpre : p <+: s := by
        have hp : p <+: encodeRequest r++encodeRequests rs := ⟨q,hpq⟩
        refine List.prefix_of_prefix_length_le hp ?_ ?_
        · exact ⟨[LF]++encodeRequests rs,by rw [hs]; simp⟩
        · rw [hs,List.length_append,List.length_singleton] at hlen
          omega
      obtain ⟨t,rfl⟩ := hpre
      have hp : (feed start p).2 <+: (feed start (p++t)).2 := Mealy.feed_prefix step start p t
      rw [hout] at hp
      exact List.prefix_nil.mp hp

end Stage

end Tadpole
