import Tadpole.Decoding

/-! Requests the parser rejects. The rejecting returns leave the buffer as it was before the call, so
a later read may parse arguments again that are there already. -/
namespace Tadpole

open Stage

def EachRead (exec : List Bytes → Status) (P : Client → Bytes → Prop) : Client → List Bytes → Prop
  | _, [] => True
  | c, s::chunks => P c s ∧
    match (readQueryFromClient exec c s).2 with
    | .idle c' => EachRead exec P c' chunks
    | _ => True

def EachRead.decide (exec : List Bytes → Status) (P : Client → Bytes → Prop) [∀ c s, Decidable (P c s)] :
    ∀ c chunks, Decidable (EachRead exec P c chunks)
  | _, [] => .isTrue trivial
  | c, s::chunks =>
    have : Decidable (match (readQueryFromClient exec c s).2 with
        | .idle c' => EachRead exec P c' chunks
        | _ => True) :=
      match (readQueryFromClient exec c s).2 with
      | .idle c' => EachRead.decide exec P c' chunks
      | .exit => .isTrue trivial
      | .abort => .isTrue trivial
      | .badFree => .isTrue trivial
      | .undefined => .isTrue trivial
    inferInstanceAs (Decidable (_ ∧ _))

instance (exec : List Bytes → Status) (P : Client → Bytes → Prop) [∀ c s, Decidable (P c s)] (c : Client)
    (chunks : List Bytes) : Decidable (EachRead exec P c chunks) := EachRead.decide exec P c chunks

theorem EachRead.readAt {exec : List Bytes → Status} {P : Client → Bytes → Prop} {c c' : Client}
    {chunks pre : List Bytes} {s : Bytes} (h : EachRead exec P c chunks) (hat : ReadAt exec c chunks pre c' s) :
    P c' s := by
  induction pre generalizing c chunks with
  | nil =>
    obtain ⟨⟨post,rfl⟩,hidle⟩ := hat
    obtain rfl : c = c' := by
      injection hidle
    exact h.1
  | cons t pre ih =>
    obtain ⟨⟨post,rfl⟩,hidle⟩ := hat
    have hrest := h.2
    rw [readAll] at hidle
    rcases hq : readQueryFromClient exec c t with ⟨es,r⟩
    rw [hq] at hidle hrest
    cases r with
    | idle d => exact ih hrest ⟨⟨post,rfl⟩,hidle⟩
    | exit => cases hidle
    | abort => cases hidle
    | badFree => cases hidle
    | undefined => cases hidle

/-- `read` gives at least one byte, and no more than was asked for. -/
def ValidRead (c : Client) (s : Bytes) : Prop := s ≠ [] ∧ s.length ≤ readlen c

instance (c : Client) (s : Bytes) : Decidable (ValidRead c s) := inferInstanceAs (Decidable (_ ∧ _))

/-- Arguments that the parser takes: a header line each, the payload it announces, and behind both of them two
bytes that it does not look at. -/
inductive AcceptedArgs : List Bytes → Bytes → Prop
  | nil : AcceptedArgs [] []
  | cons {a e l s : Bytes} {as : List Bytes} {x : UInt8} : CR ∉ l → NUL ∉ l → headerOf l = some a.length →
      e.length = 2 → AcceptedArgs as s → AcceptedArgs (a::as) (l++CR::x::(a++e++s))

/-- A request that is rejected for its count or, behind some arguments, for the header of the next one, and whatever
is behind it. -/
inductive Rejected : Bytes → Prop
  | count {l t : Bytes} {x : UInt8} : CR ∉ l → NUL ∉ l → l.head? = some 42 → countOf l = none →
      Rejected (l++CR::x::t)
  | header {n : ℕ} {as : List Bytes} {m args l t : Bytes} {x y : UInt8} : CR ∉ m → NUL ∉ m → m.head? = some 42 →
      countOf m = some n → as.length < n → AcceptedArgs as args → CR ∉ l → NUL ∉ l → headerOf l = none →
      Rejected (m++CR::y::(args++(l++CR::x::t)))

/-- An argument as the parser keeps it: a big one with the two bytes behind it. -/
inductive KeptAs (a : Bytes) : Bytes → Prop
  | small : a.length < PROTO_MBULK_BIG_ARG → KeptAs a a
  | big {e : Bytes} : PROTO_MBULK_BIG_ARG ≤ a.length → e.length = 2 → KeptAs a (a++e)

theorem keptAs_argument {a e : Bytes} (he : e.length = 2) : KeptAs a (argument a.length (a++e)) := by
  rw [argument]
  split_ifs with hbig
  · exact .big hbig he
  · rw [List.take_left]
    exact .small (not_le.mp hbig)

theorem AcceptedArgs.afterLeft {as : List Bytes} {args : Bytes} (h : AcceptedArgs as args) (left : ℕ) (argv : List Bytes)
    (t : Bytes) : ∃ argv', List.Forall₂ KeptAs as argv' ∧
      afterLeft (as.length+left) argv (args++t) = afterLeft left (argv++argv') t := by
  induction h generalizing argv with
  | nil => exact ⟨[],.nil,by rw [List.length_nil,Nat.zero_add,List.nil_append,List.append_nil]⟩
  | @cons a e l s as x hc h0 hhead he _ ih =>
    obtain ⟨argv',hkept,hrest⟩ := ih (argv++[argument a.length (a++e)])
    refine ⟨argument a.length (a++e)::argv',.cons (keptAs_argument he) hkept,?_⟩
    have hline : endLine (as.length+left+1) argv l = body (as.length+left+1) argv a.length [] := by
      rw [endLine,if_neg (by omega),hhead,Option.elim_some]
    have hp : (a++e).length = a.length+2 := by rw [List.length_append,he]
    rw [List.length_cons,show as.length+1+left = as.length+left+1 by omega,afterLeft_succ,List.append_assoc,
      List.cons_append,List.cons_append,List.append_assoc,feedLeft_line_end hc h0 (by simp),hline,
      feedLeft_body_end _ argv hp,Nat.add_sub_cancel,hrest,List.append_assoc,List.singleton_append]

theorem AcceptedArgs.after {as : List Bytes} {args : Bytes} (h : AcceptedArgs as args) (left : ℕ) (argv : List Bytes)
    (t : Bytes) : ∃ argv', List.Forall₂ KeptAs as argv' ∧
      after (as.length+left) argv (args++t) = after left (argv++argv') t := by
  obtain ⟨argv',hkept,hafter⟩ := h.afterLeft left argv t
  exact ⟨argv',hkept,by rw [afterLeft_after,hafter,← afterLeft_after]⟩

theorem Rejected.feed {q : Bytes} (h : Rejected q) : feed start q = (rejected,[]) := by
  cases h with
  | @count l t x hc h0 hstar hbad =>
    have hline : Stage.feed start (l++CR::x::t) = Stage.feed (endLine 0 [] l) t :=
      feed_line_end hc h0 (fun _ => hstar) x t
    rw [hline,endLine,if_pos rfl,hbad]
    exact rejected_absorbing.feed t
  | @header n as m args l t x y hmc hm0 hstar hcount hk hargs hc h0 hbad =>
    obtain ⟨left,rfl⟩ : ∃ left, n = as.length+(left+1) := ⟨n-as.length-1,by omega⟩
    have hline : Stage.feed start (m++CR::y::(args++(l++CR::x::t))) =
        Stage.after (as.length+(left+1)) [] (args++(l++CR::x::t)) := by
      rw [start,feed_line_end hmc hm0 (fun _ => hstar),endLine,if_pos rfl,hcount,Option.elim_some,← Nat.add_assoc,after_succ]
    obtain ⟨argv,-,hrest⟩ := hargs.after (left+1) [] (l++CR::x::t)
    rw [hline,hrest,after_succ,feed_line_end hc h0 (by simp),endLine,if_neg (by simp),hbad]
    exact rejected_absorbing.feed t

/-- Requests that are well formed and not QUIT, a rejected one behind them and anything behind that, cut
into reads. -/
structure SendsRejected (rs : List (List Bytes)) (q : Bytes) (chunks : List Bytes) : Prop where
  wellFormed : ∀ r ∈ rs, WellFormedRequest r
  noQuit : ∀ r ∈ rs, commandStatus r ≠ .err
  rejected : Rejected q
  cut : chunks.flatten = encodeRequests rs++q
  reads : EachRead commandStatus ValidRead createClient chunks

/-- What is executed are the requests in front of the rejected one, up to a SHUTDOWN. -/
def ExecutesNoRejected (rs : List (List Bytes)) (chunks : List Bytes) : Prop :=
  executed (readAll commandStatus createClient chunks) = untilExit commandStatus rs

instance (rs : List (List Bytes)) (chunks : List Bytes) : Decidable (ExecutesNoRejected rs chunks) :=
  inferInstanceAs (Decidable (_ = _))

/-- As long as no read finds a client that parses bytes again, nothing of a rejected request is
executed, nor anything behind it. -/
theorem executesNoRejected {rs : List (List Bytes)} {q : Bytes} {chunks : List Bytes}
    (h : SendsRejected rs q chunks)
    (honce : EachRead commandStatus (fun c _ => ¬ Rereads c) createClient chunks) :
    ExecutesNoRejected rs chunks := by
  have hfeed : feed start chunks.flatten = (rejected,rs) := by
    rw [h.cut,feed_append,feed_requests h.wellFormed,h.rejected.feed,List.append_nil]
  have hf : Follows commandStatus (executed (readAll commandStatus createClient chunks))
      (readAll commandStatus createClient chunks).2 (feed start chunks.flatten) :=
    readAll_follows (.count rfl (by simp)) (by rw [hfeed]; exact h.noQuit) fun pre c' s hat _ _ =>
      ⟨honce.readAt hat,h.reads.readAt hat⟩
  rw [ExecutesNoRejected,hf.argvs,hfeed]

/-- The request is cut so that the read of the bad header finds it at the front. -/
theorem executesNoRejected_trimmed :
    ExecutesNoRejected [[str "ping"]]
      [str "*1\r\n$4\r\nping\r\n*2\r\n$3\r\nget\r\n",str "!\r\n",str "$1\r\na\r\n"] := by
  have hget : AcceptedArgs [str "get"] (str "$3"++CR::LF::(str "get"++CRLF++[])) :=
    .cons (by decide) (by decide) (by decide) rfl .nil
  have hq : Rejected (str "*2"++CR::LF::(str "$3"++CR::LF::(str "get"++CRLF++[])++(str "!"++CR::LF::str "$1\r\na\r\n"))) :=
    .header (n:=2) (by decide) (by decide) (by decide) (by decide) (by decide) hget (by decide) (by decide) (by decide)
  exact executesNoRejected ⟨by decide,by decide,hq,by decide,by decide +kernel⟩ (by decide +kernel)

/-- The three arguments of the command that is executed are the same three bytes, sent once. The rest of the buffer
is a line then, and ends the process. -/
theorem put_put_put_not_executesNoRejected :
    let q := str "*3\r\n$3\r\nput\r\n!\r\nxy"
    let chunks := [str "*3\r\n",str "$3\r\nput\r\n!\r\n",str "x",str "y"]
    SendsRejected [] q chunks ∧
      executed (readAll commandStatus createClient chunks) = [[str "put",str "put",str "put"]] ∧
      ¬ ExecutesNoRejected [] chunks := by
  intro q chunks
  have hput : AcceptedArgs [str "put"] (str "$3"++CR::LF::(str "put"++CRLF++[])) :=
    .cons (by decide) (by decide) (by decide) rfl .nil
  have hq : Rejected (str "*3"++CR::LF::(str "$3"++CR::LF::(str "put"++CRLF++[])++(str "!"++CR::LF::str "xy"))) :=
    .header (n:=3) (by decide) (by decide) (by decide) (by decide) (by decide) hput (by decide) (by decide) (by decide)
  have hq' : Rejected q := (congrArg Rejected (by decide)).mp hq
  exact ⟨⟨by decide,by decide,hq',by decide,by decide +kernel⟩,by decide +kernel,by decide +kernel⟩

end Tadpole
