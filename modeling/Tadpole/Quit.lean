import Tadpole.BigArguments
import Tadpole.InlineCommands
import Tadpole.QuitLoop

/-! What comes behind QUIT, and in front of it. -/
namespace Tadpole

open Stage

/-- A multibulk request of these arguments, in any form that the parser takes: a count line, a CR with a byte behind it
that is not looked at, and the arguments. -/
def MultibulkForm (argv : List Bytes) (s : Bytes) : Prop :=
  ∃ (m args : Bytes) (x : UInt8), CR ∉ m ∧ NUL ∉ m ∧ m.head? = some 42 ∧ countOf m = some argv.length ∧
    AcceptedArgs argv args ∧ s = m++CR::x::args

theorem encodeRequest_form {r : List Bytes} (h : AnySizeRequest r) : MultibulkForm r (encodeRequest r) := by
  have hargs : ∀ {as : List Bytes}, (∀ a ∈ as, a.length ≤ 512*1024*1024) → AcceptedArgs as (as.flatMap encodeArg) := by
    intro as has
    induction as with
    | nil => exact .nil
    | cons a as ih =>
      rw [List.forall_mem_cons] at has
      have hform := AcceptedArgs.cons (a:=a) (e:=CRLF) (x:=LF) (marked_notMem (by decide) (by decide) a.length)
        (marked_notMem (by decide) (by decide) a.length) (headerOf_encode has.1) rfl (ih has.2)
      rw [List.flatMap_cons]
      convert hform using 1
      simp [encodeArg,str,CRLF]
  refine ⟨42::Decimal.encode r.length,r.flatMap encodeArg,LF,marked_notMem (by decide) (by decide) _,
    marked_notMem (by decide) (by decide) _,rfl,countOf_encode h.2.1,hargs h.2.2,?_⟩
  simp [encodeRequest,str,CRLF]

/-- What is sent for a request: a multibulk or a line. -/
inductive SentRequest
  | multibulk (argv : List Bytes) (sent : Bytes)
  | inline (l : InlineLine)

namespace SentRequest

def bytes : SentRequest → Bytes
  | multibulk _ sent => sent
  | inline l => l.bytes

def argv : SentRequest → List Bytes
  | multibulk argv _ => argv
  | inline l => lineArgs l.text

def Whole : SentRequest → Prop
  | multibulk argv sent => MultibulkForm argv sent
  | inline l => l.Whole

def Plain : SentRequest → Prop
  | multibulk argv _ => ∀ a ∈ argv, a.length < PROTO_MBULK_BIG_ARG
  | inline _ => False

end SentRequest

/-- The requests among them that have a command. -/
def commandsSent (xs : List SentRequest) : List (List Bytes) :=
  (xs.map SentRequest.argv).filter fun argv => argv ≠ []

instance SentRequest.decidablePlain : DecidablePred SentRequest.Plain
  | multibulk argv _ => inferInstanceAs (Decidable (∀ a ∈ argv, a.length < PROTO_MBULK_BIG_ARG))
  | inline _ => .isFalse id

/-- Some requests, the first QUIT behind them and anything behind that, cut into reads. -/
structure SendsQuit (front : List SentRequest) (quit : SentRequest) (behind : Bytes) (chunks : List Bytes) : Prop where
  whole : ∀ x ∈ front++[quit], x.Whole
  first : ∀ x ∈ front, isQuit x.argv = false
  quits : isQuit quit.argv = true
  cut : chunks.flatten = (front++[quit]).flatMap SentRequest.bytes++behind
  nonempty : ∀ s ∈ chunks, s ≠ []
  reads : EachRead commandStatus ValidRead createClient chunks

/-- The commands executed are those of the requests, of which QUIT is the last, and behind it the parser is not called
again. -/
structure QuitEnds (requests : List SentRequest) (chunks : List Bytes) : Prop where
  executed : executed (readAll commandStatus createClient chunks) = commandsSent requests
  parsed : OnlyLast (HandsQuit commandStatus) (allCalls commandStatus createClient chunks)

def ArgvKeptAs : List Bytes → List Bytes → Prop := List.Forall₂ KeptAs

theorem ArgvKeptAs.nil_iff {argv argv' : List Bytes} (h : ArgvKeptAs argv argv') : argv = [] ↔ argv' = [] := by
  cases h <;> simp

theorem KeptAs.eq_iff {a b : Bytes} (h : KeptAs a b) : a = b ↔ a.length < PROTO_MBULK_BIG_ARG := by
  cases h with
  | small h => exact iff_of_true rfl h
  | big hbig he =>
    refine iff_of_false (fun hab => ?_) (not_lt.mpr hbig)
    have := congrArg List.length hab
    rw [List.length_append,he] at this
    omega

theorem eq_of_forall₂ {A : Type} {R : A → A → Prop} {P : A → Prop} (hR : ∀ a b, P a ∧ R a b → a = b) {l m : List A}
    (h : List.Forall₂ R l m) (hP : ∀ a ∈ l, P a) : l = m := by
  have heq := ((List.forall₂_and_left l m).mpr ⟨hP,h⟩).imp hR
  rwa [List.forall₂_eq_eq_eq] at heq

theorem ArgvKeptAs.eq_iff {argv argv' : List Bytes} (h : ArgvKeptAs argv argv') :
    argv = argv' ↔ ∀ a ∈ argv, a.length < PROTO_MBULK_BIG_ARG := by
  refine ⟨?_,eq_of_forall₂ (fun a b h => h.2.eq_iff.mpr h.1) h⟩
  rintro rfl a ha
  exact (List.forall₂_same.mp h a ha).eq_iff.mp rfl

theorem kept_eq_iff {rs rs' : List (List Bytes)} (h : List.Forall₂ ArgvKeptAs rs rs') :
    rs = rs' ↔ ∀ r ∈ rs, ∀ a ∈ r, a.length < PROTO_MBULK_BIG_ARG := by
  refine ⟨?_,eq_of_forall₂ (fun r r' h => h.2.eq_iff.mpr h.1) h⟩
  rintro rfl r hr
  exact (List.forall₂_same.mp h r hr).eq_iff.mp rfl

theorem MultibulkForm.feedLeft {argv : List Bytes} {s : Bytes} (h : MultibulkForm argv s) (t : Bytes) :
    ∃ argv', ArgvKeptAs argv argv' ∧ Stage.feedLeft start (s++t) =
      ((Stage.feedLeft start t).1,(if argv' = [] then [] else [(argv',t)])++(Stage.feedLeft start t).2) := by
  obtain ⟨m,args,x,hc,h0,hstar,hcount,hargs,rfl⟩ := h
  have hline : Stage.feedLeft start (m++CR::x::args++t) = Stage.feedLeft (line argv.length [] []) (args++t) := by
    rw [List.append_assoc,List.cons_append,List.cons_append,start,feedLeft_line_end hc h0 (fun _ => hstar),endLine,if_pos rfl,
      hcount,Option.elim_some]
  obtain ⟨argv',hkept,hafter⟩ := hargs.afterLeft 0 [] t
  refine ⟨argv',hkept,?_⟩
  rw [hline]
  cases hkept with
  | nil =>
    cases hargs
    rw [if_pos rfl]
    rfl
  | cons _ _ =>
    rw [if_neg (by simp)]
    exact hafter

theorem MultibulkForm.feed {argv : List Bytes} {s : Bytes} (h : MultibulkForm argv s) (t : Bytes) :
    ∃ argv', ArgvKeptAs argv argv' ∧ Stage.feed start (s++t) =
      ((Stage.feed start t).1,(if argv' = [] then [] else [argv'])++(Stage.feed start t).2) := by
  obtain ⟨argv',hkept,hleft⟩ := h.feedLeft t
  refine ⟨argv',hkept,?_⟩
  rw [feedLeft_feed,hleft,feedLeft_feed start t,List.map_append]
  split_ifs <;> rfl

theorem feed_multibulks {xs : List SentRequest} (h : ∀ x ∈ xs, ∃ argv sent, x = .multibulk argv sent ∧ x.Whole)
    (t : Bytes) :
    ∃ rs, List.Forall₂ ArgvKeptAs (commandsSent xs) rs ∧
      feed start (xs.flatMap SentRequest.bytes++t) = ((feed start t).1,rs++(feed start t).2) := by
  induction xs with
  | nil => exact ⟨[],.nil,rfl⟩
  | cons x xs ih =>
    rw [List.forall_mem_cons] at h
    obtain ⟨⟨argv,sent,rfl,hform⟩,hxs⟩ := h
    obtain ⟨rs,hrs,hrest⟩ := ih hxs
    obtain ⟨argv',hkept,hfeed⟩ := MultibulkForm.feed hform (xs.flatMap SentRequest.bytes++t)
    have hsplit : (SentRequest.multibulk argv sent::xs).flatMap SentRequest.bytes++t =
        sent++(xs.flatMap SentRequest.bytes++t) := by
      rw [List.flatMap_cons,List.append_assoc,SentRequest.bytes]
    rw [hsplit,hfeed,hrest]
    by_cases hnil : argv = []
    · rw [if_pos (hkept.nil_iff.mp hnil)]
      refine ⟨rs,?_,rfl⟩
      rwa [commandsSent,List.map_cons,SentRequest.argv,List.filter_cons_of_neg (by simpa using hnil)]
    · rw [if_neg (mt hkept.nil_iff.mpr hnil)]
      refine ⟨argv'::rs,?_,rfl⟩
      rw [commandsSent,List.map_cons,SentRequest.argv,List.filter_cons_of_pos (by simpa using hnil)]
      exact .cons hkept hrs

theorem commandsSent_append (xs ys : List SentRequest) : commandsSent (xs++ys) = commandsSent xs++commandsSent ys := by
  rw [commandsSent,List.map_append,List.filter_append]
  rfl

theorem multibulks_or_inline {xs : List SentRequest} (h : ∀ x ∈ xs, x.Whole) :
    (∀ x ∈ xs, ∃ argv sent, x = .multibulk argv sent ∧ x.Whole) ∨
    ∃ ms l ys, xs = ms++SentRequest.inline l::ys ∧ l.Whole ∧
      ∀ x ∈ ms, ∃ argv sent, x = .multibulk argv sent ∧ x.Whole := by
  induction xs with
  | nil => exact Or.inl (by simp)
  | cons x xs ih =>
    rw [List.forall_mem_cons] at h
    cases x with
    | inline l => exact Or.inr ⟨[],l,xs,rfl,h.1,by simp⟩
    | multibulk argv sent =>
      have hx : ∃ argv' sent', SentRequest.multibulk argv sent = .multibulk argv' sent' ∧
          (SentRequest.multibulk argv sent).Whole := ⟨argv,sent,rfl,h.1⟩
      rcases ih h.2 with hall | ⟨ms,l,ys,rfl,hl,hms⟩
      · exact Or.inl (List.forall_mem_cons.mpr ⟨hx,hall⟩)
      · exact Or.inr ⟨_::ms,l,ys,rfl,hl,List.forall_mem_cons.mpr ⟨hx,hms⟩⟩

theorem cstr_append {a : Bytes} (h : NUL ∈ a) (e : Bytes) : cstr (a++e) = cstr a := by
  rw [cstr,cstr,List.takeWhile_append]
  refine if_neg fun hall => ?_
  have hself := List.takeWhile_eq_self_iff.mp (List.takeWhile_prefix _ |>.eq_of_length hall) NUL h
  simp at hself

theorem strcasecmp_kept {a b : Bytes} (h : KeptAs a b) : strcasecmp b (str "quit") = strcasecmp a (str "quit") := by
  cases h with
  | small _ => rfl
  | @big e hbig _ =>
    rw [strcasecmp,strcasecmp]
    by_cases hnul : NUL ∈ a
    · rw [cstr_append hnul]
    · have hlong : ∀ s : Bytes, a <+: s → s.map tolower ≠ (cstr (str "quit")).map tolower := by
        intro s hs he
        have hlen := congrArg List.length he
        rw [List.length_map,show ((cstr (str "quit")).map tolower).length = 4 from rfl] at hlen
        exact absurd (hbig.trans (hlen ▸ hs.length_le)) (by decide)
      have hcstr : a <+: cstr (a++e) := by
        rw [cstr,List.takeWhile_append_of_pos (by simpa using fun b hb (h : b = NUL) => hnul (h ▸ hb))]
        exact List.prefix_append ..
      simp only [hlong _ hcstr,cstr_eq_self hnul,hlong a List.prefix_rfl]

theorem ArgvKeptAs.isQuit {argv argv' : List Bytes} (h : ArgvKeptAs argv argv') : isQuit argv' = isQuit argv := by
  cases h with
  | nil => rfl
  | cons ha _ =>
    rw [Tadpole.isQuit,Tadpole.isQuit,List.head?_cons,List.head?_cons,Option.any_some,Option.any_some,strcasecmp_kept ha]

theorem exists_left {A B : Type} {R : A → B → Prop} {l : List A} {m : List B} (h : List.Forall₂ R l m) {b : B}
    (hb : b ∈ m) :
    ∃ a ∈ l, R a b := by
  induction h with
  | nil => cases hb
  | cons hr _ ih =>
    rcases List.mem_cons.mp hb with rfl | hb
    · exact ⟨_,List.mem_cons_self,hr⟩
    · obtain ⟨a,ha,hab⟩ := ih hb
      exact ⟨a,List.mem_cons_of_mem _ ha,hab⟩

/-- Of a stream in which a line is behind some requests no more than these are executed. -/
theorem executed_front {ms : List SentRequest} (hms : ∀ x ∈ ms, ∃ argv sent, x = .multibulk argv sent ∧ x.Whole)
    (hfirst : ∀ x ∈ ms, isQuit x.argv = false) {l : InlineLine} (hl : l.Whole) {t : Bytes} {chunks : List Bytes}
    (hcut : chunks.flatten = ms.flatMap SentRequest.bytes++(l.bytes++t))
    (hreads : EachRead commandStatus ValidRead createClient chunks) :
    (executed (readAll commandStatus createClient chunks)).length ≤ (commandsSent ms).length := by
  have hne : l.bytes++t ≠ [] := by simp [l.bytes_eq]
  obtain ⟨rs,hkept,hfeed⟩ := feed_multibulks hms (l.bytes++t)
  rw [← hcut,feed_start_foreign hne (hl.head t),List.append_nil] at hfeed
  have hf : Follows commandStatus (executed (readAll commandStatus createClient chunks))
      (readAll commandStatus createClient chunks).2 (feed start chunks.flatten) := by
    refine readAll_follows (.count rfl (by simp)) ?_ ?_
    · rw [hfeed]
      intro r hr herr
      obtain ⟨q,hq,hqr⟩ := exists_left hkept hr
      obtain ⟨x,hx,rfl⟩ := List.mem_map.mp (List.mem_of_mem_filter hq)
      rw [commandStatus_err_iff,hqr.isQuit,hfirst x hx] at herr
      cases herr
    · intro pre c s hat hw _
      refine ⟨hw.not_rereads fun hrej => ?_,hreads.readAt hat⟩
      obtain ⟨⟨post,hpost⟩,-⟩ := hat
      rw [← hpost,List.flatten_append,List.flatten_append,List.append_assoc,feed_append,hrej,feed,
        rejected_absorbing.feed] at hfeed
      exact Stage.noConfusion (Prod.mk.inj hfeed).1
  rw [hf.argvs,hfeed,hkept.length_eq]
  exact (untilExit_front _).length_le

/-- If QUIT ended the process, what is executed would be all up to it, as the parser keeps it. -/
theorem executed_closing {xs : List SentRequest} (hxs : ∀ x ∈ xs, ∃ argv sent, x = .multibulk argv sent ∧ x.Whole)
    (hquit : ∃ r ∈ commandsSent xs, isQuit r = true) {t : Bytes} {chunks : List Bytes}
    (hcut : chunks.flatten = xs.flatMap SentRequest.bytes++t)
    (hreads : EachRead commandStatus ValidRead createClient chunks) :
    ∃ rs, List.Forall₂ ArgvKeptAs (commandsSent xs) rs ∧
      executed (readAll (closing commandStatus) createClient chunks) = untilExit (closing commandStatus) rs := by
  obtain ⟨rs,hkept,hall⟩ := feed_multibulks hxs []
  rw [List.append_nil,feed_nil,List.append_nil] at hall
  have hexit : ∃ r ∈ rs, closing commandStatus r = .exit := by
    obtain ⟨q,hq,hisq⟩ := hquit
    obtain ⟨r,hr,hqr⟩ := exists_left hkept.flip hq
    exact ⟨r,hr,by rw [closing,if_pos (commandStatus_err_iff.mpr (ArgvKeptAs.isQuit hqr |>.trans hisq))]⟩
  have hf : Follows (closing commandStatus) (executed (readAll (closing commandStatus) createClient chunks))
      (readAll (closing commandStatus) createClient chunks).2 (feed start chunks.flatten) := by
    refine readAll_follows (.count rfl (by simp)) (fun r _ => closing_ne_err r) fun pre c s hat hw hno => ?_
    refine ⟨hw.not_rereads fun hrej => ?_,hreads.closing.readAt hat⟩
    obtain ⟨⟨post,hpost⟩,-⟩ := hat
    have hpre : pre.flatten <+: xs.flatMap SentRequest.bytes++t := by
      rw [← hcut,← hpost,List.flatten_append,List.flatten_append,List.append_assoc]
      exact List.prefix_append _ _
    rcases List.prefix_or_prefix_of_prefix hpre (List.prefix_append (xs.flatMap SentRequest.bytes) t) with ⟨u,hu⟩ | ⟨u,hu⟩
    · -- in front of the end of QUIT nothing is rejected
      rw [← hu,feed_append,hrej,feed,rejected_absorbing.feed] at hall
      exact Stage.noConfusion (Prod.mk.inj hall).1
    · -- and behind it there is no read
      obtain ⟨r,hr,hx⟩ := hexit
      rw [← hu,feed_append,hall] at hno
      exact hno r (List.mem_append_left _ hr) hx
  refine ⟨rs,hkept,?_⟩
  rw [hf.argvs,hcut,feed_append,hall,untilExit_append_exit hexit]

section
variable {front : List SentRequest} {quit : SentRequest} {behind : Bytes} {chunks : List Bytes}

theorem SendsQuit.commands (h : SendsQuit front quit behind chunks) :
    commandsSent (front++[quit]) = commandsSent front++[quit.argv] := by
  have hne : quit.argv ≠ [] := by
    intro hnil
    have hq := h.quits
    rw [hnil] at hq
    cases hq
  rw [commandsSent_append,commandsSent,commandsSent,List.map_singleton,List.filter_cons_of_pos (by simpa using hne)]
  rfl

/-- Some request in front ends the server, or the commands are executed up to QUIT, all as the parser keeps them. -/
theorem SendsQuit.executed (h : SendsQuit front quit behind chunks)
    (hxs : ∀ x ∈ front++[quit], ∃ argv sent, x = .multibulk argv sent ∧ x.Whole) :
    ∃ fs q, List.Forall₂ ArgvKeptAs (commandsSent front++[quit.argv]) (fs++[q]) ∧
      fs.length = (commandsSent front).length ∧ commandStatus q = .err ∧
      ((∃ r ∈ fs, commandStatus r = .exit) ∧
          (Tadpole.executed (readAll commandStatus createClient chunks)).length ≤ fs.length ∨
        (∀ r ∈ fs, commandStatus r ≠ .exit) ∧
          fs++[q] <+: Tadpole.executed (readAll commandStatus createClient chunks)) := by
  obtain ⟨rs,hkept,hrun⟩ := executed_closing hxs ⟨quit.argv,by simp [h.commands],h.quits⟩ h.cut h.reads
  rw [h.commands] at hkept
  have hfs := List.forall₂_take (commandsSent front).length hkept
  have hq := List.forall₂_drop (commandsSent front).length hkept
  rw [List.take_left] at hfs
  rw [List.drop_left] at hq
  have hrs := List.take_append_drop (commandsSent front).length rs
  generalize rs.take (commandsSent front).length = fs at hfs hrs
  generalize rs.drop (commandsSent front).length = qs at hq hrs
  obtain _ | @⟨-,q,-,-,hkeptq,_ | _⟩ := hq
  subst hrs
  have hqerr : commandStatus q = .err := commandStatus_err_iff.mpr ((ArgvKeptAs.isQuit hkeptq).trans h.quits)
  have hnerr : ∀ r ∈ fs, commandStatus r ≠ .err := by
    intro r hr herr
    obtain ⟨r',hr',hkeptr⟩ := exists_left hfs hr
    obtain ⟨x,hx,rfl⟩ := List.mem_map.mp (List.mem_of_mem_filter hr')
    rw [commandStatus_err_iff,ArgvKeptAs.isQuit hkeptr,h.first x hx] at herr
    cases herr
  have hsame : ∀ r ∈ fs, closing commandStatus r = commandStatus r := fun r hr => if_neg (hnerr r hr)
  refine ⟨fs,q,hkept,hfs.length_eq.symm,hqerr,?_⟩
  have hup := readAll_upToQuit commandStatus createClient chunks
  rw [hrun] at hup
  by_cases hexit : ∃ r ∈ fs, commandStatus r = .exit
  · have hclosing : ∃ r ∈ fs, closing commandStatus r = .exit := by
      obtain ⟨r,hr,hx⟩ := hexit
      exact ⟨r,hr,(hsame r hr).trans hx⟩
    rw [untilExit_append_exit hclosing] at hup
    refine Or.inl ⟨hexit,?_⟩
    rcases hup with ⟨heq,-⟩ | ⟨-,-,r,hr,herr⟩
    · rw [← (Prod.mk.inj heq).1]
      exact (untilExit_front _).length_le
    · exact absurd herr (hnerr r ((untilExit_front _).mem hr))
  · have hno : ∀ r ∈ fs, commandStatus r ≠ .exit := fun r hr hx => hexit ⟨r,hr,hx⟩
    have hlast : untilExit (closing commandStatus) (fs++[q]) = fs++[q] := by
      rw [untilExit_append fun r hr => (hsame r hr).symm ▸ hno r hr,untilExit,untilExit,ite_self]
    rw [hlast] at hup
    refine Or.inr ⟨hno,?_⟩
    rcases hup with ⟨-,hnone⟩ | ⟨-,hfront,-⟩
    · exact absurd hqerr (hnone q (by simp))
    · exact hfront

theorem onlyLast_executed {chunks : List Bytes}
    (h : OnlyLast (HandsQuit commandStatus) (allCalls commandStatus createClient chunks)) :
    OnlyLast (fun argv => commandStatus argv = .err) (executed (readAll commandStatus createClient chunks)) := by
  obtain ⟨rest,hrest⟩ : (readAll commandStatus createClient chunks).1.flatten <+: _ := allCalls_handed _ _
  have hev : OnlyLast (Event.Closes commandStatus) (List.filterMap handed _) := h.filterMap
  rw [← hrest] at hev
  exact OnlyLast.map (Q := fun argv => commandStatus argv = .err) (f := Event.argv) hev.of_append

theorem SendsQuit.multibulks (h : SendsQuit front quit behind chunks) (hplain : ∀ x ∈ front++[quit], x.Plain) :
    ∀ x ∈ front++[quit], ∃ argv sent, x = .multibulk argv sent ∧ x.Whole := by
  intro x hx
  cases x with
  | multibulk argv sent => exact ⟨argv,sent,rfl,h.whole _ hx⟩
  | inline l => exact (hplain _ hx).elim

theorem SendsQuit.nothingBehind_iff (h : SendsQuit front quit behind chunks) (hplain : ∀ x ∈ front++[quit], x.Plain)
    (hno : ∀ r ∈ commandsSent front, commandStatus r ≠ .exit) :
    NothingBehind (Event.Closes commandStatus) (readAll commandStatus createClient chunks).1 chunks.length ↔
      behind = [] := by
  have hxs := h.multibulks hplain
  have hfronts : ∀ x ∈ front, ∃ argv sent, x = .multibulk argv sent ∧ x.Whole := fun x hx => hxs x (by simp [hx])
  obtain ⟨rs,hkept,hfeed⟩ := feed_multibulks hfronts []
  rw [List.append_nil,feed_nil,List.append_nil] at hfeed
  have hrs : commandsSent front = rs := by
    refine (kept_eq_iff hkept).mpr fun r hr => ?_
    obtain ⟨x,hx,rfl⟩ := List.mem_map.mp (List.mem_of_mem_filter hr)
    obtain ⟨argv,sent,rfl,-⟩ := hxs x (by simp [hx])
    exact hplain (.multibulk argv sent) (by simp [hx])
  have hok : ∀ r ∈ rs, commandStatus r = .ok := by
    intro r hr
    rw [← hrs] at hr
    obtain ⟨x,hx,hxr⟩ := List.mem_map.mp (List.mem_of_mem_filter hr)
    cases hst : commandStatus r with
    | ok => rfl
    | err =>
      rw [commandStatus_err_iff,← hxr,h.first x hx] at hst
      cases hst
    | exit => exact absurd hst (hno r hr)
  obtain ⟨argv,sent,rfl,hform⟩ := hxs quit (by simp)
  obtain ⟨argv',hkeptq,hleft⟩ := MultibulkForm.feedLeft hform behind
  have hquit : commandStatus argv' = .err := commandStatus_err_iff.mpr (hkeptq.isQuit.trans h.quits)
  have hne : argv' ≠ [] := by
    rintro rfl
    cases hquit
  have hstream : chunks.flatten = front.flatMap SentRequest.bytes++(sent++behind) := by
    rw [h.cut,List.flatMap_append,List.append_assoc,List.flatMap_singleton,SentRequest.bytes]
  have hf : (feedLeft start chunks.flatten).2 =
      (feedLeft start (front.flatMap SentRequest.bytes)).2.map (fun o => (o.1,o.2++(sent++behind)))++
        (argv',behind)::(feedLeft start behind).2 := by
    rw [hstream,feedLeft,Mealy.feedLeft_split]
    rw [feed] at hfeed
    rw [hfeed]
    rw [if_neg hne] at hleft
    exact congrArg (_++·) (congrArg Prod.snd hleft)
  refine nothingBehind_iff_behind (.count rfl (by simp)) h.reads h.nonempty hf (fun r hr => ?_) hquit
  obtain ⟨o,ho,rfl⟩ := List.mem_map.mp hr
  refine hok o.1 ?_
  rw [feedLeft_feed] at hfeed
  rw [← (Prod.mk.inj hfeed).2]
  exact List.mem_map_of_mem ho

/-- QUIT ends the connection after the requests that were sent exactly when all of them are multibulk requests without
big arguments, none in front of it ends the server, and no byte comes behind it. -/
theorem quitEnds_iff (h : SendsQuit front quit behind chunks) : QuitEnds (front++[quit]) chunks ↔
    (∀ x ∈ front++[quit], x.Plain) ∧ (∀ r ∈ commandsSent front, commandStatus r ≠ .exit) ∧ behind = [] := by
  constructor
  · rintro ⟨hexec,hparsed⟩
    rw [h.commands] at hexec
    rcases multibulks_or_inline h.whole with hxs | ⟨ms,l,ys,hsplit,hl,hms⟩
    · obtain ⟨fs,q,hkept,hlen,-,⟨-,hshort⟩ | ⟨hno,hfront⟩⟩ := h.executed hxs
      · rw [hexec,List.length_append,List.length_singleton] at hshort
        omega
      · rw [hexec] at hfront
        have heq := hfront.eq_of_length hkept.length_eq.symm
        have hplain : ∀ x ∈ front++[quit], x.Plain := by
          intro x hx
          obtain ⟨argv,sent,rfl,-⟩ := hxs x hx
          by_cases hnil : argv = []
          · simp [SentRequest.Plain,hnil]
          · refine (kept_eq_iff hkept).mp heq.symm argv ?_
            rw [← h.commands,commandsSent,List.mem_filter]
            exact ⟨List.mem_map_of_mem hx,by simpa using hnil⟩
        rw [List.append_inj_left' heq rfl] at hno
        exact ⟨hplain,hno,(h.nothingBehind_iff hplain hno).mp ((onlyLast_allCalls_iff h.nonempty).mp hparsed)⟩
    · -- from the first line on nothing is executed
      obtain ⟨zs,z,hz⟩ : ∃ zs z, SentRequest.inline l::ys = zs++[z] :=
        ⟨_,_,(List.dropLast_append_getLast (List.cons_ne_nil _ _)).symm⟩
      have hfront : front = ms++zs := by
        rw [hz,← List.append_assoc] at hsplit
        exact List.append_inj_left' hsplit rfl
      have hfew := executed_front hms (fun x hx => h.first x (by simp [hfront,hx])) hl (t:=ys.flatMap SentRequest.bytes++behind)
        (by rw [h.cut,hsplit]; simp [SentRequest.bytes]) h.reads
      rw [hexec,hfront,commandsSent_append,List.length_append,List.length_append,List.length_singleton] at hfew
      omega
  · rintro ⟨hplain,hno,hbehind⟩
    have hxs := h.multibulks hplain
    have hparsed := (onlyLast_allCalls_iff h.nonempty).mpr ((h.nothingBehind_iff hplain hno).mpr hbehind)
    refine ⟨?_,hparsed⟩
    rw [h.commands]
    obtain ⟨fs,q,hkept,hlen,hq,hrun⟩ := h.executed hxs
    have heq := (kept_eq_iff hkept).mpr fun r hr => by
      rw [← h.commands] at hr
      obtain ⟨x,hx,rfl⟩ := List.mem_map.mp (List.mem_of_mem_filter hr)
      obtain ⟨argv,sent,rfl,-⟩ := hxs x hx
      exact hplain _ hx
    obtain ⟨⟨r,hr,hx⟩,-⟩ | ⟨-,rest,hrest⟩ := hrun
    · rw [← List.append_inj_left' heq rfl] at hr
      exact absurd hx (hno r hr)
    · have honly := onlyLast_executed hparsed
      rw [← hrest,List.append_assoc] at honly
      cases rest with
      | nil => rw [← hrest,List.append_nil,heq]
      | cons r rest =>
        refine absurd hq (honly q ?_)
        rw [← List.append_assoc,List.dropLast_append_of_ne_nil (List.cons_ne_nil _ _)]
        simp

end

/-- QUIT behind another request, in a read of its own. -/
theorem quitEnds_ping_quit :
    let request (r : List Bytes) : SentRequest := .multibulk r (encodeRequest r)
    QuitEnds ([request [str "ping"]]++[request [str "quit"]])
      [str "*1\r\n$4\r\nping\r\n",str "*1\r\n$4\r\nquit\r\n"] := by
  intro request
  have hping : MultibulkForm [str "ping"] (encodeRequest [str "ping"]) :=
    encodeRequest_form (by simp [AnySizeRequest,str])
  have hquit : MultibulkForm [str "quit"] (encodeRequest [str "quit"]) :=
    encodeRequest_form (by simp [AnySizeRequest,str])
  have hsends : SendsQuit [request [str "ping"]] (request [str "quit"]) []
      [str "*1\r\n$4\r\nping\r\n",str "*1\r\n$4\r\nquit\r\n"] :=
    ⟨List.forall_mem_cons.mpr ⟨hping,List.forall_mem_singleton.mpr hquit⟩,by decide,by decide,by decide,by decide,
      by decide +kernel⟩
  exact (quitEnds_iff hsends).mpr ⟨by decide,by decide,rfl⟩

/-- A request in the buffer behind QUIT is parsed by a client that still has the argument vector of QUIT, and an
assertion fails. -/
theorem quit_ping_not_quitEnds :
    let quit : SentRequest := .multibulk [str "quit"] (encodeRequest [str "quit"])
    let behind := str "*1\r\n$4\r\nping\r\n"
    let chunks := [str "*1\r\n$4\r\nquit\r\n"++behind]
    SendsQuit [] quit behind chunks ∧ (readAll commandStatus createClient chunks).2 = .abort ∧
      ¬ QuitEnds ([]++[quit]) chunks := by
  intro quit behind chunks
  have hquit : MultibulkForm [str "quit"] (encodeRequest [str "quit"]) :=
    encodeRequest_form (by simp [AnySizeRequest,str])
  have hsends : SendsQuit [] quit behind chunks :=
    ⟨List.forall_mem_singleton.mpr hquit,by decide,by decide,by decide,by decide,by decide +kernel⟩
  refine ⟨hsends,by decide +kernel,fun h => ?_⟩
  have hlast := (onlyLast_allCalls_iff hsends.nonempty).mp h.parsed
  revert hlast
  decide +kernel

end Tadpole
