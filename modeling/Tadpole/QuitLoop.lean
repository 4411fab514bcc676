import Tadpole.Assertions
import Tadpole.Rejection
import Tadpole.Lib.OnlyLast

/-! The input loop behind a command that says that the client is gone. All the loop does about it is to leave the
client as it is, and the parser is called again as soon as there is a byte. -/
namespace Tadpole

open Stage

def Event.Closes (exec : List Bytes → Status) (e : Event) : Prop := exec e.argv = .err

instance decidableCloses (exec : List Bytes → Status) : DecidablePred (Event.Closes exec) :=
  fun e => inferInstanceAs (Decidable (exec e.argv = .err))

def HandsQuit (exec : List Bytes → Status) (x : Client) : Prop := ∃ e, handed x = some e ∧ e.Closes exec

section
variable {exec : List Bytes → Status}

/-- What the loop comes to: no QUIT; or a QUIT that is the last the buffer has, so that its call is the
last one as well; or one with a call behind it. -/
inductive QuitOutcome (exec : List Bytes → Status) : List Event → List Client → Result → Prop
  | runs {es : List Event} {calls : List Client} {r : Result} : (∀ e ∈ es, ¬ e.Closes exec) →
      OnlyLast (HandsQuit exec) calls → (∀ d, r = .idle d → ∀ x ∈ calls, ¬ HandsQuit exec x) →
      QuitOutcome exec es calls r
  | closed {es : List Event} {calls : List Client} {d : Client} : (∃ e ∈ es, e.Closes exec) →
      (∀ e ∈ es, e.Closes exec → e.left = []) → OnlyLast (HandsQuit exec) calls →
      (∃ x ∈ calls, HandsQuit exec x) → QuitOutcome exec es calls (.idle d)
  | goesOn {es : List Event} {calls : List Client} {r : Result} : (∃ e ∈ es, e.Closes exec ∧ e.left ≠ []) →
      ¬ OnlyLast (HandsQuit exec) calls → QuitOutcome exec es calls r

theorem QuitOutcome.cons {es : List Event} {calls : List Client} {r : Result} (h : QuitOutcome exec es calls r)
    {x : Client} (hx : ¬ HandsQuit exec x) {pre : List Event} (hpre : ∀ e ∈ pre, ¬ e.Closes exec) :
    QuitOutcome exec (pre++es) (x::calls) r := by
  have honly : OnlyLast (HandsQuit exec) (x::calls) ↔ OnlyLast (HandsQuit exec) calls :=
    onlyLast_append (by simpa using hx : ∀ y ∈ [x], ¬ HandsQuit exec y)
  cases h with
  | runs hno hlast hidle =>
    refine .runs ?_ (honly.mpr hlast) fun d hd => List.forall_mem_cons.mpr ⟨hx,hidle d hd⟩
    exact fun e he => (List.mem_append.mp he).elim (hpre e) (hno e)
  | closed hq hleft hlast hcall =>
    obtain ⟨q,hq,hcloses⟩ := hq
    obtain ⟨y,hy,hands⟩ := hcall
    refine .closed ⟨q,by simp [hq],hcloses⟩ ?_ (honly.mpr hlast) ⟨y,by simp [hy],hands⟩
    exact fun e he hc => (List.mem_append.mp he).elim (fun h => absurd hc (hpre e h)) fun h => hleft e h hc
  | goesOn hq hlast =>
    obtain ⟨q,hq,hcloses⟩ := hq
    exact .goesOn ⟨q,by simp [hq],hcloses⟩ (mt honly.mp hlast)

theorem LoopRun.quitOutcome {c : Client} {es : List Event} {calls : List Client} {r : Result}
    (h : LoopRun exec c es calls r) : QuitOutcome exec es calls r := by
  have hnone {x : Client} (hx : Tadpole.handed x = none) : ¬ HandsQuit exec x := by
    rintro ⟨e,he,-⟩
    rw [hx] at he
    cases he
  induction h with
  | empty _ => exact .runs (by simp) onlyLast_nil (by simp)
  | waits hp =>
    have hx := hnone (by rw [Tadpole.handed,hp.2] : Tadpole.handed _ = none)
    exact .runs (by simp) onlyLast_singleton (by simpa using hx)
  | aborts _ => exact .runs (by simp) onlyLast_singleton (by simp)
  | frees _ => exact .runs (by simp) onlyLast_singleton (by simp)
  | fails _ => exact .runs (by simp) onlyLast_singleton (by simp)
  | repeats _ => exact .runs (by simp) onlyLast_singleton (by simp)
  | blank hp hargv _ ih =>
    have hx := hnone (by rw [hp.handed,if_pos hargv] : Tadpole.handed _ = none)
    exact ih.cons hx (by simp : ∀ e ∈ ([] : List Event), ¬ e.Closes exec)
  | @runs c d es calls r hp hargv hst _ ih =>
    have hok : ¬ d.event.Closes exec := fun h => by cases hst.symm.trans h
    refine ih.cons ?_ (by simpa using hok : ∀ e ∈ [d.event], ¬ e.Closes exec)
    rintro ⟨e,he,hcloses⟩
    rw [hp.handed,if_neg hargv] at he
    obtain rfl := Option.some.inj he
    exact hok hcloses
  | exits hp hargv hst =>
    refine .runs ?_ onlyLast_singleton (by simp)
    rw [List.forall_mem_singleton]
    exact fun h => by cases hst.symm.trans h
  | @quits c d es calls r hp hargv hst hrest ih =>
    have hcloses : d.event.Closes exec := hst
    have hands : HandsQuit exec (setReqtype c) := ⟨d.event,by rw [hp.handed,if_neg hargv],hst⟩
    by_cases hleft : d.querybuf = []
    · -- the loop ends here
      obtain ⟨rfl,rfl,rfl⟩ := hrest.of_empty hleft
      exact .closed ⟨_,List.mem_singleton_self _,hcloses⟩ (by simp [Client.event,hleft]) onlyLast_singleton
        ⟨_,List.mem_singleton_self _,hands⟩
    · refine .goesOn ⟨_,List.mem_cons_self,hcloses,hleft⟩ fun h => ?_
      exact ((onlyLast_cons (hrest.calls_ne_nil hleft)).mp h).1 hands

theorem allCalls_ne_nil (c : Client) {s : Bytes} (hs : s ≠ []) (chunks : List Bytes) :
    allCalls exec c (s::chunks) ≠ [] := by
  rw [allCalls]
  refine List.append_ne_nil_of_left_ne_nil ?_ _
  exact (readQueryFromClient_run exec c s).calls_ne_nil (by simp [hs])

theorem not_onlyLast_append {calls rest : List Client} (hcall : ∃ x ∈ calls, HandsQuit exec x) (hrest : rest ≠ []) :
    ¬ OnlyLast (HandsQuit exec) (calls++rest) := by
  obtain ⟨x,hx,hands⟩ := hcall
  intro h
  refine h x ?_ hands
  rw [List.dropLast_append_of_ne_nil hrest]
  exact List.mem_append_left _ hx

/-- The parser is not called behind a QUIT exactly when no byte comes behind it. -/
theorem onlyLast_allCalls_iff {c : Client} {chunks : List Bytes} (h : ∀ s ∈ chunks, s ≠ []) :
    OnlyLast (HandsQuit exec) (allCalls exec c chunks) ↔
      NothingBehind (Event.Closes exec) (readAll exec c chunks).1 chunks.length := by
  induction chunks generalizing c with
  | nil => exact iff_of_true onlyLast_nil (nothingBehind_nil _ 0)
  | cons s chunks ih =>
    have hout := (readQueryFromClient_run exec c s).quitOutcome
    rw [allCalls,readAll,List.length_cons]
    rcases hq : readQueryFromClient exec c s with ⟨es,r⟩
    rw [hq] at hout
    cases hout with
    | runs hno hlast hidle =>
      cases r with
      | idle d =>
        rw [nothingBehind_cons hno,onlyLast_append (hidle d rfl)]
        exact ih fun t ht => h t (by simp [ht])
      | _ =>
        refine iff_of_true ?_ ((nothingBehind_cons hno [] _).mpr (nothingBehind_nil _ _))
        rwa [List.append_nil]
    | @closed d hquit hleft hlast hcall =>
      cases chunks with
      | nil =>
        refine iff_of_true ?_ (nothingBehind_singleton hleft)
        exact (List.append_nil (readCalls exec c s)).symm ▸ hlast
      | cons t chunks =>
        obtain ⟨e,he,hq'⟩ := hquit
        refine iff_of_false (not_onlyLast_append hcall (allCalls_ne_nil d (h t (by simp)) chunks)) fun hbehind => ?_
        have := (nothingBehind_head he hq' hbehind).2
        simp at this
    | goesOn hquit hlast =>
      obtain ⟨e,he,hq',hleft⟩ := hquit
      refine iff_of_false (fun h => hlast h.of_append) fun hbehind => hleft ?_
      cases r with
      | _ => exact (nothingBehind_head he hq' hbehind).1

end

/-- As if QUIT ended the process. -/
def closing (exec : List Bytes → Status) (argv : List Bytes) : Status :=
  if exec argv = .err then .exit else exec argv

section
variable {exec : List Bytes → Status}

theorem closing_ne_err (argv : List Bytes) : closing exec argv ≠ .err := by
  rw [closing]
  split_ifs with h
  · decide
  · exact h

/-- Without a QUIT nothing changes, and up to the first one the same is executed. -/
def UpToQuit (exec : List Bytes → Status) (p q : List (List Bytes) × Result) : Prop :=
  (p = q ∧ ∀ argv ∈ p.1, exec argv ≠ .err) ∨ p.2 = .exit ∧ p.1 <+: q.1 ∧ ∃ argv ∈ p.1, exec argv = .err

theorem UpToQuit.nothing (r : Result) : UpToQuit exec ([],r) ([],r) := Or.inl ⟨rfl,by simp⟩

theorem UpToQuit.append {argvs argvs' : List (List Bytes)} {r r' : Result} (h : UpToQuit exec (argvs,r) (argvs',r'))
    {pre : List (List Bytes)} (hpre : ∀ argv ∈ pre, exec argv ≠ .err) :
    UpToQuit exec (pre++argvs,r) (pre++argvs',r') := by
  rcases h with ⟨heq,hno⟩ | ⟨hexit,hfront,argv,hargv,herr⟩
  · obtain ⟨rfl,rfl⟩ := Prod.mk.inj heq
    exact Or.inl ⟨rfl,fun argv hargv => (List.mem_append.mp hargv).elim (hpre argv) (hno argv)⟩
  · exact Or.inr ⟨hexit,(List.prefix_append_right_inj pre).mpr hfront,argv,List.mem_append_right _ hargv,herr⟩

theorem inputLoop_upToQuit (rounds : ℕ) (c : Client) :
    UpToQuit exec ((inputLoop (closing exec) rounds c).1.map Event.argv,(inputLoop (closing exec) rounds c).2)
      ((inputLoop exec rounds c).1.map Event.argv,(inputLoop exec rounds c).2) := by
  induction rounds generalizing c with
  | zero =>
    rw [inputLoop,inputLoop]
    by_cases hc : c.querybuf = []
    · rw [if_pos hc]
      exact .nothing _
    · rw [if_neg hc]
      rcases parse (setReqtype c) with - | d | ⟨log,d⟩ | - | d <;> exact .nothing _
  | succ rounds ih =>
    rw [inputLoop,inputLoop]
    by_cases hc : c.querybuf = []
    · rw [if_pos hc,if_pos hc]
      exact .nothing _
    rw [if_neg hc,if_neg hc]
    rcases parse (setReqtype c) with - | d | ⟨log,d⟩ | - | d
    · exact .nothing _
    · dsimp only
      by_cases hargv : d.argv = []
      · rw [if_pos hargv,if_pos hargv]
        exact ih _
      rw [if_neg hargv,if_neg hargv]
      cases hst : exec d.argv with
      | ok =>
        have hone : ∀ argv ∈ [d.argv], exec argv ≠ .err := by
          rw [List.forall_mem_singleton,hst]
          decide
        rw [closing,if_neg (by rw [hst]; decide),hst]
        exact (ih (resetClient d)).append hone
      | err =>
        rw [closing,if_pos hst]
        exact Or.inr ⟨rfl,List.prefix_append [d.argv] _,d.argv,List.mem_singleton_self _,hst⟩
      | exit =>
        rw [closing,if_neg (by rw [hst]; decide),hst]
        refine Or.inl ⟨rfl,?_⟩
        rw [List.map_singleton,List.forall_mem_singleton]
        exact fun h => by cases hst.symm.trans h
    · exact .nothing _
    · exact .nothing _
    · exact .nothing _

theorem readQueryFromClient_upToQuit (exec : List Bytes → Status) (c : Client) (s : Bytes) :
    UpToQuit exec ((readQueryFromClient (closing exec) c s).1.map Event.argv,(readQueryFromClient (closing exec) c s).2)
      ((readQueryFromClient exec c s).1.map Event.argv,(readQueryFromClient exec c s).2) := inputLoop_upToQuit _ _

theorem executed_cons (es : List Event) (rest : List (List Event)) (r : Result) :
    executed (es::rest,r) = es.map Event.argv++executed (rest,r) := by
  simp [executed]

theorem readAll_upToQuit (exec : List Bytes → Status) (c : Client) (chunks : List Bytes) :
    UpToQuit exec (executed (readAll (closing exec) c chunks),(readAll (closing exec) c chunks).2)
      (executed (readAll exec c chunks),(readAll exec c chunks).2) := by
  induction chunks generalizing c with
  | nil => exact .nothing _
  | cons s chunks ih =>
    have hread := readQueryFromClient_upToQuit exec c s
    rw [readAll,readAll]
    rcases hp : readQueryFromClient (closing exec) c s with ⟨es,r⟩
    rcases hq : readQueryFromClient exec c s with ⟨es',r'⟩
    rw [hp,hq] at hread
    rcases hread with ⟨heq,hno⟩ | ⟨hexit,hfront,argv,hargv,herr⟩
    · obtain ⟨hes,rfl⟩ := Prod.mk.inj heq
      cases r with
      | idle c' =>
        dsimp only
        rw [executed_cons,executed_cons,← hes]
        exact (ih c').append hno
      | _ =>
        dsimp only
        rw [executed_cons,executed_cons,← hes]
        exact (UpToQuit.nothing _).append hno
    · obtain rfl : r = .exit := hexit
      dsimp only
      rw [executed_cons]
      refine Or.inr ⟨rfl,?_,argv,List.mem_append_left _ hargv,herr⟩
      have hnil : executed (([],.exit) : List (List Event) × Result) = [] := rfl
      rw [hnil,List.append_nil]
      cases r' with
      | idle c' =>
        dsimp only
        rw [executed_cons]
        exact hfront.trans (List.prefix_append _ _)
      | _ =>
        dsimp only
        rw [executed_cons]
        exact hfront.trans (List.prefix_append _ _)

theorem EachRead.closing {P : Client → Bytes → Prop} {c : Client} {chunks : List Bytes} (h : EachRead exec P c chunks) :
    EachRead (Tadpole.closing exec) P c chunks := by
  induction chunks generalizing c with
  | nil => trivial
  | cons s chunks ih =>
    obtain ⟨hs,hrest⟩ := h
    refine ⟨hs,?_⟩
    have hread := readQueryFromClient_upToQuit exec c s
    rcases hread with ⟨heq,-⟩ | ⟨hexit,-⟩
    · rw [(Prod.mk.inj heq).2]
      cases hq : (readQueryFromClient exec c s).2 with
      | idle c' =>
        rw [hq] at hrest
        exact ih hrest
      | _ => simp only
    · have hx : (readQueryFromClient (Tadpole.closing exec) c s).2 = .exit := hexit
      simp only [hx]

end

section
variable {exec : List Bytes → Status}

/-- The first request that closes leaves these bytes in the buffer; if there are none, it is the last. -/
def QuitLeaves (exec : List Bytes → Status) (es : List Event) (t : Bytes) : Prop :=
  ∃ front e rest, es = front++e::rest ∧ (∀ x ∈ front, ¬ x.Closes exec) ∧ e.Closes exec ∧ e.left = t ∧
    (t = [] → rest = [])

theorem QuitLeaves.cons {es : List Event} {t : Bytes} (h : QuitLeaves exec es t) {x : Event} (hx : ¬ x.Closes exec) :
    QuitLeaves exec (x::es) t := by
  obtain ⟨front,e,rest,rfl,hfront,he⟩ := h
  exact ⟨x::front,e,rest,rfl,List.forall_mem_cons.mpr ⟨hx,hfront⟩,he⟩

theorem QuitLeaves.nothing {es : List Event} (h : QuitLeaves exec es []) : ∀ e ∈ es, e.Closes exec → e.left = [] := by
  obtain ⟨front,e,rest,rfl,hfront,-,hleft,hrest⟩ := h
  intro x hx hcloses
  rw [hrest rfl] at hx
  rcases List.mem_append.mp hx with hx | hx
  · exact absurd hcloses (hfront x hx)
  · obtain rfl := List.mem_singleton.mp hx
    exact hleft

theorem inputLoop_quit_round {rounds : ℕ} (bound : ℕ) {c : Client} {σ : Stage} {s t : Bytes} {q : List Bytes}
    {outs more : List (List Bytes × Bytes)} (hc : c.querybuf ≠ [])
    (hdoes : Does bound (parse (setReqtype c)) (feedLeft σ s)) (hf : (feedLeft σ s).2 = outs++(q,t)::more)
    (hok : ∀ r ∈ outs, exec r.1 = .ok) (hq : exec q = .err)
    (hrest : ∀ b : Bytes, b.length ≤ bound → ∀ outs', (feedLeft start b).2 = outs'++(q,t)::more →
      (∀ r ∈ outs', exec r.1 = .ok) → QuitLeaves exec (inputLoop exec rounds ⟨b,.unknown,0,-1,[]⟩).1 t) :
    QuitLeaves exec (inputLoop exec (rounds+1) c).1 t := by
  rw [inputLoop,if_neg hc]
  dsimp only
  rcases hdoes with ⟨log,c',hp,hout,-⟩ | ⟨c',hp,hlen,hleft⟩
  · rw [hf] at hout
    simp at hout
  · rw [hp]
    dsimp only
    rw [hleft] at hf
    by_cases hargv : c'.argv = []
    · rw [if_pos hargv] at hf ⊢
      exact hrest c'.querybuf hlen outs hf hok
    · rw [if_neg hargv] at hf ⊢
      cases outs with
      | nil =>
        -- the request that closes
        obtain ⟨hhead,-⟩ := List.cons.inj hf
        obtain ⟨rfl,rfl⟩ := Prod.mk.inj hhead
        rw [hq]
        refine ⟨[],c'.event,_,rfl,by simp,hq,rfl,fun hempty => ?_⟩
        cases rounds <;> rw [inputLoop,if_pos hempty]
      | cons r outs =>
        rw [List.singleton_append,List.cons_append] at hf
        obtain ⟨rfl,htail⟩ := List.cons.inj hf
        rw [List.forall_mem_cons] at hok
        have hstatus : exec c'.argv = .ok := hok.1
        rw [hstatus]
        refine QuitLeaves.cons (hrest c'.querybuf hlen outs htail hok.2) fun hcloses => ?_
        exact absurd (hstatus.symm.trans hcloses) (by decide)

/-- What puts out a request begins with a star. -/
theorem head_of_feedLeft {b t : Bytes} {q : List Bytes} {outs more : List (List Bytes × Bytes)}
    (hf : (feedLeft start b).2 = outs++(q,t)::more) : b ≠ [] ∧ b.head? = some 42 := by
  have hne : b ≠ [] := by
    rintro rfl
    simp at hf
  refine ⟨hne,?_⟩
  by_contra hstar
  rw [feedLeft_quiet (feed_start_foreign hne hstar)] at hf
  simp at hf

theorem inputLoop_quit_start (rounds : ℕ) {b t : Bytes} {q : List Bytes} {outs more : List (List Bytes × Bytes)}
    (hb : b.length ≤ PROTO_IOBUF_LEN) (hr : b.length ≤ rounds) (hf : (feedLeft start b).2 = outs++(q,t)::more)
    (hok : ∀ r ∈ outs, exec r.1 = .ok) (hq : exec q = .err) :
    QuitLeaves exec (inputLoop exec rounds ⟨b,.unknown,0,-1,[]⟩).1 t := by
  induction rounds generalizing b outs with
  | zero => exact absurd (List.length_eq_zero_iff.mp (Nat.le_zero.mp hr)) (head_of_feedLeft hf).1
  | succ rounds ih =>
    obtain ⟨hne,hstar⟩ := head_of_feedLeft hf
    have hpos : 0 < b.length := List.length_pos_iff.mpr hne
    have hset : setReqtype ⟨b,.unknown,0,-1,[]⟩ = ⟨b,.multibulk,0,-1,[]⟩ := by
      rw [setReqtype,if_pos rfl]
      dsimp only
      rw [if_pos hstar]
    refine inputLoop_quit_round (b.length-1) hne ?_ hf hok hq fun b' hb' outs' hf' hok' => ?_
    · rw [hset]
      exact parse_count hstar (by omega) fun n k _ _ => by omega
    · exact ih (by omega) (by omega) hf' hok'

theorem readQueryFromClient_quit {c : Client} {σ : Stage} {s t : Bytes} {q : List Bytes}
    {outs more : List (List Bytes × Bytes)} (hw : Waits c σ) (hone : ¬ Rereads c) (hvalid : ValidRead c s)
    (hf : (feedLeft σ s).2 = outs++(q,t)::more) (hok : ∀ r ∈ outs, exec r.1 = .ok) (hq : exec q = .err) :
    QuitLeaves exec (readQueryFromClient exec c s).1 t := by
  obtain ⟨hne,hlen⟩ := hvalid
  have hfirst : σ = start → s.head? = some 42 := by
    rintro rfl
    exact (head_of_feedLeft hf).2
  obtain ⟨rounds,hrounds⟩ : ∃ rounds, (c.querybuf++s).length = rounds+1 := by
    refine Nat.exists_eq_succ_of_ne_zero ?_
    simp [hne]
  rw [readQueryFromClient,processInputBuffer,hrounds]
  refine inputLoop_quit_round _ (by simp [hne]) (read_does hw hone hne hlen hfirst) hf hok hq fun b hb outs' hf' hok' => ?_
  rw [le_min_iff,hrounds] at hb
  exact inputLoop_quit_start rounds hb.1 (by omega) hf' hok' hq

theorem append_cons_cases {A : Type} {l m front back : List A} {x : A} (h : l++m = front++x::back) :
    (∃ front', front = l++front' ∧ m = front'++x::back) ∨ ∃ back', l = front++x::back' := by
  rcases List.append_eq_append_iff.mp h with ⟨front',hfront,hm⟩ | ⟨tail,hl,htail⟩
  · exact Or.inl ⟨front',hfront,hm⟩
  · cases tail with
    | nil => exact Or.inl ⟨[],by rw [hl,List.append_nil,List.append_nil],by simpa using htail.symm⟩
    | cons y tail =>
      obtain ⟨rfl,-⟩ := List.cons.inj htail
      exact Or.inr ⟨tail,hl⟩

/-- A read whose commands succeed closes nothing, and the client waits where the framer stands. -/
theorem readQueryFromClient_quiet {c : Client} {σ : Stage} {s : Bytes} (hw : Waits c σ) (hone : ¬ Rereads c)
    (hvalid : ValidRead c s) (hok : ∀ r ∈ (feed σ s).2, exec r = .ok) (hmine : (feed σ s).1 ≠ foreign) :
    (∀ e ∈ (readQueryFromClient exec c s).1, ¬ e.Closes exec) ∧
      ∃ c', (readQueryFromClient exec c s).2 = .idle c' ∧ Waits c' (feed σ s).1 := by
  have hno : ∀ r ∈ (feed σ s).2, exec r ≠ .exit := fun r hr => by rw [hok r hr]; decide
  have hread : Follows exec ((readQueryFromClient exec c s).1.map Event.argv) (readQueryFromClient exec c s).2 (feed σ s) :=
    readQueryFromClient_follows hw hone hvalid.1 hvalid.2 fun r hr => by rw [hok r hr]; decide
  refine ⟨fun e he hcloses => ?_,(hread.idle hno).waiting hmine⟩
  have hargvs := hread.argvs
  rw [untilExit_eq_self hno] at hargvs
  have hmem : e.argv ∈ (feed σ s).2 := hargvs ▸ List.mem_map_of_mem he
  exact absurd ((hok _ hmem).symm.trans hcloses) (by decide)

/-- Of reads that begin with the one in which the request that closes comes. -/
theorem QuitLeaves.nothingBehind_iff {c : Client} {s t : Bytes} {chunks : List Bytes}
    (h : QuitLeaves exec (readQueryFromClient exec c s).1 t) (hne : ∀ u ∈ chunks, u ≠ []) :
    NothingBehind (Event.Closes exec) (readAll exec c (s::chunks)).1 (chunks.length+1) ↔ t++chunks.flatten = [] := by
  obtain ⟨rest,hall,hrest⟩ : ∃ rest, (readAll exec c (s::chunks)).1 = (readQueryFromClient exec c s).1::rest ∧
      (chunks = [] → rest = []) := by
    rw [readAll]
    rcases readQueryFromClient exec c s with ⟨es,r⟩
    cases r with
    | idle d => exact ⟨_,rfl,by rintro rfl; rfl⟩
    | _ => exact ⟨[],rfl,fun _ => rfl⟩
  rw [hall]
  constructor
  · intro hnothing
    obtain ⟨front,e,es,hes,-,hcloses,hleft,-⟩ := h
    obtain ⟨hempty,hlast⟩ := nothingBehind_head (by rw [hes]; simp) hcloses hnothing
    rw [← hleft,hempty,List.length_eq_zero_iff.mp hlast]
    rfl
  · intro hbehind
    obtain ⟨rfl,hflat⟩ := List.append_eq_nil_iff.mp hbehind
    obtain rfl : chunks = [] := List.eq_nil_iff_forall_not_mem.mpr fun u hu =>
      hne u hu (List.flatten_eq_nil_iff.mp hflat u hu)
    rw [hrest rfl]
    exact nothingBehind_singleton h.nothing

/-- Nothing comes behind the request that closes exactly when it is the last of the stream. -/
theorem nothingBehind_iff_behind {c : Client} {σ : Stage} {chunks : List Bytes} {behind : Bytes} {q : List Bytes}
    {outs more : List (List Bytes × Bytes)} (hw : Waits c σ) (hreads : EachRead exec ValidRead c chunks)
    (hne : ∀ s ∈ chunks, s ≠ []) (hf : (feedLeft σ chunks.flatten).2 = outs++(q,behind)::more)
    (hok : ∀ r ∈ outs, exec r.1 = .ok) (hq : exec q = .err) :
    NothingBehind (Event.Closes exec) (readAll exec c chunks).1 chunks.length ↔ behind = [] := by
  induction chunks generalizing c σ outs with
  | nil => simp at hf
  | cons s chunks ih =>
    rw [List.forall_mem_cons] at hne
    have hone : ¬ Rereads c := hw.not_rereads fun hrej => by
      rw [hrej,feedLeft_quiet (rejected_absorbing.feed _)] at hf
      simp at hf
    rw [List.flatten_cons,feedLeft,Mealy.feedLeft_split] at hf
    dsimp only at hf
    rcases append_cons_cases hf with ⟨outs',houts,hrest⟩ | ⟨tail,hread⟩
    · -- the request comes in a later read
      subst houts
      rw [List.forall_mem_append] at hok
      have hquiet : ∀ r ∈ (feed σ s).2, exec r = .ok := by
        intro r hr
        rw [feedLeft_feed] at hr
        obtain ⟨o,ho,rfl⟩ := List.mem_map.mp hr
        exact hok.1 (o.1,o.2++chunks.flatten) (List.mem_map_of_mem (f := fun o => (o.1,o.2++chunks.flatten)) ho)
      have hmine : (feed σ s).1 ≠ foreign := by
        intro hforeign
        have hnone : Mealy.feedLeft step foreign chunks.flatten = (foreign,[]) := feedLeft_quiet (feed_foreign _)
        rw [show Mealy.feed step σ s = feed σ s from rfl,hforeign,hnone] at hrest
        simp at hrest
      obtain ⟨hes,c',hc',hw'⟩ := readQueryFromClient_quiet hw hone hreads.1 hquiet hmine
      have hrest' := hreads.2
      rw [hc'] at hrest'
      rw [readAll_cons_idle hc',List.length_cons,nothingBehind_cons hes]
      exact ih hw' hrest' hne.2 hrest hok.2
    · -- the request comes in this read
      obtain ⟨outs',back,hfront,rfl,hback⟩ := List.map_eq_append_iff.mp hread
      obtain ⟨⟨q',t⟩,tail',rfl,hlast,-⟩ := List.map_eq_cons_iff.mp hback
      obtain ⟨rfl,rfl⟩ := Prod.mk.inj hlast
      have hok' : ∀ r ∈ outs', exec r.1 = .ok := fun r hr =>
        hok (r.1,r.2++chunks.flatten) (List.mem_map_of_mem (f := fun o => (o.1,o.2++chunks.flatten)) hr)
      exact (readQueryFromClient_quit hw hone hreads.1 hfront hok' hq).nothingBehind_iff hne.2

end

end Tadpole
