import Tadpole.FramerRuns

/-! The input loop and the reads of a connection: what is executed is what the framer puts out. -/
namespace Tadpole

open Stage

section
variable {exec : List Bytes → Status}

/-- The requests up to the first that ends the server. -/
def untilExit (exec : List Bytes → Status) : List (List Bytes) → List (List Bytes)
  | [] => []
  | r::rs => r::if exec r = .exit then [] else untilExit exec rs

theorem untilExit_append {rs : List (List Bytes)} (h : ∀ r ∈ rs, exec r ≠ .exit) (ts : List (List Bytes)) :
    untilExit exec (rs++ts) = rs++untilExit exec ts := by
  induction rs with
  | nil => rfl
  | cons r rs ih =>
    rw [List.cons_append,untilExit,if_neg (h r (by simp)),ih fun r hr => h r (by simp [hr])]
    rfl

theorem untilExit_eq_self {rs : List (List Bytes)} (h : ∀ r ∈ rs, exec r ≠ .exit) :
    untilExit exec rs = rs := by
  simpa [untilExit] using untilExit_append h []

theorem untilExit_front (rs : List (List Bytes)) : untilExit exec rs <+: rs := by
  induction rs with
  | nil => exact List.prefix_rfl
  | cons r rs ih =>
    rw [untilExit]
    split_ifs
    · exact List.prefix_append [r] rs
    · exact (List.prefix_append_right_inj [r]).mpr ih

theorem untilExit_append_exit {rs : List (List Bytes)} (h : ∃ r ∈ rs, exec r = .exit)
    (ts : List (List Bytes)) : untilExit exec (rs++ts) = untilExit exec rs := by
  induction rs with
  | nil => simp at h
  | cons r rs ih =>
    rw [List.cons_append,untilExit,untilExit]
    by_cases hr : exec r = .exit
    · rw [if_pos hr,if_pos hr]
    · rw [if_neg hr,if_neg hr,ih]
      obtain ⟨q,hq,hx⟩ := h
      refine ⟨q,List.mem_of_ne_of_mem ?_ hq,hx⟩
      rintro rfl
      exact hr hx

/-- Where the connection is while the server runs: the client waits where the framer stands, or the request is an
inline one, with which the process ends. -/
inductive Rests : Result → Stage → Prop
  | waits {c : Client} {σ : Stage} : Waits c σ → Rests (.idle c) σ
  | inline {c : Client} : c.reqtype = .inline → Rests (.idle c) foreign
  | freed : Rests .badFree foreign

theorem Rests.waiting {r : Result} {σ : Stage} (h : Rests r σ) (hmine : σ ≠ foreign) : ∃ c, r = .idle c ∧ Waits c σ := by
  cases h with
  | waits hw => exact ⟨_,rfl,hw⟩
  | inline _ => exact absurd rfl hmine
  | freed => exact absurd rfl hmine

/-- What was executed is what the framer put out, as long as the server runs. -/
structure Follows (exec : List Bytes → Status) (argvs : List (List Bytes)) (res : Result)
    (f : Stage × List (List Bytes)) : Prop where
  argvs : argvs = untilExit exec f.2
  exit : (∃ r ∈ f.2, exec r = .exit) → res = .exit
  idle : (∀ r ∈ f.2, exec r ≠ .exit) → Rests res f.1

theorem Follows.quiet {res : Result} {σ : Stage} (h : Rests res σ) : Follows exec [] res (σ,[]) :=
  ⟨rfl,by simp,fun _ => h⟩

theorem Follows.cons {argvs : List (List Bytes)} {res : Result} {f : Stage × List (List Bytes)}
    (h : Follows exec argvs res f) {a : List Bytes} (ha : exec a = .ok) :
    Follows exec (a::argvs) res (f.1,a::f.2) where
  argvs := by
    rw [untilExit,if_neg (by rw [ha]; decide),h.argvs]
  exit := by
    rintro ⟨r,hr,hx⟩
    refine h.exit ⟨r,List.mem_of_ne_of_mem ?_ hr,hx⟩
    rintro rfl
    rw [ha] at hx
    cases hx
  idle hno := h.idle fun r hr => hno r (by simp [hr])

theorem Follows.exits {a : List Bytes} (ha : exec a = .exit) (σ : Stage) (outs : List (List Bytes)) :
    Follows exec [a] .exit (σ,a::outs) := by
  refine ⟨?_,fun _ => rfl,fun hno => absurd ha (hno a (by simp))⟩
  rw [untilExit,if_pos ha]

theorem Follows.readAll_cons {c : Client} {σ : Stage} {s : Bytes} {chunks : List Bytes}
    (hq : Follows exec ((readQueryFromClient exec c s).1.map Event.argv) (readQueryFromClient exec c s).2 (feed σ s))
    (hrest : ∀ c', (readQueryFromClient exec c s).2 = .idle c' → Rests (.idle c') (feed σ s).1 →
      (∀ r ∈ (feed σ s).2, exec r ≠ .exit) → Follows exec (executed (readAll exec c' chunks)) (readAll exec c' chunks).2
        (feed (feed σ s).1 chunks.flatten)) :
    Follows exec (executed (readAll exec c (s::chunks))) (readAll exec c (s::chunks)).2 (feed σ (s::chunks).flatten) := by
  rw [List.flatten_cons,feed_append,readAll]
  rcases hp : readQueryFromClient exec c s with ⟨es,r⟩
  rw [hp] at hq hrest
  by_cases hexit : ∃ r ∈ (feed σ s).2, exec r = .exit
  · obtain rfl : r = .exit := hq.exit hexit
    refine ⟨?_,fun _ => rfl,fun hno => ?_⟩
    · rw [untilExit_append_exit hexit,← hq.argvs]
      simp [executed]
    · obtain ⟨r,hr,hx⟩ := hexit
      exact absurd hx (hno r (by simp [hr]))
  have hno : ∀ r ∈ (feed σ s).2, exec r ≠ .exit := fun r hr hx => hexit ⟨r,hr,hx⟩
  have hes : es.map Event.argv = (feed σ s).2 := hq.argvs.trans (untilExit_eq_self hno)
  have hrests := hq.idle hno
  cases r with
  | idle c' =>
    have h := hrest c' rfl hrests hno
    refine ⟨?_,?_,fun hnone => h.idle fun r hr => hnone r (by simp [hr])⟩
    · rw [untilExit_append hno,← h.argvs,← hes]
      simp [executed]
    · rintro ⟨r,hr,hx⟩
      exact h.exit ⟨r,(List.mem_append.mp hr).resolve_left fun hl => hno r hl hx,hx⟩
  | badFree =>
    -- the process has ended in an inline request, behind which the framer puts out nothing
    generalize feed σ s = f at hno hes hrests ⊢
    obtain ⟨σ',outs⟩ := f
    cases hrests with
    | freed =>
      rw [feed_foreign,List.append_nil]
      refine ⟨?_,?_,fun _ => .freed⟩
      · rw [untilExit_eq_self hno,← hes]
        simp [executed]
      · rintro ⟨r,hr,hx⟩
        exact absurd hx (hno r hr)
  | exit => cases hrests
  | abort => cases hrests
  | undefined => cases hrests

theorem inputLoop_inline (exec : List Bytes → Status) (rounds : ℕ) {c : Client} (hin : (setReqtype c).reqtype = .inline)
    (hc : c.querybuf ≠ []) :
    (inputLoop exec rounds c).1 = [] ∧ Rests (inputLoop exec rounds c).2 foreign := by
  have hparse : parse (setReqtype c) = some (processInlineBuffer (setReqtype c)) := by rw [parse,if_pos hin]
  obtain hp | ⟨b,argv,hp⟩ := processInlineBuffer_cases (setReqtype c)
  · cases rounds <;> rw [inputLoop,if_neg hc,hparse,hp] <;> exact ⟨rfl,.inline hin⟩
  · cases rounds <;> rw [inputLoop,if_neg hc,hparse,hp] <;> exact ⟨rfl,.freed⟩

theorem setReqtype_of_inline {c : Client} (h : c.reqtype = .inline) : setReqtype c = c := by
  rw [setReqtype,if_neg (by rw [h]; decide)]

theorem readQueryFromClient_inline (exec : List Bytes → Status) {c : Client} (h : c.reqtype = .inline) (s : Bytes) :
    (readQueryFromClient exec c s).1 = [] ∧ Rests (readQueryFromClient exec c s).2 foreign := by
  have hin : (setReqtype {c with querybuf := c.querybuf++s}).reqtype = .inline := by
    rw [setReqtype_of_inline (c:={c with querybuf := c.querybuf++s}) h,h]
  by_cases hempty : c.querybuf++s = []
  · rw [readQueryFromClient,processInputBuffer,hempty,List.length_nil,inputLoop,if_pos rfl]
    exact ⟨rfl,.inline h⟩
  · exact inputLoop_inline exec _ hin hempty

theorem readAll_inline {c : Client} (h : c.reqtype = .inline) (chunks : List Bytes) :
    Follows exec (executed (readAll exec c chunks)) (readAll exec c chunks).2 (feed foreign chunks.flatten) := by
  induction chunks generalizing c with
  | nil => exact .quiet (.inline h)
  | cons s chunks ih =>
    obtain ⟨hes,hr⟩ := readQueryFromClient_inline exec h s
    refine Follows.readAll_cons ?_ fun c' _ hrests _ => ?_
    · rw [hes,feed_foreign]
      exact .quiet hr
    · rw [feed_foreign] at hrests ⊢
      cases hrests with
      | waits hw => cases hw
      | inline hc' => exact ih hc'

/-- A round and what follows it, if the rounds that are left do what the framer does from the start. -/
theorem inputLoop_round {rounds : ℕ} (bound : ℕ) {c : Client} {σ : Stage} {s : Bytes} (hc : c.querybuf ≠ [])
    (hdoes : Does bound (parse (setReqtype c)) (feedLeft σ s)) (hexec : ∀ r ∈ (feed σ s).2, exec r ≠ .err)
    (hrest : ∀ b : Bytes, b.length ≤ bound → (∀ r ∈ (feed start b).2, exec r ≠ .err) →
      Follows exec ((inputLoop exec rounds ⟨b,.unknown,0,-1,[]⟩).1.map Event.argv)
        (inputLoop exec rounds ⟨b,.unknown,0,-1,[]⟩).2 (feed start b)) :
    Follows exec ((inputLoop exec (rounds+1) c).1.map Event.argv) (inputLoop exec (rounds+1) c).2 (feed σ s) := by
  rw [inputLoop,if_neg hc]
  dsimp only
  rcases hdoes with ⟨log,c',hp,hout,hw⟩ | ⟨c',hp,hlen,hf⟩
  · rw [hp,feedLeft_feed,hout]
    exact .quiet (.waits hw)
  · have hfeed : feed σ s = ((feed start c'.querybuf).1,
        (if c'.argv = [] then [] else [c'.argv])++(feed start c'.querybuf).2) := by
      rw [feedLeft_feed σ,hf,feedLeft_feed start,List.map_append]
      split_ifs <;> rfl
    rw [hp,hfeed]
    rw [hfeed] at hexec
    dsimp only at hexec ⊢
    by_cases hargv : c'.argv = []
    · rw [if_pos hargv] at hexec ⊢
      rw [if_pos hargv]
      exact hrest c'.querybuf hlen hexec
    · rw [if_neg hargv] at hexec ⊢
      rw [if_neg hargv]
      have hrest' := hrest c'.querybuf hlen fun r hr => hexec r (by simp [hr])
      have hnerr := hexec c'.argv (by simp)
      cases hst : exec c'.argv with
      | ok => exact hrest'.cons hst
      | err => exact absurd hst hnerr
      | exit => exact .exits hst _ _

theorem inputLoop_start (rounds : ℕ) {b : Bytes} (hb : b.length ≤ PROTO_IOBUF_LEN) (hr : b.length ≤ rounds)
    (hexec : ∀ r ∈ (feed start b).2, exec r ≠ .err) :
    Follows exec ((inputLoop exec rounds ⟨b,.unknown,0,-1,[]⟩).1.map Event.argv)
      (inputLoop exec rounds ⟨b,.unknown,0,-1,[]⟩).2 (feed start b) := by
  have hempty : ∀ rounds, Follows exec ((inputLoop exec rounds ⟨[],.unknown,0,-1,[]⟩).1.map Event.argv)
      (inputLoop exec rounds ⟨[],.unknown,0,-1,[]⟩).2 (feed start []) := by
    intro rounds
    cases rounds <;> exact .quiet (.waits (.count rfl (by simp)))
  induction rounds generalizing b with
  | zero =>
    obtain rfl : b = [] := List.length_eq_zero_iff.mp (by omega)
    exact hempty 0
  | succ rounds ih =>
    by_cases hne : b = []
    · subst hne
      exact hempty _
    by_cases hstar : b.head? = some 42
    · have hpos : 0 < b.length := List.length_pos_iff.mpr hne
      have hset : setReqtype ⟨b,.unknown,0,-1,[]⟩ = ⟨b,.multibulk,0,-1,[]⟩ := by
        rw [setReqtype,if_pos rfl]
        dsimp only
        rw [if_pos hstar]
      refine inputLoop_round (b.length-1) hne ?_ hexec fun b' hb' => ih (by omega) (by omega)
      rw [hset]
      exact parse_count hstar (by omega) fun n k _ _ => by omega
    · have hin : (setReqtype ⟨b,.unknown,0,-1,[]⟩).reqtype = .inline := by
        rw [setReqtype,if_pos rfl]
        exact if_neg hstar
      obtain ⟨hes,hrests⟩ := inputLoop_inline exec (rounds+1) hin hne
      rw [hes,feed_start_foreign hne hstar]
      exact .quiet hrests

/-- A read of a client that waits where the framer stands. -/
theorem readQueryFromClient_follows {c : Client} {σ : Stage} {s : Bytes} (hw : Waits c σ)
    (hone : ¬ Rereads c) (hne : s ≠ []) (hlen : s.length ≤ readlen c) (hexec : ∀ r ∈ (feed σ s).2, exec r ≠ .err) :
    Follows exec ((readQueryFromClient exec c s).1.map Event.argv) (readQueryFromClient exec c s).2 (feed σ s) := by
  by_cases hfirst : σ = start → s.head? = some 42
  · have hdoes := read_does hw hone hne hlen hfirst
    obtain ⟨rounds,hrounds⟩ : ∃ rounds, (c.querybuf++s).length = rounds+1 := by
      refine Nat.exists_eq_succ_of_ne_zero ?_
      simp [hne]
    rw [readQueryFromClient,processInputBuffer,hrounds]
    refine inputLoop_round _ (by simp [hne]) hdoes hexec fun b hb => ?_
    rw [le_min_iff,hrounds] at hb
    exact inputLoop_start rounds hb.1 (by omega)
  · rw [Classical.not_imp] at hfirst
    obtain ⟨rfl,hstar⟩ := hfirst
    obtain rfl := hw.eq_createClient
    have hin : (setReqtype ⟨s,.unknown,0,-1,[]⟩).reqtype = .inline := by
      rw [setReqtype,if_pos rfl]
      exact if_neg hstar
    obtain ⟨hes,hrests⟩ := inputLoop_inline exec s.length hin hne
    rw [feed_start_foreign hne hstar]
    show Follows exec ((inputLoop exec s.length ⟨s,.unknown,0,-1,[]⟩).1.map Event.argv)
      (inputLoop exec s.length ⟨s,.unknown,0,-1,[]⟩).2 (foreign,[])
    rw [hes]
    exact .quiet hrests

/-- Some read of the connection finds the client `c'` waiting, has read `pre` in front, and gets `s`. -/
def ReadAt (exec : List Bytes → Status) (c : Client) (chunks : List Bytes) (pre : List Bytes) (c' : Client)
    (s : Bytes) : Prop :=
  pre++[s] <+: chunks ∧ (readAll exec c pre).2 = .idle c'

theorem readAll_cons_idle {c c' : Client} {s : Bytes} (h : (readQueryFromClient exec c s).2 = .idle c')
    (chunks : List Bytes) :
    readAll exec c (s::chunks) =
      ((readQueryFromClient exec c s).1::(readAll exec c' chunks).1,(readAll exec c' chunks).2) := by
  rw [readAll]
  rcases hq : readQueryFromClient exec c s with ⟨es,r⟩
  rw [hq] at h
  obtain rfl : r = .idle c' := h
  rfl

theorem ReadAt.tail {c c' d : Client} {s t : Bytes} {chunks pre : List Bytes}
    (hs : (readQueryFromClient exec c s).2 = .idle c') (h : ReadAt exec c' chunks pre d t) :
    ReadAt exec c (s::chunks) (s::pre) d t := by
  refine ⟨List.cons_prefix_cons.mpr ⟨rfl,h.1⟩,?_⟩
  rw [readAll_cons_idle hs]
  exact h.2

/-- However the bytes are read, the connection follows the framer, if no byte is parsed again. -/
theorem readAll_follows {c : Client} {σ : Stage} {chunks : List Bytes} (hw : Waits c σ)
    (hexec : ∀ r ∈ (feed σ chunks.flatten).2, exec r ≠ .err)
    (hread : ∀ pre c' s, ReadAt exec c chunks pre c' s → Waits c' (feed σ pre.flatten).1 →
      (∀ r ∈ (feed σ pre.flatten).2, exec r ≠ .exit) → ¬ Rereads c' ∧ s ≠ [] ∧ s.length ≤ readlen c') :
    Follows exec (executed (readAll exec c chunks)) (readAll exec c chunks).2 (feed σ chunks.flatten) := by
  induction chunks generalizing c σ with
  | nil => exact .quiet (.waits hw)
  | cons s chunks ih =>
    obtain ⟨hone,hne,hlen⟩ := hread [] c s ⟨by simp,rfl⟩ hw (by simp)
    rw [List.flatten_cons,feed_append] at hexec
    have hq := readQueryFromClient_follows hw hone hne hlen fun r hr => (hexec r (by simp [hr]) : exec r ≠ .err)
    refine hq.readAll_cons fun c' hc' hrests hno => ?_
    generalize hσ : (feed σ s).1 = σ' at hrests hexec ⊢
    cases hrests with
    | inline hin => exact readAll_inline hin chunks
    | waits hw' =>
      refine ih hw' (fun r hr => hexec r (by simp [hr])) fun pre d t hat hwd hpre => ?_
      have hpre' := hread (s::pre) d t (hat.tail hc')
      rw [List.flatten_cons,feed_append,hσ] at hpre'
      exact hpre' hwd fun r hr => (List.mem_append.mp hr).elim (hno r) (hpre r)

end

end Tadpole
