import Tadpole.InputLoop

/-! When an assertion of the parser fails. The input loop hands it a client that is ready for it, but
for one that still has the arguments of a QUIT. -/
namespace Tadpole

def Client.Ready (c : Client) : Prop :=
  match c.reqtype with
  | .unknown => c.multibulklen = 0 ∧ c.argv = []
  | .inline => True
  | .multibulk => c.multibulklen = 0 → c.argv = [] ∧ c.querybuf.head? = some 42

def Client.Stale (c : Client) : Prop := c.reqtype = .multibulk ∧ c.multibulklen = 0 ∧ c.argv ≠ []

theorem resetClient_ready (c : Client) : (resetClient c).Ready := ⟨rfl,rfl⟩

/-- What the loop over the arguments comes to: all are there, or some are missing. -/
def LoopEnd (t : ReqType) (p : Parsed) : Prop :=
  (∃ c, p = .ok c ∧ c.reqtype = t ∧ c.multibulklen = 0) ∨
    ∃ log c, p = .err log c ∧ c.reqtype = t ∧ c.multibulklen ≠ 0

theorem trim_reqtype (c : Client) (pos : ℤ) : (c.trim pos).reqtype = c.reqtype := by
  rw [Client.trim]
  split_ifs <;> rfl

theorem trim_multibulklen (c : Client) (pos : ℤ) : (c.trim pos).multibulklen = c.multibulklen := by
  rw [Client.trim]
  split_ifs <;> rfl

/-- The bulk length is known already, or a header line gives it; a big payload is then cut to the front. -/
theorem readHeader_cases {c c' : Client} {pos pos' : ℤ} (h : readHeader c pos = .known c' pos') :
    (c.bulklen ≠ -1 ∧ c' = c ∧ pos' = pos) ∨
      ∃ n ll : ℕ, c.bulklen = -1 ∧ strchr CR (c.querybuf.drop pos.toNat) = some n ∧
        ¬ pos+n > int32 (int32 c.querybuf.length-2) ∧ (c.querybuf.drop pos.toNat).head? = some 36 ∧
        bulkLength (((c.querybuf.drop pos.toNat).drop 1).take (n-1)) = some ll ∧
        (c' = {c with querybuf := sdsrange c.querybuf (int32 (pos+n+2)) (-1), bulklen := ll} ∧ pos' = 0 ∨
          c' = {c with bulklen := ll} ∧ pos' = int32 (pos+n+2)) := by
  rw [readHeader] at h
  by_cases hlen : c.bulklen ≠ -1
  · rw [if_pos hlen] at h
    obtain ⟨rfl,rfl⟩ := Header.known.inj h
    exact Or.inl ⟨hlen,rfl,rfl⟩
  · rw [if_neg hlen] at h
    dsimp only at h
    cases hcr : strchr CR (c.querybuf.drop pos.toNat) with
    | none =>
      rw [hcr] at h
      dsimp only at h
      split_ifs at h
    | some n =>
      rw [hcr] at h
      dsimp only at h
      split_ifs at h with hfar hmark
      cases hll : bulkLength (((c.querybuf.drop pos.toNat).drop 1).take (n-1)) with
      | none =>
        rw [hll] at h
        cases h
      | some ll =>
        rw [hll] at h
        dsimp only at h
        refine Or.inr ⟨n,ll,not_not.mp hlen,rfl,hfar,not_not.mp hmark,hll,?_⟩
        split_ifs at h
        · obtain ⟨rfl,rfl⟩ := Header.known.inj h
          exact Or.inl ⟨rfl,rfl⟩
        · obtain ⟨rfl,rfl⟩ := Header.known.inj h
          exact Or.inr ⟨rfl,rfl⟩

theorem readHeader_known {c c' : Client} {pos pos' : ℤ} (h : readHeader c pos = .known c' pos') :
    c'.reqtype = c.reqtype ∧ c'.multibulklen = c.multibulklen := by
  obtain ⟨-,rfl,-⟩ | ⟨n,ll,-,-,-,-,-,⟨rfl,-⟩ | ⟨rfl,-⟩⟩ := readHeader_cases h <;> exact ⟨rfl,rfl⟩

theorem bulkLoop_end {t : ReqType} {n : ℕ} {c : Client} {pos : ℤ} {p : Parsed}
    (h : bulkLoop n c pos = some p) (ht : c.reqtype = t) (hn : c.multibulklen = n) : LoopEnd t p := by
  induction n generalizing c pos with
  | zero =>
    rw [bulkLoop] at h
    obtain rfl := Option.some.inj h
    exact Or.inl ⟨_,rfl,(trim_reqtype c pos).trans ht,(trim_multibulklen c pos).trans hn⟩
  | succ n ih =>
    rw [bulkLoop] at h
    split_ifs at h
    cases hr : readHeader c pos with
    | error log =>
      rw [hr] at h
      obtain rfl := Option.some.inj h
      exact Or.inr ⟨_,_,rfl,ht,by omega⟩
    | more =>
      rw [hr] at h
      obtain rfl := Option.some.inj h
      exact Or.inr ⟨_,_,rfl,(trim_reqtype c pos).trans ht,by rw [trim_multibulklen]; omega⟩
    | known d pos' =>
      obtain ⟨hd,hm⟩ := readHeader_known hr
      rw [hr] at h
      dsimp only at h
      split_ifs at h
      · obtain rfl := Option.some.inj h
        exact Or.inr ⟨_,_,rfl,(trim_reqtype d pos').trans (hd.trans ht),by rw [trim_multibulklen,hm]; omega⟩
      · exact ih h (hd.trans ht) rfl
      · exact ih h (hd.trans ht) rfl

/-- What the parser makes of a client: it hands over a request, leaves a client that is ready, or the process ends
with an inline line. -/
def ParseEnd (t : ReqType) (p : Parsed) : Prop :=
  (∃ c, p = .ok c ∧ c.reqtype = t ∧ (t = .multibulk → c.multibulklen = 0)) ∨
    (∃ log c, p = .err log c ∧ c.Ready) ∨ ∃ c, p = .badFree c

theorem LoopEnd.parseEnd {p : Parsed} (h : LoopEnd .multibulk p) : ParseEnd .multibulk p := by
  rcases h with ⟨c,rfl,ht,hm⟩ | ⟨log,c,rfl,ht,hm⟩
  · exact Or.inl ⟨c,rfl,ht,fun _ => hm⟩
  · refine Or.inr (Or.inl ⟨log,c,rfl,?_⟩)
    rw [Client.Ready,ht]
    exact fun h0 => absurd h0 hm

theorem processInlineBuffer_end {c : Client} (ht : c.reqtype = .inline) :
    ParseEnd .inline (processInlineBuffer c) := by
  obtain hp | ⟨b,argv,hp⟩ := processInlineBuffer_cases c
  · rw [hp]
    refine Or.inr (Or.inl ⟨none,c,rfl,?_⟩)
    rw [Client.Ready,ht]
    trivial
  · rw [hp]
    exact Or.inr (Or.inr ⟨_,rfl⟩)

theorem processMultibulkBuffer_end {c : Client} {p : Parsed} (ht : c.reqtype = .multibulk) (hc : c.Ready)
    (h : processMultibulkBuffer c = some p) : ParseEnd .multibulk p := by
  have hready := hc
  rw [Client.Ready,ht] at hready
  have hcases := processMultibulkBuffer_cases c
  generalize processMultibulkBuffer c = q at h hcases
  cases hcases with
  | notReset h0 hargv => exact absurd (hready h0).1 hargv
  | noStar h0 hstar => exact absurd (hready h0).2 hstar
  | waits log _ _ =>
    obtain rfl := Option.some.inj h
    exact Or.inr (Or.inl ⟨_,c,rfl,hc⟩)
  | blank hline _ =>
    obtain rfl := Option.some.inj h
    exact Or.inl ⟨_,rfl,ht,fun _ => hline.closed⟩
  | counted _ _ => exact (bulkLoop_end h ht rfl).parseEnd
  | resumed _ => exact (bulkLoop_end h ht rfl).parseEnd

theorem processMultibulkBuffer_left {c : Client} {p : Parsed} (ht : c.reqtype = .multibulk)
    (h : processMultibulkBuffer c = some p) :
    (∃ d, p = .ok d ∧ d.multibulklen = 0) ∨ (∃ log d, p = .err log d ∧ d.reqtype = .multibulk) ∨ p = .abort := by
  have hloop : LoopEnd .multibulk p → (∃ d, p = .ok d ∧ d.multibulklen = 0) ∨
      (∃ log d, p = .err log d ∧ d.reqtype = .multibulk) ∨ p = .abort := by
    rintro (⟨d,hd,-,hm⟩ | ⟨log,d,hd,hdt,-⟩)
    · exact Or.inl ⟨d,hd,hm⟩
    · exact Or.inr (Or.inl ⟨log,d,hd,hdt⟩)
  have hcases := processMultibulkBuffer_cases c
  generalize processMultibulkBuffer c = q at h hcases
  cases hcases with
  | notReset _ _ => exact Or.inr (Or.inr (Option.some.inj h).symm)
  | noStar _ _ => exact Or.inr (Or.inr (Option.some.inj h).symm)
  | waits log _ _ => exact Or.inr (Or.inl ⟨log,c,(Option.some.inj h).symm,ht⟩)
  | blank hline _ => exact Or.inl ⟨_,(Option.some.inj h).symm,hline.closed⟩
  | counted _ _ => exact hloop (bulkLoop_end h ht rfl)
  | resumed _ => exact hloop (bulkLoop_end h ht rfl)

theorem setReqtype_known (c : Client) : (setReqtype c).reqtype ≠ .unknown := by
  rw [setReqtype]
  split_ifs with hu <;> simp [hu]

theorem setReqtype_ready {c : Client} (hc : c.Ready) : (setReqtype c).Ready := by
  rw [setReqtype]
  split_ifs with hu hstar
  · rw [Client.Ready,hu] at hc
    exact fun _ => ⟨hc.2,hstar⟩
  · trivial
  · exact hc

/-- No assertion fails for a client that is ready. -/
theorem parse_end {c : Client} {p : Parsed} (hc : c.Ready) (h : parse (setReqtype c) = some p) :
    ParseEnd (setReqtype c).reqtype p := by
  rw [parse] at h
  by_cases hi : (setReqtype c).reqtype = .inline
  · rw [if_pos hi] at h
    obtain rfl := Option.some.inj h
    rw [hi]
    exact processInlineBuffer_end hi
  · rw [if_neg hi] at h
    have hm : (setReqtype c).reqtype = .multibulk := by
      cases ht : (setReqtype c).reqtype with
      | unknown => exact absurd ht (setReqtype_known c)
      | inline => exact absurd ht hi
      | multibulk => rfl
    rw [hm]
    exact processMultibulkBuffer_end hm (setReqtype_ready hc) h

theorem parse_stale {c : Client} (h : c.Stale) : parse (setReqtype c) = some .abort := by
  have hset : setReqtype c = c := by rw [setReqtype,if_neg (by rw [h.1]; decide)]
  rw [hset,parse,if_neg (by rw [h.1]; decide),processMultibulkBuffer,if_pos h.2.1,if_pos h.2.2]

section
variable {exec : List Bytes → Status}

def Event.Quits (exec : List Bytes → Status) (e : Event) : Prop := e.reqtype = .multibulk ∧ exec e.argv = .err

instance decidableQuits (exec : List Bytes → Status) : DecidablePred (Event.Quits exec) :=
  fun e => inferInstanceAs (Decidable (e.reqtype = .multibulk ∧ exec e.argv = .err))

/-- What the loop comes to from a client that is ready: no multibulk request quits, or one does and
is the last the buffer has, or one does and the next round aborts. -/
inductive LoopOutcome (exec : List Bytes → Status) : List Event → Result → Prop
  | runs {es : List Event} {r : Result} : (∀ e ∈ es, ¬ e.Quits exec) → r ≠ .abort →
      (∀ c, r = .idle c → c.Ready) → LoopOutcome exec es r
  | stale {es : List Event} {c : Client} : c.Stale → (∃ e ∈ es, e.Quits exec) →
      (∀ e ∈ es, e.Quits exec → e.left = []) → LoopOutcome exec es (.idle c)
  | aborts {es : List Event} : (∃ e ∈ es, e.Quits exec ∧ e.left ≠ []) → LoopOutcome exec es .abort

theorem LoopOutcome.cons {es : List Event} {r : Result} (h : LoopOutcome exec es r) {e : Event}
    (he : ¬ e.Quits exec) : LoopOutcome exec (e::es) r := by
  cases h with
  | runs hno hr hc => exact .runs (List.forall_mem_cons.mpr ⟨he,hno⟩) hr hc
  | stale hc hq hleft =>
    obtain ⟨q,hq,hquits⟩ := hq
    exact .stale hc ⟨q,by simp [hq],hquits⟩
      (List.forall_mem_cons.mpr ⟨fun h => absurd h he,hleft⟩)
  | aborts hq =>
    obtain ⟨q,hq,hquits⟩ := hq
    exact .aborts ⟨q,by simp [hq],hquits⟩

/-- A client that was not reset is asked to parse again as soon as there is a byte. -/
theorem LoopRun.of_stale {c : Client} {es : List Event} {calls : List Client} {r : Result}
    (h : LoopRun exec c es calls r) (hc : c.Stale) :
    es = [] ∧ (c.querybuf = [] ∧ r = .idle c ∨ c.querybuf ≠ [] ∧ r = .abort) := by
  have hp := parse_stale hc
  cases h with
  | empty h => exact ⟨rfl,Or.inl ⟨h,rfl⟩⟩
  | aborts h => exact ⟨rfl,Or.inr ⟨h.1,rfl⟩⟩
  | _ h => cases hp.symm.trans h.2

theorem LoopRun.outcome {c : Client} {es : List Event} {calls : List Client} {r : Result}
    (h : LoopRun exec c es calls r) (hc : c.Ready) : LoopOutcome exec es r := by
  induction h with
  | empty _ => exact .runs (by simp) (by simp) fun d hd => Result.idle.inj hd ▸ hc
  | waits hp =>
    rcases parse_end hc hp.2 with ⟨d,hd,-,-⟩ | ⟨log,d,hd,hready⟩ | ⟨d,hd⟩
    · cases hd
    · obtain ⟨-,rfl⟩ := Parsed.err.inj hd
      exact .runs (by simp) (by simp) fun d' hd' => Result.idle.inj hd' ▸ hready
    · cases hd
  | aborts hp => rcases parse_end hc hp.2 with ⟨d,hd,-,-⟩ | ⟨log,d,hd,-⟩ | ⟨d,hd⟩ <;> cases hd
  | frees _ => exact .runs (by simp) (by simp) nofun
  | fails _ => exact .runs (by simp) (by simp) nofun
  | repeats _ => exact .runs (by simp) (by simp) nofun
  | blank _ _ _ ih => exact ih (resetClient_ready _)
  | runs _ _ hst _ ih => exact (ih (resetClient_ready _)).cons fun h => by cases hst.symm.trans h.2
  | exits _ _ hst => exact .runs (by simp [Event.Quits,Client.event,hst]) (by simp) nofun
  | @quits c d es calls r hp hargv hst hrest ih =>
    rcases parse_end hc hp.2 with ⟨d',hd,ht,hm⟩ | ⟨log,d',hd,-⟩ | ⟨d',hd⟩
    · obtain rfl := Parsed.ok.inj hd
      by_cases hmulti : d.reqtype = .multibulk
      · -- the client is not reset: the next round aborts, in this read or in the next
        have hstale : d.Stale := ⟨hmulti,hm (ht.symm.trans hmulti),hargv⟩
        have hquits : d.event.Quits exec := ⟨hmulti,hst⟩
        obtain ⟨rfl,⟨hleft,rfl⟩ | ⟨hleft,rfl⟩⟩ := hrest.of_stale hstale
        · exact .stale hstale ⟨_,by simp,hquits⟩ (by simp [Client.event,hleft])
        · exact .aborts ⟨_,by simp,hquits,hleft⟩
      · have hready : d.Ready := by
          rw [Client.Ready]
          have hk := ht.symm ▸ setReqtype_known c
          cases hd : d.reqtype with
          | unknown => exact absurd hd hk
          | inline => trivial
          | multibulk => exact absurd hd hmulti
        exact (ih hready).cons fun h => hmulti h.1
    · cases hd
    · cases hd

theorem ready_append {c : Client} (hc : c.Ready) (s : Bytes) :
    Client.Ready {c with querybuf := c.querybuf++s} := by
  rw [Client.Ready] at hc ⊢
  dsimp only
  cases ht : c.reqtype with
  | unknown => rwa [ht] at hc
  | inline => trivial
  | multibulk =>
    rw [ht] at hc
    intro h0
    obtain ⟨hargv,hstar⟩ := hc h0
    exact ⟨hargv,by rw [List.head?_append,hstar]; rfl⟩

/-- Every such request is the last thing that comes in `n` reads: nothing is behind it in the buffer, and
its read is the last. -/
def NothingBehind (P : Event → Prop) (reads : List (List Event)) (n : ℕ) : Prop :=
  ∀ i es e, reads[i]? = some es → e ∈ es → P e → e.left = [] ∧ i+1 = n

theorem nothingBehind_iff (P : Event → Prop) (reads : List (List Event)) (n : ℕ) :
    (∀ i < reads.length, ∀ e ∈ reads[i]?.getD [], P e → e.left = [] ∧ i+1 = n) ↔ NothingBehind P reads n := by
  constructor
  · intro h i es e hi he hq
    obtain ⟨hlt,-⟩ := List.getElem?_eq_some_iff.mp hi
    exact h i hlt e (by rwa [hi]) hq
  · intro h i hlt e he hq
    have hi : reads[i]? = some reads[i] := List.getElem?_eq_getElem hlt
    rw [hi] at he
    exact h i _ e hi he hq

instance decidableNothingBehind (P : Event → Prop) [DecidablePred P] (reads : List (List Event)) (n : ℕ) :
    Decidable (NothingBehind P reads n) := decidable_of_iff _ (nothingBehind_iff P reads n)

theorem nothingBehind_nil (P : Event → Prop) (n : ℕ) : NothingBehind P [] n := by
  intro i es e hi
  cases hi

theorem nothingBehind_cons {P : Event → Prop} {es : List Event} (hes : ∀ e ∈ es, ¬ P e) (rest : List (List Event))
    (n : ℕ) : NothingBehind P (es::rest) (n+1) ↔ NothingBehind P rest n := by
  constructor
  · intro h i es' e hi he hq
    obtain ⟨hleft,hlast⟩ := h (i+1) es' e hi he hq
    exact ⟨hleft,by omega⟩
  · intro h i es' e hi he hq
    cases i with
    | zero =>
      obtain rfl : es = es' := Option.some.inj hi
      exact absurd hq (hes e he)
    | succ i =>
      obtain ⟨hleft,hlast⟩ := h i es' e hi he hq
      exact ⟨hleft,by omega⟩

theorem nothingBehind_head {P : Event → Prop} {es : List Event} {rest : List (List Event)} {n : ℕ} {e : Event}
    (he : e ∈ es) (hq : P e) (h : NothingBehind P (es::rest) (n+1)) : e.left = [] ∧ n = 0 := by
  obtain ⟨hleft,hlast⟩ := h 0 es e rfl he hq
  exact ⟨hleft,by omega⟩

theorem nothingBehind_singleton {P : Event → Prop} {es : List Event} (h : ∀ e ∈ es, P e → e.left = []) :
    NothingBehind P [es] 1 := by
  intro i es' e hi he hq
  cases i with
  | zero =>
    obtain rfl : es = es' := Option.some.inj hi
    exact ⟨h e he hq,rfl⟩
  | succ i => cases hi

/-- Every multibulk request that quits is the last thing that comes in `n` reads: nothing is behind it
in the buffer, and its read is the last. -/
def NothingBehindQuit (exec : List Bytes → Status) (reads : List (List Event)) (n : ℕ) : Prop :=
  ∀ i es e, reads[i]? = some es → e ∈ es → e.Quits exec → e.left = [] ∧ i+1 = n

theorem nothingBehindQuit_eq : NothingBehindQuit exec = NothingBehind (Event.Quits exec) := rfl

instance decidableNothingBehindQuit (reads : List (List Event)) (n : ℕ) : Decidable (NothingBehindQuit exec reads n) :=
  inferInstanceAs (Decidable (NothingBehind (Event.Quits exec) reads n))

/-- A read of a client that was not reset aborts. -/
theorem readAll_stale {c : Client} (hc : c.Stale) {s : Bytes} (hs : s ≠ []) (chunks : List Bytes) :
    (readAll exec c (s::chunks)).2 = .abort := by
  have hstale : Client.Stale {c with querybuf := c.querybuf++s} := hc
  have h := ((readQueryFromClient_run exec c s).of_stale hstale).2.resolve_left fun h => by simp [hs] at h
  rw [readAll]
  rcases hq : readQueryFromClient exec c s with ⟨es,r⟩
  rw [hq] at h
  obtain rfl : r = .abort := h.2
  rfl

theorem readAll_not_abort_iff {c : Client} {chunks : List Bytes} (hc : c.Ready) (h : ∀ s ∈ chunks, s ≠ []) :
    (readAll exec c chunks).2 ≠ .abort ↔ NothingBehindQuit exec (readAll exec c chunks).1 chunks.length := by
  rw [nothingBehindQuit_eq]
  induction chunks generalizing c with
  | nil => exact iff_of_true (by simp [readAll]) (nothingBehind_nil _ 0)
  | cons s chunks ih =>
    have hout := (readQueryFromClient_run exec c s).outcome (ready_append hc s)
    have hstale : ∀ d, d.Stale → chunks ≠ [] → (readAll exec d chunks).2 = .abort := by
      intro d hd hne
      obtain ⟨t,chunks,rfl⟩ := List.exists_cons_of_ne_nil hne
      exact readAll_stale hd (h t (by simp)) chunks
    rw [readAll,List.length_cons]
    rcases hq : readQueryFromClient exec c s with ⟨es,r⟩
    rw [hq] at hout
    cases hout with
    | runs hno hr hready =>
      cases r with
      | idle d =>
        rw [nothingBehind_cons hno]
        exact ih (hready d rfl) fun t ht => h t (by simp [ht])
      | abort => exact absurd rfl hr
      | exit => exact iff_of_true (by simp) ((nothingBehind_cons hno [] _).mpr (nothingBehind_nil _ _))
      | badFree => exact iff_of_true (by simp) ((nothingBehind_cons hno [] _).mpr (nothingBehind_nil _ _))
      | undefined => exact iff_of_true (by simp) ((nothingBehind_cons hno [] _).mpr (nothingBehind_nil _ _))
    | @stale d hd hquit hleft =>
      by_cases hne : chunks = []
      · subst hne
        exact iff_of_true (by simp [readAll]) (nothingBehind_singleton hleft)
      · obtain ⟨e,he,hq'⟩ := hquit
        refine iff_of_false (not_not.mpr (hstale d hd hne)) fun hlast => hne ?_
        exact List.length_eq_zero_iff.mp (nothingBehind_head he hq' hlast).2
    | aborts hquit =>
      obtain ⟨e,he,hq',hleft⟩ := hquit
      exact iff_of_false (by simp) fun hlast => hleft (nothingBehind_head he hq' hlast).1

end

/-- No assertion of the parser fails, however the bytes are read. -/
def NeverAborts (chunks : List Bytes) : Prop := (readAll commandStatus createClient chunks).2 ≠ .abort

/-- A connection aborts the server exactly when a byte follows a multibulk QUIT. -/
theorem neverAborts_iff {chunks : List Bytes} (h : ∀ s ∈ chunks, s ≠ []) :
    NeverAborts chunks ↔ NothingBehindQuit commandStatus (readAll commandStatus createClient chunks).1
      chunks.length :=
  readAll_not_abort_iff (resetClient_ready createClient) h

/-- QUIT is the last request in its read, and nothing follows. -/
theorem neverAborts_quit : NeverAborts [str "*1\r\n$4\r\nping\r\n*1\r\n$4\r\n",str "quit\r\n"] :=
  (neverAborts_iff (by decide)).mpr (by decide +kernel)

/-- One more byte after QUIT. -/
theorem quit_star_not_neverAborts : ¬ NeverAborts [str "*1\r\n$4\r\nquit\r\n",str "*"] := by
  intro h
  exact h (by decide +kernel)

end Tadpole
