import Tadpole.Interleaving
import Tadpole.Replies

/-! Several connections that send requests: each has executed what has arrived of its own, and all of them
are answered as one map would answer the commands in the order of their execution. -/
namespace Tadpole

/-- A read of one of the descriptors, of as many bytes as are asked for at most, with memory for its
commands. -/
def NetEvent.ReadsOf (fds : List ℕ) : NetEvent → Prop
  | accept _ => False
  | readable fd (.data chunk) draws =>
    fd ∈ fds ∧ 1 ≤ chunk.length ∧ chunk.length ≤ PROTO_IOBUF_LEN ∧ ∀ i, (draws i).malloc = true
  | readable fd .again _ => fd ∈ fds
  | readable _ .gone _ => False

/-- Every descriptor has a client as it is created. -/
def acceptedNet (fl : FixedLength) (fds : List ℕ) : Net :=
  ⟨initServer (some fl),fun fd => if fd ∈ fds then some createClient else none⟩

/-- Some connection puts the key. -/
def PutBySome (fds : List ℕ) (sent : ℕ → List (List Bytes)) (key : Bytes) : Prop :=
  ∃ fd ∈ fds, ∃ r ∈ sent fd, ∃ value, resolve r = some (.call (.put key value))

/-- The requests of all connections: encoded as the parser wants them, none of them ends the connection or
the server, and the lines of the keys that are put fit the `int` of a SCAN. -/
structure Traffic (fl : FixedLength) (fds : List ℕ) (sent : ℕ → List (List Bytes)) : Prop where
  wellFormed : ∀ fd ∈ fds, ∀ r ∈ sent fd, WellFormedRequest r
  stays : ∀ fd ∈ fds, ∀ r ∈ sent fd, resolve r ≠ some .quit ∧ resolve r ≠ some .shutdown
  scans : ∀ fd ∈ fds, ∀ r ∈ sent fd, ∀ c, resolve r = some (.call c) → ∀ M : KeyMap,
    (∀ e ∈ M.entries, PutBySome fds sent e.1) → ScanFits fl M c

theorem arrived_front (n : ℕ) (rs : List (List Bytes)) : arrived n rs <+: rs := by
  induction rs generalizing n with
  | nil => exact List.prefix_rfl
  | cons r rs ih =>
    rw [arrived]
    split_ifs
    · exact (List.prefix_cons_inj r).mpr (ih _)
    · exact List.nil_prefix

theorem mem_arrived {n : ℕ} {rs : List (List Bytes)} {r : List Bytes} (h : r ∈ arrived n rs) : r ∈ rs :=
  (arrived_front n rs).subset h

section
variable {fl : FixedLength} {fds : List ℕ} {sent : ℕ → List (List Bytes)}

theorem Traffic.answered (h : Traffic fl fds sent) {fd : ℕ} (hfd : fd ∈ fds) {r : List Bytes} (hr : r ∈ sent fd) :
    Answered r := by
  obtain ⟨h1,-,hargs⟩ := h.wellFormed fd hfd r hr
  refine ⟨?_,fun a ha => (hargs a ha).le.trans (by decide),h.stays fd hfd r hr⟩
  rintro rfl
  cases h1

theorem Traffic.status (h : Traffic fl fds sent) {fd : ℕ} (hfd : fd ∈ fds) {r : List Bytes} (hr : r ∈ sent fd) :
    commandStatus r = .ok := by
  obtain ⟨hquit,hshut⟩ := h.stays fd hfd r hr
  rw [commandStatus]
  split
  · exact absurd ‹_› hquit
  · exact absurd ‹_› hshut
  · rfl

theorem refCommand_keys {M : KeyMap} {argv : List Bytes} {Q : Bytes → Prop} (hM : ∀ e ∈ M.entries, Q e.1)
    (hput : ∀ key value, resolve argv = some (.call (.put key value)) → Q key) :
    ∀ e ∈ (refCommand fl M argv).1.entries, Q e.1 := by
  intro e he
  rw [refCommand] at he
  split at he
  · rename_i c hc
    rcases mem_refStep he with he | ⟨rfl,-⟩
    · exact hM e he
    · exact hput _ _ hc
  · exact hM e he
  · exact hM e he

/-- The commands of one read are answered as the map answers them, one after the other, with what `P` says of each
answer. -/
theorem Stores.serve {s : Server} {M : KeyMap} {T : List Tower} (h : Stores s fl M T) (h1 : 1 ≤ fl.keyLen) (fd : ℕ)
    {draws : ℕ → Draw} (hdraws : ∀ i, (draws i).malloc = true) {argvs : List (List Bytes)} {Q : Bytes → Prop}
    {P : Served → Reply → Prop} (hans : ∀ r ∈ argvs, Answered r) (hM : ∀ e ∈ M.entries, Q e.1)
    (hput : ∀ r ∈ argvs, ∀ key value, resolve r = some (.call (.put key value)) → Q key)
    (hscan : ∀ r ∈ argvs, ∀ c, resolve r = some (.call c) → ∀ M : KeyMap, (∀ e ∈ M.entries, Q e.1) → ScanFits fl M c)
    (hP : ∀ {s M T}, Stores s fl M T → (∀ e ∈ M.entries, Q e.1) → ∀ r ∈ argvs, ∀ d s' out,
      processCommand s d r = some (s',out,.ok) → Sends out (refCommand fl M r).2 →
        P ⟨fd,d,r,out,.ok⟩ (refCommand fl M r).2) :
    ∃ s' log T', Tadpole.serve fd s draws argvs = some (s',log) ∧
      List.Forall₂ P log (Simulation.follow (refCommand fl) M argvs).2 ∧
      Stores s' fl (Simulation.follow (refCommand fl) M argvs).1 T' ∧
      ∀ e ∈ (Simulation.follow (refCommand fl) M argvs).1.entries, Q e.1 := by
  induction argvs generalizing s M T draws with
  | nil => exact ⟨s,[],T,rfl,.nil,h,hM⟩
  | cons argv argvs ih =>
    obtain ⟨s₁,out,T₁,hstep,hsends,hs₁⟩ := h.command h1 (hans argv (by simp))
      (fun c hc => hscan argv (by simp) c hc M hM) (draws 0).level
    have hdraw : draws 0 = ⟨(draws 0).level,true⟩ := by
      rw [← hdraws 0]
    have hhead := hP h hM argv (by simp) _ _ _ hstep hsends
    obtain ⟨s₂,log,T₂,hserve,hall,hs₂,hM₂⟩ := ih hs₁ (fun i => hdraws (i+1)) (fun r hr => hans r (by simp [hr]))
      (refCommand_keys hM (hput argv (by simp))) (fun r hr => hput r (by simp [hr]))
      (fun r hr => hscan r (by simp [hr])) (fun hs hM r hr => hP hs hM r (by simp [hr]))
    rw [← hdraw] at hhead
    refine ⟨s₂,⟨fd,draws 0,argv,out,.ok⟩::log,T₂,?_,hall.cons hhead,hs₂,hM₂⟩
    rw [Tadpole.serve,hdraw,hstep]
    simp only [Option.bind_eq_bind,Option.bind_some,hserve]

theorem Traffic.read (h : Traffic fl fds sent) {fd : ℕ} (hfd : fd ∈ fds) {got : List Bytes} {chunk q : Bytes}
    (hsize : ∀ s ∈ got++[chunk], 1 ≤ s.length ∧ s.length ≤ PROTO_IOBUF_LEN)
    (hcut : (got++[chunk]).flatten++q = encodeRequests (sent fd)) {c : Client}
    (hidle : (readAll commandStatus createClient got).2 = .idle c) :
    ∃ es c', readQueryFromClient commandStatus c chunk = (es,.idle c') ∧ (∀ r ∈ es.map Event.argv, r ∈ sent fd) ∧
      (readAll commandStatus createClient (got++[chunk])).2 = .idle c' ∧
      executed (readAll commandStatus createClient (got++[chunk])) =
        executed (readAll commandStatus createClient got)++es.map Event.argv := by
  obtain ⟨hargvs,c',hc',-⟩ := readAll_requests (h.wellFormed fd hfd) (fun r hr => h.status hfd hr) hsize hcut
  obtain ⟨happ,hres⟩ := readAll_append hidle [chunk]
  rw [hc'] at hres
  rcases hq : readQueryFromClient commandStatus c chunk with ⟨es,r⟩
  have hone : (readAll commandStatus c [chunk]).2 = r ∧ executed (readAll commandStatus c [chunk]) = es.map Event.argv := by
    cases r <;> simp [readAll,hq,executed]
  obtain ⟨hr,hes⟩ := hone
  obtain rfl : Result.idle c' = r := hres.trans hr
  refine ⟨es,c',rfl,fun r hr => ?_,hc',by rw [happ,hes]⟩
  refine mem_arrived (n:=(got++[chunk]).flatten.length) ?_
  rw [← hargvs,happ,hes]
  exact List.mem_append_right _ hr

theorem chunksOf_cons (fd : ℕ) (e : NetEvent) (es : List NetEvent) :
    chunksOf fd (e::es) = (e.dataFor fd).toList++chunksOf fd es := by
  rw [chunksOf,List.filterMap_cons]
  cases e.dataFor fd <;> rfl

/-- Reads of connections that have received `got` so far: all of them are served. -/
theorem Traffic.serves (h : Traffic fl fds sent) (h1 : 1 ≤ fl.keyLen) (es : List NetEvent) {n : Net} {M : KeyMap}
    {T : List Tower} {got : ℕ → List Bytes} (hs : Stores n.server fl M T)
    (hM : ∀ e ∈ M.entries, PutBySome fds sent e.1)
    (hclients : ∀ fd ∈ fds, ∃ c, n.clients fd = some c ∧ (readAll commandStatus createClient (got fd)).2 = .idle c)
    (hreads : ∀ e ∈ es, e.ReadsOf fds) (hgot : ∀ fd ∈ fds, ∀ s ∈ got fd, 1 ≤ s.length ∧ s.length ≤ PROTO_IOBUF_LEN)
    (hcut : ∀ fd ∈ fds, (got fd++chunksOf fd es).flatten <+: encodeRequests (sent fd)) :
    ∃ n' log T', n.run es = some (.up n',log) ∧
      List.Forall₂ (fun e r => Sends e.out r) log (Simulation.follow (refCommand fl) M (log.map Served.argv)).2 ∧
      Stores n'.server fl (Simulation.follow (refCommand fl) M (log.map Served.argv)).1 T' := by
  induction es generalizing n M T got with
  | nil => exact ⟨n,[],T,rfl,.nil,hs⟩
  | cons e es ih =>
    have hreads' : ∀ e ∈ es, e.ReadsOf fds := fun e he => hreads e (by simp [he])
    have hhead := hreads e (by simp)
    cases e with
    | accept fd => exact hhead.elim
    | readable fd arrival draws =>
      cases arrival with
      | gone => exact hhead.elim
      | again =>
        obtain ⟨c,hc,-⟩ := hclients fd hhead
        obtain ⟨n',log,T',hrun,hrest⟩ := ih hs hM hclients hreads' hgot hcut
        exact ⟨n',log,T',by simp [Net.run,Net.step,hc,hrun],hrest⟩
      | data chunk =>
        obtain ⟨hfd,hlo,hhi,hdraws⟩ := hhead
        obtain ⟨c,hc,hidle⟩ := hclients fd hfd
        have hown : chunksOf fd (.readable fd (.data chunk) draws::es) = chunk::chunksOf fd es := by
          simp [chunksOf_cons,NetEvent.dataFor]
        have hother : ∀ fd' ≠ fd, chunksOf fd' (.readable fd (.data chunk) draws::es) = chunksOf fd' es := by
          intro fd' hne
          simp [chunksOf_cons,NetEvent.dataFor,Ne.symm hne]
        have hsize : ∀ s ∈ got fd++[chunk], 1 ≤ s.length ∧ s.length ≤ PROTO_IOBUF_LEN := by
          intro s hs
          rcases List.mem_append.mp hs with hs | hs
          · exact hgot fd hfd s hs
          · rw [List.mem_singleton.mp hs]
            exact ⟨hlo,hhi⟩
        obtain ⟨q,hq⟩ := hcut fd hfd
        rw [hown,List.append_cons,List.flatten_append,List.append_assoc] at hq
        obtain ⟨evs,c',hread,hmem,hidle',-⟩ := h.read hfd hsize hq hidle
        obtain ⟨s',log₁,T₁,hserve,hall,hs₁,hM₁⟩ := hs.serve h1 fd hdraws
          (fun r hr => h.answered hfd (hmem r hr)) hM
          (fun r hr key value hput => ⟨fd,hfd,r,hmem r hr,value,hput⟩)
          (fun r hr c hc => h.scans fd hfd r (hmem r hr) c hc)
          (P:=fun e r => Sends e.out r) (fun _ _ _ _ _ _ _ _ hsends => hsends)
        have hargv : log₁.map Served.argv = evs.map Event.argv := (serve_spec hserve).2.2
        have hstep : n.step (.readable fd (.data chunk) draws) =
            some (.up (Net.setClient ⟨s',n.clients⟩ fd (some c')),log₁) := by
          simp [Net.step,hc,Net.receive,hread,hserve]
        have hupdate : ∀ fd', fd' ≠ fd → Function.update got fd (got fd++[chunk]) fd' = got fd' := fun fd' hne =>
          Function.update_of_ne hne _ _
        have hclients' : ∀ fd' ∈ fds, ∃ c₁, (Net.setClient ⟨s',n.clients⟩ fd (some c')).clients fd' = some c₁ ∧
            (readAll commandStatus createClient (Function.update got fd (got fd++[chunk]) fd')).2 = .idle c₁ := by
          intro fd' hfd'
          by_cases hne : fd' = fd
          · subst hne
            exact ⟨c',Function.update_self ..,by rw [Function.update_self]; exact hidle'⟩
          · obtain ⟨c₁,hc₁,hidle₁⟩ := hclients fd' hfd'
            exact ⟨c₁,(Net.setClient_other _ (Ne.symm hne) _).trans hc₁,by rw [hupdate fd' hne]; exact hidle₁⟩
        have hgot' : ∀ fd' ∈ fds, ∀ s ∈ Function.update got fd (got fd++[chunk]) fd',
            1 ≤ s.length ∧ s.length ≤ PROTO_IOBUF_LEN := by
          intro fd' hfd'
          by_cases hne : fd' = fd
          · subst hne
            rw [Function.update_self]
            exact hsize
          · rw [hupdate fd' hne]
            exact hgot fd' hfd'
        have hcut' : ∀ fd' ∈ fds, (Function.update got fd (got fd++[chunk]) fd'++chunksOf fd' es).flatten <+:
            encodeRequests (sent fd') := by
          intro fd' hfd'
          by_cases hne : fd' = fd
          · subst hne
            rw [Function.update_self,← List.append_cons,← hown]
            exact hcut fd' hfd'
          · rw [hupdate fd' hne,← hother fd' hne]
            exact hcut fd' hfd'
        obtain ⟨n',log₂,T₂,hrun,hall₂,hs₂⟩ := ih hs₁ hM₁ hclients' hreads' hgot' hcut'
        refine ⟨n',log₁++log₂,T₂,by simp [Net.run,hstep,hrun],?_⟩
        rw [List.map_append,hargv,Simulation.follow_append]
        exact ⟨List.rel_append hall hall₂,hs₂⟩

/-- However the reads of the connections interleave and cut their requests, the server stays up, every
connection has executed those of its requests that have arrived in full, in their order, and all answers are
those of one map to the commands in the order of execution; the store holds that map. -/
theorem connections_as_one_map (h1 : 1 ≤ fl.keyLen) (h : Traffic fl fds sent) (es : List NetEvent)
    (hreads : ∀ e ∈ es, e.ReadsOf fds)
    (hcut : ∀ fd ∈ fds, (chunksOf fd es).flatten <+: encodeRequests (sent fd)) :
    ∃ n' log, (acceptedNet fl fds).run es = some (.up n',log) ∧
      (∀ fd ∈ fds, argvsOf fd log = arrived (chunksOf fd es).flatten.length (sent fd)) ∧
      List.Forall₂ (fun e r => Sends e.out r) log
        (Simulation.follow (refCommand fl) OrderedMap.empty (log.map Served.argv)).2 ∧
      n'.server.mem.pairs =
        some (Simulation.follow (refCommand fl) OrderedMap.empty (log.map Served.argv)).1.entries := by
  have hclients : ∀ fd ∈ fds, (acceptedNet fl fds).clients fd = some createClient := fun fd hfd => if_pos hfd
  have hstart : ∀ fd ∈ fds, ∃ c, (acceptedNet fl fds).clients fd = some c ∧
      (readAll commandStatus createClient []).2 = .idle c := fun fd hfd => ⟨createClient,hclients fd hfd,rfl⟩
  obtain ⟨n',log,T',hrun,hall,hs⟩ := h.serves h1 es (initServer_stores fl) (by simp [OrderedMap.empty]) hstart hreads
    (by simp) (by simpa using hcut)
  refine ⟨n',log,hrun,fun fd hfd => ?_,hall,?_⟩
  · have hspares : ∀ e ∈ es, e.Spares fd := by
      intro e he
      have := hreads e he
      cases e with
      | accept fd' => exact this.elim
      | readable fd' arrival draws =>
        cases arrival with
        | data chunk => trivial
        | again => trivial
        | gone => exact this.elim
    obtain ⟨-,hown⟩ := Net.run_spec _ es _ log hrun
    rw [(hown fd createClient (hclients fd hfd) hspares n' rfl).argvs]
    obtain ⟨q,hq⟩ := hcut fd hfd
    refine (readAll_requests (h.wellFormed fd hfd) (fun r hr => h.status hfd hr) (fun s hs => ?_) hq).1
    obtain ⟨e,he,hes⟩ := List.mem_filterMap.mp hs
    have hread := hreads e he
    cases e with
    | accept fd' => exact hread.elim
    | readable fd' arrival draws =>
      cases arrival with
      | again => cases hes
      | gone => exact hread.elim
      | data chunk =>
        simp only [NetEvent.dataFor] at hes
        split_ifs at hes
        obtain rfl := Option.some.inj hes
        exact ⟨hread.2.1,hread.2.2.1⟩
  · exact hs.keeps.list.pairs

/-- One connection puts a key that the other asks for while the PUT is on its way. -/
theorem connections_as_one_map_put_get :
    let draws : ℕ → Draw := fun _ => ⟨⟨1,by decide⟩,true⟩
    ∃ n' log, (acceptedNet ⟨1,1⟩ [4,5]).run
        [.readable 4 (.data (str "*3\r\n$3\r\nput\r\n$1\r\na\r\n$1\r\n")) draws,
         .readable 5 (.data (str "*2\r\n$3\r\nget\r\n$1\r\na\r\n")) draws,
         .readable 4 (.data (str "1\r\n")) draws] = some (.up n',log) ∧
      argvsOf 4 log = [[str "put",str "a",str "1"]] ∧ argvsOf 5 log = [[str "get",str "a"]] := by
  intro draws
  let sent : ℕ → List (List Bytes) := fun fd =>
    if fd = 4 then [[str "put",str "a",str "1"]] else [[str "get",str "a"]]
  have hput : resolve [str "put",str "a",str "1"] = some (.call (.put (str "a") (str "1"))) := rfl
  have hget : resolve [str "get",str "a"] = some (.call (.get (str "a"))) := rfl
  have htraffic : Traffic ⟨1,1⟩ [4,5] sent := by
    refine ⟨by decide,by simp [sent,hput,hget],fun fd hfd r hr c hc M _ => ?_⟩
    have hcases : r = [str "put",str "a",str "1"] ∨ r = [str "get",str "a"] := by
      simp only [sent] at hr
      split_ifs at hr
      · exact Or.inl (List.mem_singleton.mp hr)
      · exact Or.inr (List.mem_singleton.mp hr)
    rcases hcases with rfl | rfl
    · rw [hput] at hc
      cases hc
      trivial
    · rw [hget] at hc
      cases hc
      trivial
  obtain ⟨n',log,hrun,hargvs,-⟩ := connections_as_one_map le_rfl htraffic
    [.readable 4 (.data (str "*3\r\n$3\r\nput\r\n$1\r\na\r\n$1\r\n")) draws,
     .readable 5 (.data (str "*2\r\n$3\r\nget\r\n$1\r\na\r\n")) draws,
     .readable 4 (.data (str "1\r\n")) draws]
    (by simp [NetEvent.ReadsOf,draws,str,PROTO_IOBUF_LEN]) (by decide)
  exact ⟨n',log,hrun,(hargvs 4 (by simp)).trans (by decide),(hargvs 5 (by simp)).trans (by decide)⟩

end

end Tadpole
