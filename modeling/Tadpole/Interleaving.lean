import Tadpole.Decoding
import Tadpole.Lib.Simulation

/-! Several connections at once: the event loop calls a handler for one descriptor at a time, and what the
connections have executed is one run of whole commands. -/
namespace Tadpole

/-- What `read` gives: bytes, EAGAIN, or an end or an error, with which the client is freed. -/
inductive Arrival
  | data (chunk : Bytes)
  | again
  | gone
  deriving DecidableEq

/-- A call of `acceptTcpHandler` that gives a descriptor, or of `readQueryFromClient` for one, with what
its commands draw one after the other. -/
inductive NetEvent
  | accept (fd : ℕ)
  | readable (fd : ℕ) (arrival : Arrival) (draws : ℕ → Draw)

/-- The store, and the client that is registered for each descriptor. -/
structure Net where
  server : Server
  clients : ℕ → Option Client

/-- A command that was executed, for whom, and what it answered. -/
structure Served where
  fd : ℕ
  draw : Draw
  argv : List Bytes
  out : Output
  status : Status

/-- Whether the process still runs. -/
inductive NetState
  | up (n : Net)
  | exited
  | aborted

def NetState.isUp : NetState → Bool
  | up _ => true
  | _ => false

def serve (fd : ℕ) (s : Server) (draws : ℕ → Draw) : List (List Bytes) → Option (Server × List Served)
  | [] => some (s,[])
  | argv::argvs => do
    let (s,out,status) ← processCommand s (draws 0) argv
    let (s,log) ← serve fd s (fun i => draws (i+1)) argvs
    some (s,⟨fd,draws 0,argv,out,status⟩::log)

namespace Net

def setClient (n : Net) (fd : ℕ) (c : Option Client) : Net :=
  {n with clients := Function.update n.clients fd c}

theorem setClient_self (n : Net) (fd : ℕ) (c : Option Client) : (n.setClient fd c).clients fd = c :=
  Function.update_self _ _ _

theorem setClient_other (n : Net) {fd fd' : ℕ} (h : fd ≠ fd') (c : Option Client) :
    (n.setClient fd c).clients fd' = n.clients fd' := Function.update_of_ne (Ne.symm h) _ _

/-- `readQueryFromClient` behind a read that gave bytes. -/
def receive (n : Net) (fd : ℕ) (c : Client) (chunk : Bytes) (draws : ℕ → Draw) :
    Option (NetState × List Served) := do
  let (es,r) := readQueryFromClient commandStatus c chunk
  let (s,log) ← serve fd n.server draws (es.map Event.argv)
  match r with
  | .idle c => some (.up (Net.setClient ⟨s,n.clients⟩ fd (some c)),log)
  | .exit => some (.exited,log)
  | .abort => some (.aborted,log)
  | .badFree => some (.aborted,log)
  | .undefined => none

/-- A descriptor without a client has no file event. -/
def step (n : Net) : NetEvent → Option (NetState × List Served)
  | .accept fd => some (.up (n.setClient fd (some createClient)),[])
  | .readable fd arrival draws =>
    match n.clients fd with
    | none => some (.up n,[])
    | some c =>
      match arrival with
      | .data chunk => n.receive fd c chunk draws
      | .again => some (.up n,[])
      | .gone => some (.up (n.setClient fd none),[])

/-- `aeMain`, as long as the process runs. -/
def run (n : Net) : List NetEvent → Option (NetState × List Served)
  | [] => some (.up n,[])
  | e::es =>
    match n.step e with
    | none => none
    | some (.up n,log) => (n.run es).map fun r => (r.1,log++r.2)
    | some (st,log) => some (st,log)

end Net

def NetEvent.dataFor (fd : ℕ) : NetEvent → Option Bytes
  | readable fd' (.data chunk) _ => if fd' = fd then some chunk else none
  | _ => none

def chunksOf (fd : ℕ) (es : List NetEvent) : List Bytes := es.filterMap (NetEvent.dataFor fd)

/-- The connection of the descriptor is neither closed nor replaced by the event. -/
def NetEvent.Spares (fd : ℕ) : NetEvent → Prop
  | accept fd' => fd' ≠ fd
  | readable fd' .gone _ => fd' ≠ fd
  | _ => True

/-- The argument vectors that a descriptor had executed. -/
def argvsOf (fd : ℕ) (log : List Served) : List (List Bytes) :=
  (log.filter fun e => e.fd = fd).map Served.argv

theorem argvsOf_append (fd : ℕ) (log log' : List Served) : argvsOf fd (log++log') = argvsOf fd log++argvsOf fd log' := by
  simp [argvsOf]

def Served.command (e : Served) : Draw × List Bytes := (e.draw,e.argv)

def Served.answer (e : Served) : Output × Status := (e.out,e.status)

/-- One command after the other on one store. -/
def serialRun : Server → List (Draw × List Bytes) → Option (Server × List (Output × Status)) :=
  Simulation.run fun s c => processCommand s c.1 c.2

theorem serialRun_cons {s s' : Server} {d : Draw} {argv : List Bytes} {out : Output} {status : Status}
    (h : processCommand s d argv = some (s',out,status)) (cs : List (Draw × List Bytes)) :
    serialRun s ((d,argv)::cs) = (serialRun s' cs).map fun r => (r.1,(out,status)::r.2) := by
  rw [serialRun,Simulation.run]
  simp only [h]

theorem serialRun_append {s s' : Server} {cs cs' : List (Draw × List Bytes)} {os : List (Output × Status)}
    (h : serialRun s cs = some (s',os)) :
    serialRun s (cs++cs') = (serialRun s' cs').map fun r => (r.1,os++r.2) := by
  induction cs generalizing s os with
  | nil =>
    obtain ⟨rfl,rfl⟩ := Prod.mk.inj (Option.some.inj h)
    cases h' : serialRun s cs' <;> simp [h']
  | cons c cs ih =>
    obtain ⟨d,argv⟩ := c
    cases hc : processCommand s d argv with
    | none =>
      rw [serialRun,Simulation.run] at h
      simp [hc] at h
    | some r =>
      obtain ⟨s₁,out,status⟩ := r
      rw [serialRun_cons hc] at h
      obtain ⟨⟨s₂,os₂⟩,h₂,he⟩ := Option.map_eq_some_iff.mp h
      obtain ⟨rfl,rfl⟩ := Prod.mk.inj he
      rw [List.cons_append,serialRun_cons hc,ih h₂,Option.map_map]
      rfl

/-- The commands of a read are a sequential run, each logged for the descriptor. -/
theorem serve_spec {fd : ℕ} {s s' : Server} {draws : ℕ → Draw} {argvs : List (List Bytes)} {log : List Served}
    (h : serve fd s draws argvs = some (s',log)) :
    serialRun s (log.map Served.command) = some (s',log.map Served.answer) ∧
      (∀ e ∈ log, e.fd = fd) ∧ log.map Served.argv = argvs := by
  induction argvs generalizing s draws log with
  | nil =>
    obtain ⟨rfl,rfl⟩ := Prod.mk.inj (Option.some.inj h)
    exact ⟨rfl,by simp,rfl⟩
  | cons argv argvs ih =>
    rw [serve] at h
    obtain ⟨⟨s₁,out,status⟩,h₁,h⟩ := Option.bind_eq_some_iff.mp h
    obtain ⟨⟨s₂,log₂⟩,h₂,h⟩ := Option.bind_eq_some_iff.mp h
    obtain ⟨rfl,rfl⟩ := Prod.mk.inj (Option.some.inj h)
    obtain ⟨hrun,hfd,hargv⟩ := ih h₂
    refine ⟨?_,?_,by simp [hargv]⟩
    · rw [List.map_cons]
      exact (serialRun_cons h₁ _).trans (by rw [hrun]; rfl)
    · intro e he
      rcases List.mem_cons.mp he with rfl | he
      · rfl
      · exact hfd e he

theorem argvsOf_self {fd : ℕ} {log : List Served} (h : ∀ e ∈ log, e.fd = fd) :
    argvsOf fd log = log.map Served.argv := by
  rw [argvsOf,List.filter_eq_self.mpr (by simpa using h)]

theorem argvsOf_other {fd fd' : ℕ} {log : List Served} (h : ∀ e ∈ log, e.fd = fd') (hne : fd' ≠ fd) :
    argvsOf fd log = [] := by
  rw [argvsOf,List.filter_eq_nil_iff.mpr (fun e he => by simpa [h e he] using hne),List.map_nil]

/-- The descriptor's client did with the event what it does with a read of its own, or nothing. -/
structure Net.Owns (n' : Net) (fd : ℕ) (c : Client) (chunks : List Bytes) (log : List Served) : Prop where
  argvs : argvsOf fd log = executed (readAll commandStatus c chunks)
  client : ∃ c', n'.clients fd = some c' ∧ (readAll commandStatus c chunks).2 = .idle c'

theorem Net.owns_nothing {n' : Net} {fd : ℕ} {c : Client} {log : List Served} (hc : n'.clients fd = some c)
    (hlog : argvsOf fd log = []) : n'.Owns fd c [] log := ⟨by rw [hlog]; rfl,c,hc,rfl⟩

/-- What one event does: the commands it executes are a sequential run, and each descriptor's client
takes part in its own reads only. -/
structure Net.Stepped (n : Net) (e : NetEvent) (st : NetState) (log : List Served) : Prop where
  serial : ∃ s, serialRun n.server (log.map Served.command) = some (s,log.map Served.answer) ∧
    ∀ n', st = .up n' → n'.server = s
  own : ∀ fd c, n.clients fd = some c → e.Spares fd → ∀ n', st = .up n' →
    n'.Owns fd c (e.dataFor fd).toList log

theorem Net.receive_spec {n : Net} {fd : ℕ} {c : Client} (hfd : n.clients fd = some c) {chunk : Bytes}
    {draws : ℕ → Draw} {st : NetState} {log : List Served} (h : n.receive fd c chunk draws = some (st,log)) :
    n.Stepped (.readable fd (.data chunk) draws) st log := by
  rw [Net.receive] at h
  rcases hq : readQueryFromClient commandStatus c chunk with ⟨es,r⟩
  rw [hq] at h
  obtain ⟨⟨s,log'⟩,hserve,h⟩ := Option.bind_eq_some_iff.mp h
  obtain ⟨hserial,hown,hargv⟩ := serve_spec hserve
  have hres : log' = log ∧ ∀ n', st = .up n' → n'.server = s ∧ ∃ c', r = .idle c' ∧
      n'.clients = Function.update n.clients fd (some c') := by
    cases r with
    | idle c' =>
      obtain ⟨rfl,rfl⟩ := Prod.mk.inj (Option.some.inj h)
      refine ⟨rfl,fun n' hn' => ?_⟩
      cases hn'
      exact ⟨rfl,c',rfl,rfl⟩
    | exit =>
      obtain ⟨rfl,rfl⟩ := Prod.mk.inj (Option.some.inj h)
      exact ⟨rfl,fun n' hn' => by cases hn'⟩
    | abort | badFree =>
      obtain ⟨rfl,rfl⟩ := Prod.mk.inj (Option.some.inj h)
      exact ⟨rfl,fun n' hn' => by cases hn'⟩
    | undefined => cases h
  obtain ⟨rfl,hup⟩ := hres
  refine ⟨⟨s,hserial,fun n' hn' => (hup n' hn').1⟩,fun fd' c₀ hc₀ _ n' hn' => ?_⟩
  obtain ⟨-,c',rfl,hclients⟩ := hup n' hn'
  by_cases hne : fd' = fd
  · subst hne
    obtain rfl := Option.some.inj (hfd.symm.trans hc₀)
    have hread : readAll commandStatus c [chunk] = ([es],.idle c') := by simp [readAll,hq]
    have hdata : (NetEvent.dataFor fd' (.readable fd' (.data chunk) draws)).toList = [chunk] := by
      simp [NetEvent.dataFor]
    rw [hdata]
    refine ⟨?_,c',by rw [hclients,Function.update_self],by rw [hread]⟩
    rw [argvsOf_self hown,hargv,hread]
    simp [executed]
  · have hdata : NetEvent.dataFor fd' (.readable fd (.data chunk) draws) = none := if_neg (Ne.symm hne)
    rw [hdata]
    exact Net.owns_nothing (by rw [hclients,Function.update_of_ne hne,hc₀]) (argvsOf_other hown (Ne.symm hne))

theorem Net.step_spec {n : Net} {e : NetEvent} {st : NetState} {log : List Served}
    (h : n.step e = some (st,log)) : n.Stepped e st log := by
  cases e with
  | accept fd =>
    obtain ⟨rfl,rfl⟩ := Prod.mk.inj (Option.some.inj h)
    refine ⟨⟨n.server,rfl,fun n' hn' => by cases hn'; rfl⟩,fun fd' c hc hs n' hn' => ?_⟩
    cases hn'
    exact Net.owns_nothing ((n.setClient_other hs _).trans hc) rfl
  | readable fd arrival draws =>
    rw [Net.step] at h
    -- an event that executes nothing, for a client that it leaves alone
    have hquiet : ∀ n', n'.server = n.server → (∀ fd' c, n.clients fd' = some c →
        (NetEvent.readable fd arrival draws).Spares fd' → n'.clients fd' = some c ∧
          (NetEvent.readable fd arrival draws).dataFor fd' = none) →
        n.Stepped (.readable fd arrival draws) (.up n') [] := by
      intro n' hserver hclients
      refine ⟨⟨n.server,rfl,fun n'' hn'' => by cases hn''; exact hserver⟩,fun fd' c hc hs n'' hn'' => ?_⟩
      cases hn''
      obtain ⟨hc',hdata⟩ := hclients fd' c hc hs
      rw [hdata]
      exact Net.owns_nothing hc' rfl
    cases hfd : n.clients fd with
    | none =>
      simp only [hfd] at h
      obtain ⟨rfl,rfl⟩ := Prod.mk.inj (Option.some.inj h)
      refine hquiet n rfl fun fd' c hc _ => ⟨hc,?_⟩
      have hne : fd ≠ fd' := by
        rintro rfl
        rw [hfd] at hc
        cases hc
      cases arrival <;> simp [NetEvent.dataFor,hne]
    | some c =>
      simp only [hfd] at h
      cases arrival with
      | data chunk => exact Net.receive_spec hfd h
      | again =>
        obtain ⟨rfl,rfl⟩ := Prod.mk.inj (Option.some.inj h)
        exact hquiet n rfl fun fd' c hc _ => ⟨hc,rfl⟩
      | gone =>
        obtain ⟨rfl,rfl⟩ := Prod.mk.inj (Option.some.inj h)
        exact hquiet _ rfl fun fd' c hc hs => ⟨(n.setClient_other hs _).trans hc,rfl⟩

theorem readAll_append {exec : List Bytes → Status} {c c' : Client} {xs : List Bytes}
    (h : (readAll exec c xs).2 = .idle c') (ys : List Bytes) :
    executed (readAll exec c (xs++ys)) = executed (readAll exec c xs)++executed (readAll exec c' ys) ∧
      (readAll exec c (xs++ys)).2 = (readAll exec c' ys).2 := by
  induction xs generalizing c with
  | nil =>
    obtain rfl := Result.idle.inj h
    exact ⟨rfl,rfl⟩
  | cons x xs ih =>
    rw [List.cons_append,readAll,readAll]
    rw [readAll] at h
    rcases hq : readQueryFromClient exec c x with ⟨es,r⟩
    rw [hq] at h
    cases r with
    | idle c₁ =>
      obtain ⟨h₁,h₂⟩ := ih h
      refine ⟨?_,h₂⟩
      simp only [executed,List.flatten_cons,List.map_append,List.append_assoc] at h₁ ⊢
      rw [h₁]
    | exit => cases h
    | abort => cases h
    | badFree => cases h
    | undefined => cases h

theorem Net.Owns.trans {n₁ n₂ : Net} {fd : ℕ} {c : Client} {xs : List Bytes} {log₁ : List Served}
    (h₁ : n₁.Owns fd c xs log₁) {ys : List Bytes} {log₂ : List Served}
    (h₂ : ∀ c₁, n₁.clients fd = some c₁ → n₂.Owns fd c₁ ys log₂) : n₂.Owns fd c (xs++ys) (log₁++log₂) := by
  obtain ⟨c₁,hc₁,hidle⟩ := h₁.client
  obtain ⟨hargvs,c₂,hc₂,hidle₂⟩ := h₂ c₁ hc₁
  obtain ⟨happ,hres⟩ := readAll_append hidle ys
  exact ⟨by rw [argvsOf_append,h₁.argvs,hargvs,happ],c₂,hc₂,hres.trans hidle₂⟩

theorem Net.run_spec (n : Net) (es : List NetEvent) (st : NetState) (log : List Served)
    (hrun : n.run es = some (st,log)) :
    (∃ s, serialRun n.server (log.map Served.command) = some (s,log.map Served.answer) ∧
      ∀ n', st = .up n' → n'.server = s) ∧
    ∀ fd c, n.clients fd = some c → (∀ e ∈ es, e.Spares fd) → ∀ n', st = .up n' →
      n'.Owns fd c (chunksOf fd es) log := by
  induction es generalizing n log with
  | nil =>
    obtain ⟨rfl,rfl⟩ := Prod.mk.inj (Option.some.inj hrun)
    refine ⟨⟨n.server,rfl,fun n' hn' => by cases hn'; rfl⟩,fun fd c hc _ n' hn' => ?_⟩
    cases hn'
    exact Net.owns_nothing hc rfl
  | cons e es ih =>
    rw [Net.run] at hrun
    cases hstep : n.step e with
    | none =>
      rw [hstep] at hrun
      cases hrun
    | some r =>
      obtain ⟨st₁,log₁⟩ := r
      have hspec := Net.step_spec hstep
      obtain ⟨s₁,hserial₁,hserver₁⟩ := hspec.serial
      rw [hstep] at hrun
      cases st₁ with
      | up n₁ =>
        obtain ⟨⟨st₂,log₂⟩,hrest,he⟩ := Option.map_eq_some_iff.mp hrun
        obtain ⟨rfl,rfl⟩ := Prod.mk.inj he
        obtain ⟨⟨s₂,hserial₂,hserver₂⟩,hown₂⟩ := ih n₁ log₂ hrest
        obtain rfl := hserver₁ n₁ rfl
        refine ⟨⟨s₂,?_,hserver₂⟩,fun fd c hc hs n' hn' => ?_⟩
        · rw [List.map_append,List.map_append,serialRun_append hserial₁,hserial₂]
          rfl
        · have hchunks : chunksOf fd (e::es) = (e.dataFor fd).toList++chunksOf fd es := by
            rw [chunksOf,List.filterMap_cons]
            cases e.dataFor fd <;> rfl
          rw [hchunks]
          exact (hspec.own fd c hc (hs e (by simp)) n₁ rfl).trans fun c₁ hc₁ =>
            hown₂ fd c₁ hc₁ (fun e' he' => hs e' (by simp [he'])) n' hn'
      | exited =>
        obtain ⟨rfl,rfl⟩ := Prod.mk.inj (Option.some.inj hrun)
        exact ⟨⟨s₁,hserial₁,fun n' hn' => by cases hn'⟩,fun _ _ _ _ n' hn' => by cases hn'⟩
      | aborted =>
        obtain ⟨rfl,rfl⟩ := Prod.mk.inj (Option.some.inj hrun)
        exact ⟨⟨s₁,hserial₁,fun n' hn' => by cases hn'⟩,fun _ _ _ _ n' hn' => by cases hn'⟩

/-- Whatever arrives on however many connections, in whatever pieces and order: the commands that the server
has executed are one sequential run on one store, with the answers and the store of that run, and of them a
connection has had executed what it would have had alone, its own bytes given. -/
theorem interleaving_is_serial (n : Net) (es : List NetEvent) (st : NetState) (log : List Served)
    (hrun : n.run es = some (st,log)) :
    (∃ s, serialRun n.server (log.map Served.command) = some (s,log.map Served.answer) ∧
      ∀ n', st = .up n' → n'.server = s) ∧
    ∀ fd c, n.clients fd = some c → (∀ e ∈ es, e.Spares fd) → ∀ n', st = .up n' →
      argvsOf fd log = executed (readAll commandStatus c (chunksOf fd es)) ∧
      ∃ c', n'.clients fd = some c' ∧ (readAll commandStatus c (chunksOf fd es)).2 = .idle c' := by
  obtain ⟨hserial,hown⟩ := n.run_spec es st log hrun
  exact ⟨hserial,fun fd c hc hs n' hn' => ⟨(hown fd c hc hs n' hn').argvs,(hown fd c hc hs n' hn').client⟩⟩

/-- Two connections of which one sends its request in two pieces, around the request of the other. -/
theorem interleaving_is_serial_pings : ∃ n' log,
    Net.run ⟨initServer none,fun _ => some createClient⟩
      [.readable 4 (.data (str "*1\r\n$4\r\npi")) fun _ => ⟨⟨1,by decide⟩,true⟩,
       .readable 5 (.data (str "*1\r\n$4\r\nping\r\n")) fun _ => ⟨⟨1,by decide⟩,true⟩,
       .readable 4 (.data (str "ng\r\n")) fun _ => ⟨⟨1,by decide⟩,true⟩] = some (.up n',log) ∧
    log.map Served.fd = [5,4] ∧
    argvsOf 4 log = executed (readAll commandStatus createClient [str "*1\r\n$4\r\npi",str "ng\r\n"]) := by
  have hlog : (Net.run ⟨initServer none,fun _ => some createClient⟩
      [.readable 4 (.data (str "*1\r\n$4\r\npi")) fun _ => ⟨⟨1,by decide⟩,true⟩,
       .readable 5 (.data (str "*1\r\n$4\r\nping\r\n")) fun _ => ⟨⟨1,by decide⟩,true⟩,
       .readable 4 (.data (str "ng\r\n")) fun _ => ⟨⟨1,by decide⟩,true⟩]).map
      (fun r => (r.1.isUp,r.2.map Served.fd)) = some (true,[5,4]) := by decide +kernel
  obtain ⟨⟨st,log⟩,hrun,he⟩ := Option.map_eq_some_iff.mp hlog
  obtain ⟨hup,hfds⟩ := Prod.mk.inj he
  cases st with
  | exited => cases hup
  | aborted => cases hup
  | up n' =>
    obtain ⟨-,hown⟩ := interleaving_is_serial _ _ _ _ hrun
    exact ⟨n',log,hrun,hfds,(hown 4 createClient rfl (by simp [NetEvent.Spares]) n' rfl).1⟩

end Tadpole
