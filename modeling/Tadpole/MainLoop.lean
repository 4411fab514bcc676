import Tadpole.EventLoop
import Tadpole.Interleaving

/-! The server process: the event loop, the file events of its descriptors and the clients they point to. Each
call of a handler is one event of the connections, none finds its client freed. -/
namespace Tadpole

inductive FileProc
  | acceptTcpHandler | readQueryFromClient
  deriving DecidableEq

inductive Accept
  | connection | wouldBlock | error
  deriving DecidableEq

/-- What the system calls of one handler give: `accept`, `epoll_ctl`, `read`, and what its commands draw. -/
structure Chance where
  accept : Accept
  granted : Bool
  arrival : Arrival
  draws : ℕ → Draw

/-- A client and its descriptor, if it has one. -/
structure Conn where
  fd : Option ℕ
  client : Client

inductive Ending
  | exited | aborted | undefined
  deriving DecidableEq

/-- The process with the blocks `zmalloc` has given, of which the next is at `next`, and with the descriptors
that are open. The calls of handlers and the commands are noted. -/
structure Process where
  el : AeEventLoop FileProc ℕ
  sock_fd : ℕ
  server : Server
  heap : ℕ → Option Conn
  next : ℕ
  opened : List ℕ
  calls : List NetEvent
  log : List Served
  ending : Option Ending

/-- The lowest descriptor that is not open. -/
def lowestFree (opened : List ℕ) : ℕ := ((List.range (opened.length+1)).find? fun fd => fd ∉ opened).getD 0

namespace Process

def ends (p : Process) (e : Ending) : Process := {p with ending := some e}

def close (p : Process) (fd : ℕ) : Process :=
  {p with opened := p.opened.filter (· ≠ fd),
          el := {p.el with interest := Function.update p.el.interest fd none}}

def createClient (p : Process) (fd : ℕ) (granted : Bool) : Process × Option ℕ :=
  let c := p.next
  match p.el.aeCreateFileEvent fd AE_READABLE .readQueryFromClient (some c) granted with
  | (el,.AE_ERR) => (close {p with el := el, next := p.next+1} fd,none)
  | (el,.AE_OK) =>
    ({p with el := el, next := p.next+1,
             heap := Function.update p.heap c (some ⟨some fd,Tadpole.createClient⟩)},some c)

/-- `createClient(-1)` gives a client that nothing points to. -/
def createUnconnected (p : Process) : Process :=
  {p with next := p.next+1, heap := Function.update p.heap p.next (some ⟨none,Tadpole.createClient⟩)}

def acceptCommonHandler (p : Process) (fd : ℕ) (granted : Bool) : Process :=
  match p.createClient fd granted with
  | (p,none) => p.close fd
  | (p,some _) => {p with calls := p.calls++[.accept fd]}

/-- With EWOULDBLOCK the handler goes on with the descriptor -1. -/
def acceptTcpHandler (p : Process) (chance : Chance) : Process :=
  match chance.accept with
  | .error => p
  | .wouldBlock => p.createUnconnected
  | .connection =>
    let fd := lowestFree p.opened
    acceptCommonHandler {p with opened := fd::p.opened} fd chance.granted

def freeClient (p : Process) (c : ℕ) : Process :=
  match p.heap c with
  | none => p.ends .undefined
  | some conn =>
    let p := match conn.fd with
      | none => p
      | some fd =>
        close {p with el := (p.el.aeDeleteFileEvent fd AE_READABLE).aeDeleteFileEvent fd AE_WRITABLE} fd
    {p with heap := Function.update p.heap c none}

def readQueryFromClient (p : Process) (fd : ℕ) (privdata : Option ℕ) (chance : Chance) : Process :=
  match privdata with
  | none => p.ends .undefined
  | some c =>
    match p.heap c with
    | none => p.ends .undefined
    | some conn =>
      let arrival := if fd ∈ p.opened then chance.arrival else .gone
      let p := {p with calls := p.calls++[.readable fd arrival chance.draws]}
      match arrival with
      | .again => p
      | .gone => p.freeClient c
      | .data chunk =>
        let (es,r) := Tadpole.readQueryFromClient commandStatus conn.client chunk
        match serve fd p.server chance.draws (es.map Event.argv) with
        | none => p.ends .undefined
        | some (s,log) =>
          let p := {p with server := s, log := p.log++log}
          match r with
          | .idle client => {p with heap := Function.update p.heap c (some ⟨conn.fd,client⟩)}
          | .exit => p.ends .exited
          | .abort => p.ends .aborted
          -- the allocator stops the process at the invalid pointer
          | .badFree => p.ends .aborted
          | .undefined => p.ends .undefined

def callProc (p : Process) (proc : Option FileProc) (fd : ℕ) (clientData : Option ℕ) (chance : Chance) : Process :=
  match proc with
  | none => p.ends .undefined
  | some .acceptTcpHandler => p.acceptTcpHandler chance
  | some .readQueryFromClient => p.readQueryFromClient fd clientData chance

/-- One round of the loop over `fired`; the slot is looked at again for the second handler. -/
def fire (p : Process) (f : ℕ × EpollEvents × Chance) : Process :=
  if p.ending.isSome then p
  else if f.1 ≥ p.el.setsize then p.ends .undefined
  else
    let mask := firedMask f.2.1
    let fe := p.el.events f.1
    let rfired := fe.mask &&& mask &&& AE_READABLE ≠ AE_NONE
    let p := if rfired then p.callProc fe.rfileProc f.1 fe.clientData f.2.2 else p
    if p.ending.isSome then p
    else
      let fe := p.el.events f.1
      if fe.mask &&& mask &&& AE_WRITABLE ≠ AE_NONE ∧ (¬ rfired ∨ fe.wfileProc ≠ fe.rfileProc) then
        p.callProc fe.wfileProc f.1 fe.clientData f.2.2
      else p

/-- `aeProcessEvents` with AE_ALL_EVENTS and no timer. -/
def aeProcessEvents (p : Process) (ready : List (ℕ × EpollEvents × Chance)) : Process :=
  if p.ending.isSome then p
  else (epoll_wait p.el.interest p.el.setsize ready).foldl fire p

/-- Nothing sets `stop`. -/
def aeMain (p : Process) (rounds : List (List (ℕ × EpollEvents × Chance))) : Process :=
  rounds.foldl aeProcessEvents p

/-- `initDb`, with the store as it was loaded. -/
def initDb (server : Server) (sock_fd : ℕ) (opened : List ℕ) : Process where
  el := ((AeEventLoop.aeCreateEventLoop 1024).aeCreateFileEvent sock_fd AE_READABLE .acceptTcpHandler none true).1
  sock_fd := sock_fd
  server := server
  heap := fun _ => none
  next := 0
  opened := opened
  calls := []
  log := []
  ending := none

def clientOf (p : Process) (fd : ℕ) : Option Client :=
  if fd = p.sock_fd ∨ p.el.aeGetFileEvents fd = AE_NONE then none
  else ((p.el.events fd).clientData.bind p.heap).map Conn.client

def outcome (p : Process) : Option (NetState × List Served) :=
  match p.ending with
  | none => some (.up ⟨p.server,p.clientOf⟩,p.log)
  | some .exited => some (.exited,p.log)
  | some .aborted => some (.aborted,p.log)
  | some .undefined => none

end Process

theorem lowestFree_notMem (opened : List ℕ) : lowestFree opened ∉ opened := by
  rw [lowestFree]
  cases h : (List.range (opened.length+1)).find? fun fd => fd ∉ opened with
  | none =>
    -- more descriptors than are open
    have hall : List.range (opened.length+1) ⊆ opened := fun fd hfd => by
      simpa using List.find?_eq_none.mp h fd hfd
    have hlen := (List.nodup_range.subperm hall).length_le
    rw [List.length_range] at hlen
    omega
  | some fd => simpa using List.find?_some h

theorem Net.run_snoc {n n' : Net} {es : List NetEvent} {log : List Served} (h : n.run es = some (.up n',log))
    (e : NetEvent) : n.run (es++[e]) = (n'.step e).map fun r => (r.1,log++r.2) := by
  induction es generalizing n log with
  | nil =>
    obtain ⟨hn,rfl⟩ := Prod.mk.inj (Option.some.inj h)
    obtain rfl := NetState.up.inj hn
    rw [List.nil_append,Net.run]
    cases n.step e with
    | none => rfl
    | some r =>
      obtain ⟨st,log'⟩ := r
      cases st <;> simp [Net.run]
  | cons e' es ih =>
    rw [List.cons_append,Net.run]
    rw [Net.run] at h
    cases hstep : n.step e' with
    | none =>
      rw [hstep] at h
      cases h
    | some r =>
      obtain ⟨st,log₁⟩ := r
      rw [hstep] at h
      cases st with
      | up n₁ =>
        obtain ⟨⟨st₂,log₂⟩,hrest,he⟩ := Option.map_eq_some_iff.mp h
        obtain ⟨rfl,rfl⟩ := Prod.mk.inj he
        simp only [ih hrest,Option.map_map]
        congr 1
        funext r
        simp
      | exited => cases h
      | aborted => cases h

/-- Descriptors are accepted that have no client, and read that have one. -/
def NetEvent.ProperAt (n : Net) : NetEvent → Prop
  | accept fd => n.clients fd = none
  | readable fd _ _ => n.clients fd ≠ none

def Net.Proper (n : Net) : List NetEvent → Prop
  | [] => True
  | e::es => e.ProperAt n ∧ ∀ n' log, n.step e = some (.up n',log) → n'.Proper es

theorem Net.Proper.snoc {n n' : Net} {es : List NetEvent} (h : n.Proper es) {log : List Served}
    (hrun : n.run es = some (.up n',log)) {e : NetEvent} (he : e.ProperAt n') : n.Proper (es++[e]) := by
  induction es generalizing n log with
  | nil =>
    obtain ⟨hn,-⟩ := Prod.mk.inj (Option.some.inj hrun)
    obtain rfl := NetState.up.inj hn
    exact ⟨he,fun _ _ _ => trivial⟩
  | cons e' es ih =>
    refine ⟨h.1,fun n₁ log₁ hstep => ?_⟩
    rw [Net.run,hstep] at hrun
    obtain ⟨⟨st₂,log₂⟩,hrest,he'⟩ := Option.map_eq_some_iff.mp hrun
    obtain ⟨rfl,-⟩ := Prod.mk.inj he'
    exact ih (h.2 n₁ log₁ hstep) hrest

namespace Process

/-- The event of a connection: it reads, and points to the client. -/
structure Serves (p : Process) (fd : ℕ) (c : Client) (a : ℕ) : Prop where
  slot : fd < p.el.setsize
  mask : (p.el.events fd).mask = AE_READABLE
  proc : (p.el.events fd).rfileProc = some .readQueryFromClient
  data : (p.el.events fd).clientData = some a
  heap : p.heap a = some ⟨some fd,c⟩
  isOpen : fd ∈ p.opened

/-- The listening descriptor and those with a client are registered, and no others. -/
structure Runs (p : Process) (n : Net) : Prop where
  server : n.server = p.server
  sound : p.el.Sound
  sock : p.sock_fd < p.el.setsize ∧ (p.el.events p.sock_fd).mask = AE_READABLE ∧
    (p.el.events p.sock_fd).rfileProc = some .acceptTcpHandler ∧ p.sock_fd ∈ p.opened
  listens : n.clients p.sock_fd = none
  client : ∀ fd c, n.clients fd = some c → ∃ a, p.Serves fd c a
  other : ∀ fd, fd < p.el.setsize → fd ≠ p.sock_fd → n.clients fd = none → (p.el.events fd).mask = AE_NONE
  fresh : ∀ a, p.next ≤ a → p.heap a = none

theorem Runs.clientOf_eq {p : Process} {n : Net} (h : p.Runs n) : p.clientOf = n.clients := by
  funext fd
  rw [clientOf]
  cases hc : n.clients fd with
  | none =>
    rw [if_pos]
    by_cases hsock : fd = p.sock_fd
    · exact Or.inl hsock
    · right
      rw [AeEventLoop.aeGetFileEvents]
      split_ifs with hfd
      · rfl
      · exact h.other fd (by omega) hsock hc
  | some c =>
    obtain ⟨a,ha⟩ := h.client fd c hc
    have hne : fd ≠ p.sock_fd := by
      rintro rfl
      rw [h.listens] at hc
      cases hc
    rw [if_neg,ha.data,Option.bind_some,ha.heap]
    · rfl
    · rw [AeEventLoop.aeGetFileEvents_eq ha.slot,ha.mask]
      simp [hne]

theorem Runs.unregistered {p : Process} {n : Net} (h : p.Runs n) {fd : ℕ} (hfd : fd ∉ p.opened) :
    fd ≠ p.sock_fd ∧ n.clients fd = none ∧ p.el.aeGetFileEvents fd = AE_NONE := by
  have hsock : fd ≠ p.sock_fd := by
    rintro rfl
    exact hfd h.sock.2.2.2
  have hnone : n.clients fd = none := by
    cases hc : n.clients fd with
    | none => rfl
    | some c =>
      obtain ⟨a,ha⟩ := h.client fd c hc
      exact absurd ha.isOpen hfd
  refine ⟨hsock,hnone,?_⟩
  rw [AeEventLoop.aeGetFileEvents]
  split_ifs with hlt
  · rfl
  · exact h.other fd (by omega) hsock hnone

theorem close_opened {p : Process} {fd : ℕ} (hfd : fd ∉ p.opened) (hwatch : p.el.interest fd = none) :
    close {p with opened := fd::p.opened} fd = p ∧ p.close fd = p := by
  have hinterest : Function.update p.el.interest fd none = p.el.interest := by
    rw [Function.update_eq_self_iff,hwatch]
  have hopened : p.opened.filter (fun x => !decide (x = fd)) = p.opened := by
    rw [List.filter_eq_self]
    intro x hx
    have : x ≠ fd := by
      rintro rfl
      exact hfd hx
    simpa using this
  constructor
  · simp [close,hinterest,hopened]
  · simp [close,hinterest,hopened]

theorem Serves.keep {p p' : Process} {fd : ℕ} {c : Client} {a : ℕ} (h : p.Serves fd c a)
    (hsize : p'.el.setsize = p.el.setsize) (hevent : p'.el.events fd = p.el.events fd) (hheap : p'.heap a = p.heap a)
    (hopen : fd ∈ p'.opened) : p'.Serves fd c a where
  slot := hsize ▸ h.slot
  mask := hevent ▸ h.mask
  proc := hevent ▸ h.proc
  data := hevent ▸ h.data
  heap := hheap ▸ h.heap
  isOpen := hopen

theorem Runs.setClient_listens {p : Process} {n : Net} (h : p.Runs n) {fd : ℕ} (hfd : fd ≠ p.sock_fd)
    (c : Option Client) : (n.setClient fd c).clients p.sock_fd = none :=
  (n.setClient_other hfd c).trans h.listens

/-- A descriptor that was not open is accepted: either its client is set up, or everything is as before. -/
theorem Runs.connect {p : Process} {n : Net} (h : p.Runs n) {fd : ℕ} (hfd : fd ∉ p.opened) (granted : Bool) :
    (∃ next, acceptCommonHandler {p with opened := fd::p.opened} fd granted = {p with next := next} ∧ p.next ≤ next) ∨
    ((acceptCommonHandler {p with opened := fd::p.opened} fd granted).Runs (n.setClient fd (some Tadpole.createClient)) ∧
      (acceptCommonHandler {p with opened := fd::p.opened} fd granted).calls = p.calls++[.accept fd] ∧
      (acceptCommonHandler {p with opened := fd::p.opened} fd granted).log = p.log ∧
      (acceptCommonHandler {p with opened := fd::p.opened} fd granted).ending = p.ending ∧
      (acceptCommonHandler {p with opened := fd::p.opened} fd granted).el.setsize = p.el.setsize) := by
  obtain ⟨hsock,hnone,hget⟩ := h.unregistered hfd
  have hwatch : p.el.interest fd = none := by rw [h.sound.watched,if_pos hget]
  have hcreate := @AeEventLoop.Sound.create _ _ _ h.sound fd AE_READABLE (by decide) .readQueryFromClient (some p.next) granted
  rcases hres : p.el.aeCreateFileEvent fd AE_READABLE .readQueryFromClient (some p.next) granted with ⟨el,st⟩
  rw [hres] at hcreate
  rcases hcreate with ⟨hlt,-,hst,hset,hdata,hproc⟩ | ⟨-,herr⟩
  · right
    obtain rfl : st = .AE_OK := hst
    have hmask : (p.el.events fd).mask = AE_NONE := (AeEventLoop.aeGetFileEvents_eq hlt).symm.trans hget
    have hp' : acceptCommonHandler {p with opened := fd::p.opened} fd granted = {p with
        el := el, next := p.next+1, heap := Function.update p.heap p.next (some ⟨some fd,Tadpole.createClient⟩),
        opened := fd::p.opened, calls := p.calls++[.accept fd]} := by
      simp [acceptCommonHandler,createClient,hres]
    rw [hp']
    refine ⟨?_,rfl,rfl,rfl,hset.setsize⟩
    constructor
    · exact h.server
    · exact hset.sound
    · obtain ⟨h₁,h₂,h₃,h₄⟩ := h.sock
      have hother := hset.other p.sock_fd (Ne.symm hsock)
      exact ⟨hset.setsize ▸ h₁,hother ▸ h₂,hother ▸ h₃,List.mem_cons_of_mem _ h₄⟩
    · exact h.setClient_listens hsock _
    · intro fd' c hc
      by_cases hfd' : fd' = fd
      · subst hfd'
        obtain rfl := Option.some.inj ((n.setClient_self fd' _).symm.trans hc)
        refine ⟨p.next,hset.setsize ▸ hlt,?_,hproc (by decide),hdata,Function.update_self _ _ _,List.mem_cons_self⟩
        rw [hset.self,hmask]
        decide
      · obtain ⟨a,ha⟩ := h.client fd' c ((n.setClient_other (Ne.symm hfd') _).symm.trans hc)
        have hne : a ≠ p.next := by
          rintro rfl
          cases (h.fresh p.next (Nat.le_refl _)).symm.trans ha.heap
        exact ⟨a,ha.keep hset.setsize (hset.other fd' hfd') (Function.update_of_ne hne _ _)
          (List.mem_cons_of_mem _ ha.isOpen)⟩
    · intro fd' hlt' hsock' hc
      by_cases hfd' : fd' = fd
      · subst hfd'
        cases (n.setClient_self fd' (some Tadpole.createClient)).symm.trans hc
      · show (el.events fd').mask = AE_NONE
        rw [hset.other fd' hfd']
        exact h.other fd' (hset.setsize ▸ hlt') hsock' ((n.setClient_other (Ne.symm hfd') _).symm.trans hc)
    · intro a ha
      have ha' : p.next+1 ≤ a := ha
      exact (Function.update_of_ne (by omega) _ _).trans (h.fresh a (by omega))
  · left
    obtain ⟨rfl,rfl⟩ := Prod.mk.inj herr
    refine ⟨p.next+1,?_,by omega⟩
    -- the descriptor is closed twice, which changes nothing but itself
    have h₁ := close_opened (p:={p with next := p.next+1}) hfd hwatch
    simp only [acceptCommonHandler,createClient,hres]
    exact (congrArg (fun q => close q fd) h₁.1).trans h₁.2

theorem Runs.note {p : Process} {n : Net} (h : p.Runs n) (calls : List NetEvent) (next : ℕ) (hnext : p.next ≤ next) :
    Runs {p with calls := calls, next := next} n where
  server := h.server
  sound := h.sound
  sock := h.sock
  listens := h.listens
  client := by
    intro fd c hc
    obtain ⟨a,ha⟩ := h.client fd c hc
    exact ⟨a,ha.keep rfl rfl rfl ha.isOpen⟩
  other := h.other
  fresh := fun a ha => h.fresh a (Nat.le_trans hnext ha)

/-- The client is freed behind its events: what is left serves the other connections. -/
theorem Runs.free {p : Process} {n : Net} (h : p.Runs n) {fd a : ℕ} {c : Client} (hc : n.clients fd = some c)
    (ha : p.Serves fd c a) : (p.freeClient a).Runs (n.setClient fd none) ∧ (p.freeClient a).calls = p.calls ∧
      (p.freeClient a).log = p.log ∧ (p.freeClient a).ending = p.ending ∧
      (p.freeClient a).el.setsize = p.el.setsize := by
  have hsock : fd ≠ p.sock_fd := by
    rintro rfl
    cases h.listens.symm.trans hc
  have hset := h.sound.delete ha.slot AE_READABLE
  rw [ha.mask,show AE_READABLE &&& ~~~AE_READABLE = AE_NONE by decide] at hset
  set el := p.el.aeDeleteFileEvent fd AE_READABLE with hel
  have hsecond : el.aeDeleteFileEvent fd AE_WRITABLE = el := by
    rw [AeEventLoop.aeDeleteFileEvent,if_neg (by rw [hset.setsize]; have := ha.slot; omega),if_pos hset.self]
  have hwatch : Function.update el.interest fd none = el.interest := by
    rw [Function.update_eq_self_iff,hset.sound.interest_eq (hset.setsize ▸ ha.slot),if_pos hset.self]
  have hfree : p.freeClient a = {p with
      el := el, opened := p.opened.filter (· ≠ fd), heap := Function.update p.heap a none} := by
    rw [freeClient,ha.heap]
    simp only [close,← hel,hsecond,hwatch]
  rw [hfree]
  refine ⟨?_,rfl,rfl,rfl,hset.setsize⟩
  constructor
  · exact h.server
  · exact hset.sound
  · obtain ⟨h₁,h₂,h₃,h₄⟩ := h.sock
    have hother := hset.other p.sock_fd (Ne.symm hsock)
    exact ⟨hset.setsize ▸ h₁,hother ▸ h₂,hother ▸ h₃,by simpa [h₄] using Ne.symm hsock⟩
  · exact h.setClient_listens hsock _
  · intro fd' c' hc'
    by_cases hfd' : fd' = fd
    · subst hfd'
      cases (n.setClient_self fd' none).symm.trans hc'
    · obtain ⟨a',ha'⟩ := h.client fd' c' ((n.setClient_other (Ne.symm hfd') _).symm.trans hc')
      -- a client has one descriptor
      have hne : a' ≠ a := by
        rintro rfl
        have := ha'.heap.symm.trans ha.heap
        simp only [Option.some.injEq,Conn.mk.injEq] at this
        exact hfd' this.1
      refine ⟨a',ha'.keep hset.setsize (hset.other fd' hfd') (Function.update_of_ne hne _ _) ?_⟩
      simpa [hfd'] using ha'.isOpen
  · intro fd' hlt hsock' hc'
    by_cases hfd' : fd' = fd
    · rw [hfd']
      exact hset.self
    · show (el.events fd').mask = AE_NONE
      rw [hset.other fd' hfd']
      exact h.other fd' (hset.setsize ▸ hlt) hsock' ((n.setClient_other (Ne.symm hfd') _).symm.trans hc')
  · intro a' ha'
    by_cases hne : a' = a
    · rw [hne]
      exact Function.update_self _ _ _
    · exact (Function.update_of_ne hne _ _).trans (h.fresh a' ha')

/-- The client has read, and the store has executed its commands. -/
theorem Runs.received {p : Process} {n : Net} (h : p.Runs n) {fd a : ℕ} {c c' : Client} (hc : n.clients fd = some c)
    (ha : p.Serves fd c a) (s : Server) (log : List Served) :
    Runs {p with server := s, log := log, heap := Function.update p.heap a (some ⟨some fd,c'⟩)}
      (Net.setClient ⟨s,n.clients⟩ fd (some c')) := by
  have hsock : fd ≠ p.sock_fd := by
    rintro rfl
    cases h.listens.symm.trans hc
  constructor
  · rfl
  · exact h.sound
  · exact h.sock
  · exact (Net.setClient_other _ hsock _).trans h.listens
  · intro fd' c₁ hc₁
    by_cases hfd' : fd' = fd
    · subst hfd'
      obtain rfl := Option.some.inj ((Net.setClient_self _ fd' _).symm.trans hc₁)
      exact ⟨a,ha.slot,ha.mask,ha.proc,ha.data,Function.update_self _ _ _,ha.isOpen⟩
    · obtain ⟨a',ha'⟩ := h.client fd' c₁ ((Net.setClient_other _ (Ne.symm hfd') _).symm.trans hc₁)
      have hne : a' ≠ a := by
        rintro rfl
        have := ha'.heap.symm.trans ha.heap
        simp only [Option.some.injEq,Conn.mk.injEq] at this
        exact hfd' this.1
      exact ⟨a',ha'.keep rfl rfl (Function.update_of_ne hne _ _) ha'.isOpen⟩
  · intro fd' hlt hsock' hc'
    by_cases hfd' : fd' = fd
    · subst hfd'
      cases (Net.setClient_self ⟨s,n.clients⟩ fd' (some c')).symm.trans hc'
    · exact h.other fd' hlt hsock' ((Net.setClient_other _ (Ne.symm hfd') _).symm.trans hc')
  · intro a' ha'
    have hne : a' ≠ a := by
      rintro rfl
      cases (h.fresh a' ha').symm.trans ha.heap
    exact (Function.update_of_ne hne _ _).trans (h.fresh a' ha')

/-- The handlers called so far are events of the connections, and the process is where these have come. -/
inductive Follows (n₀ : Net) (size : ℕ) (p : Process) : Prop
  | up {n : Net} (hend : p.ending = none) (hrun : n₀.run p.calls = some (.up n,p.log)) (h : p.Runs n)
    (hproper : n₀.Proper p.calls) (hsize : p.el.setsize = size)
  | ended (hend : p.ending ≠ none) (hrun : n₀.run p.calls = p.outcome) (hproper : n₀.Proper p.calls)

section
variable {n₀ n : Net} {size : ℕ} {p : Process} (hend : p.ending = none) (hrun : n₀.run p.calls = some (.up n,p.log))
  (h : p.Runs n) (hproper : n₀.Proper p.calls) (hsize : p.el.setsize = size)
include hend hrun h hproper hsize

theorem accept_follows (chance : Chance) : Follows n₀ size (p.acceptTcpHandler chance) := by
  rw [acceptTcpHandler]
  cases chance.accept with
  | error => exact .up hend hrun h hproper hsize
  | wouldBlock =>
    refine .up hend hrun ?_ hproper hsize
    refine ⟨h.server,h.sound,h.sock,h.listens,fun fd c hc => ?_,h.other,fun a ha => ?_⟩
    · obtain ⟨a,ha⟩ := h.client fd c hc
      have hne : a ≠ p.next := by
        rintro rfl
        cases (h.fresh p.next (Nat.le_refl _)).symm.trans ha.heap
      exact ⟨a,ha.keep rfl rfl (Function.update_of_ne hne _ _) ha.isOpen⟩
    · have ha' : p.next+1 ≤ a := ha
      exact (Function.update_of_ne (by omega) _ _).trans (h.fresh a (by omega))
  | connection =>
    have hfree := lowestFree_notMem p.opened
    rcases h.connect hfree chance.granted with ⟨next,hp',hnext⟩ | ⟨hruns,hcalls,hlog,hending,hsetsize⟩
    · simp only [hp']
      exact .up hend hrun (h.note p.calls next hnext) hproper hsize
    · have hnone : n.clients (lowestFree p.opened) = none := (h.unregistered hfree).2.1
      refine .up (hending.trans hend) ?_ hruns ?_ (hsetsize.trans hsize)
      · rw [hcalls,hlog,Net.run_snoc hrun]
        simp [Net.step]
      · rw [hcalls]
        exact hproper.snoc hrun hnone

theorem read_follows {fd a : ℕ} {c : Client} (hc : n.clients fd = some c) (ha : p.Serves fd c a) (chance : Chance) :
    Follows n₀ size (p.readQueryFromClient fd (some a) chance) := by
  have hproper' : n₀.Proper (p.calls++[.readable fd chance.arrival chance.draws]) :=
    hproper.snoc hrun (by rw [NetEvent.ProperAt,hc]; simp)
  have hrun' := Net.run_snoc hrun (.readable fd chance.arrival chance.draws)
  rw [Net.step] at hrun'
  simp only [hc] at hrun'
  rw [readQueryFromClient]
  simp only [ha.heap,if_pos ha.isOpen]
  cases harrival : chance.arrival with
  | again =>
    rw [harrival] at hrun' hproper'
    exact .up hend (by simpa using hrun') (h.note _ p.next (Nat.le_refl _)) hproper' hsize
  | gone =>
    rw [harrival] at hrun' hproper'
    have hnoted := h.note (p.calls++[.readable fd .gone chance.draws]) p.next (Nat.le_refl _)
    obtain ⟨hruns,hcalls,hlog,hending,hsetsize⟩ := hnoted.free hc (ha.keep rfl rfl rfl ha.isOpen)
    refine .up (hending.trans hend) ?_ hruns (by rw [hcalls]; exact hproper') (hsetsize.trans hsize)
    rw [hcalls,hlog]
    simpa using hrun'
  | data chunk =>
    rw [harrival] at hrun' hproper'
    simp only [Net.receive,h.server] at hrun'
    dsimp only
    rcases hq : Tadpole.readQueryFromClient commandStatus c chunk with ⟨es,r⟩
    rw [hq] at hrun'
    cases hserve : serve fd p.server chance.draws (es.map Event.argv) with
    | none =>
      simp only [hserve] at hrun' ⊢
      exact .ended (by simp [ends]) hrun' hproper'
    | some res =>
      obtain ⟨s,log⟩ := res
      simp only [hserve] at hrun' ⊢
      cases r with
      | idle c' =>
        refine .up hend hrun' ?_ hproper' hsize
        have hnoted := h.note (p.calls++[.readable fd (.data chunk) chance.draws]) p.next (Nat.le_refl _)
        exact hnoted.received hc (ha.keep rfl rfl rfl ha.isOpen) s (p.log++log)
      | exit => exact .ended (by simp [ends]) hrun' hproper'
      | abort => exact .ended (by simp [ends]) hrun' hproper'
      | badFree => exact .ended (by simp [ends]) hrun' hproper'
      | undefined => exact .ended (by simp [ends]) hrun' hproper'
end

theorem callProc_sock_fd (p : Process) (proc : Option FileProc) (fd : ℕ) (clientData : Option ℕ) (chance : Chance) :
    (p.callProc proc fd clientData chance).sock_fd = p.sock_fd := by
  have hfree : ∀ (q : Process) c, (q.freeClient c).sock_fd = q.sock_fd := by
    intro q c
    rw [freeClient]
    split
    · rfl
    · dsimp only
      split <;> rfl
  have haccept : ∀ (q : Process) fd granted, (q.acceptCommonHandler fd granted).sock_fd = q.sock_fd := by
    intro q fd granted
    rw [acceptCommonHandler,createClient]
    split <;> rename_i h <;> split at h <;> cases h <;> rfl
  unfold callProc
  split
  · rfl
  · rw [acceptTcpHandler]
    split
    · rfl
    · rfl
    · exact haccept _ _ _
  · unfold readQueryFromClient
    split
    · rfl
    · split
      · rfl
      · dsimp only
        split
        · rfl
        · exact hfree _ _
        · split
          · rfl
          · split <;> rfl

theorem fire_sock_fd (p : Process) (f : ℕ × EpollEvents × Chance) : (p.fire f).sock_fd = p.sock_fd := by
  rw [fire]
  dsimp only
  split_ifs <;> simp [callProc_sock_fd,ends]

theorem aeMain_sock_fd (p : Process) (rounds : List (List (ℕ × EpollEvents × Chance))) :
    (p.aeMain rounds).sock_fd = p.sock_fd := by
  have hfires : ∀ (fired : List (ℕ × EpollEvents × Chance)) (q : Process),
      (fired.foldl fire q).sock_fd = q.sock_fd := by
    intro fired
    induction fired with
    | nil => exact fun _ => rfl
    | cons f fired ih => exact fun q => (ih (q.fire f)).trans (q.fire_sock_fd f)
  rw [aeMain]
  induction rounds generalizing p with
  | nil => rfl
  | cons ready rounds ih =>
    refine (ih (p.aeProcessEvents ready)).trans ?_
    rw [aeProcessEvents]
    split_ifs
    · rfl
    · exact hfires _ p

theorem readable_and_writable (mask : Mask) : AE_READABLE &&& mask &&& AE_WRITABLE = AE_NONE := by
  rw [BitVec.and_assoc,BitVec.and_comm mask,← BitVec.and_assoc,show AE_READABLE &&& AE_WRITABLE = AE_NONE by decide]
  exact BitVec.zero_and

theorem Runs.not_writable {p : Process} {n : Net} (h : p.Runs n) {fd : ℕ} (hfd : fd < p.el.setsize) (mask : Mask) :
    (p.el.events fd).mask &&& mask &&& AE_WRITABLE = AE_NONE := by
  by_cases hsock : fd = p.sock_fd
  · rw [hsock,h.sock.2.1,readable_and_writable]
  · cases hc : n.clients fd with
    | none =>
      rw [h.other fd hfd hsock hc]
      simp
    | some c =>
      obtain ⟨a,ha⟩ := h.client fd c hc
      rw [ha.mask,readable_and_writable]

theorem Follows.fire {n₀ : Net} {size : ℕ} {p : Process} (hp : Follows n₀ size p) {f : ℕ × EpollEvents × Chance}
    (hf : f.1 < size) : Follows n₀ size (p.fire f) := by
  rw [Process.fire]
  cases hp with
  | ended hend hrun hproper =>
    rw [if_pos (Option.isSome_iff_ne_none.mpr hend)]
    exact .ended hend hrun hproper
  | @up n hend hrun h hproper hsize =>
    have hfd : f.1 < p.el.setsize := hsize ▸ hf
    rw [if_neg (by rw [hend]; decide),if_neg (by omega)]
    dsimp only
    -- the first of the two handlers
    have hfirst : Follows n₀ size (if (p.el.events f.1).mask &&& firedMask f.2.1 &&& AE_READABLE ≠ AE_NONE then
        p.callProc (p.el.events f.1).rfileProc f.1 (p.el.events f.1).clientData f.2.2 else p) := by
      split_ifs with hfires
      · by_cases hsock : f.1 = p.sock_fd
        · rw [hsock,h.sock.2.2.1]
          exact accept_follows hend hrun h hproper hsize f.2.2
        · cases hc : n.clients f.1 with
          | none =>
            rw [h.other f.1 hfd hsock hc] at hfires
            simp at hfires
          | some c =>
            obtain ⟨a,ha⟩ := h.client f.1 c hc
            rw [ha.proc,ha.data]
            exact read_follows hend hrun h hproper hsize hc ha f.2.2
      · exact .up hend hrun h hproper hsize
    generalize (if (p.el.events f.1).mask &&& firedMask f.2.1 &&& AE_READABLE ≠ AE_NONE then
        p.callProc (p.el.events f.1).rfileProc f.1 (p.el.events f.1).clientData f.2.2 else p) = q at hfirst ⊢
    cases hfirst with
    | ended hend' hrun' hproper' =>
      rw [if_pos (Option.isSome_iff_ne_none.mpr hend')]
      exact .ended hend' hrun' hproper'
    | up hend' hrun' h' hproper' hsize' =>
      rw [if_neg (by rw [hend']; decide),if_neg]
      · exact .up hend' hrun' h' hproper' hsize'
      · exact fun hno => hno.1 (h'.not_writable (hsize' ▸ hf) _)

theorem Follows.foldl_fire {n₀ : Net} {size : ℕ} {fired : List (ℕ × EpollEvents × Chance)} (hfired : ∀ f ∈ fired, f.1 < size)
    {p : Process} (hp : Follows n₀ size p) : Follows n₀ size (fired.foldl Process.fire p) := by
  induction fired generalizing p with
  | nil => exact hp
  | cons f fired ih =>
    exact ih (fun f' hf' => hfired f' (by simp [hf'])) (hp.fire (hfired f (by simp)))

end Process

theorem Process.Runs.watched {p : Process} {n : Net} (h : p.Runs n) (fd : ℕ) : p.el.interest fd =
    if fd = p.sock_fd ∨ (n.clients fd).isSome then some (epollEvents AE_READABLE) else none := by
  by_cases hsock : fd = p.sock_fd
  · rw [if_pos (Or.inl hsock),hsock,h.sound.interest_eq h.sock.1,h.sock.2.1]
    rfl
  · cases hc : n.clients fd with
    | none =>
      rw [if_neg (by simp [hsock]),h.sound.watched,if_pos]
      rw [AeEventLoop.aeGetFileEvents]
      split_ifs with hfd
      · rfl
      · exact h.other fd (by omega) hsock hc
    | some c =>
      obtain ⟨a,ha⟩ := h.client fd c hc
      rw [if_pos (by simp),h.sound.interest_eq ha.slot,ha.mask]
      rfl

theorem mem_epoll_wait {O : Type*} {k : Interest} {max : ℕ} {ready : List (ℕ × EpollEvents × O)}
    {f : ℕ × EpollEvents × O} (h : f ∈ epoll_wait k max ready) : k f.1 ≠ none := by
  rw [epoll_wait] at h
  obtain ⟨r,-,hr⟩ := List.mem_filterMap.mp (List.mem_of_mem_take h)
  obtain ⟨ee,hee,hres⟩ := Option.bind_eq_some_iff.mp hr
  split_ifs at hres
  obtain rfl := Option.some.inj hres
  rw [hee]
  simp

namespace Process

theorem Follows.round {n₀ : Net} {size : ℕ} {p : Process} (hp : Follows n₀ size p)
    (ready : List (ℕ × EpollEvents × Chance)) : Follows n₀ size (p.aeProcessEvents ready) := by
  rw [aeProcessEvents]
  cases hp with
  | ended hend hrun hproper =>
    rw [if_pos (Option.isSome_iff_ne_none.mpr hend)]
    exact .ended hend hrun hproper
  | up hend hrun h hproper hsize =>
    rw [if_neg (by rw [hend]; decide)]
    exact Follows.foldl_fire (fun f hf => hsize ▸ (h.sound.slot (mem_epoll_wait hf)).1) (.up hend hrun h hproper hsize)

theorem Follows.main {n₀ : Net} {size : ℕ} {p : Process} (hp : Follows n₀ size p)
    (rounds : List (List (ℕ × EpollEvents × Chance))) : Follows n₀ size (p.aeMain rounds) := by
  rw [aeMain]
  induction rounds generalizing p with
  | nil => exact hp
  | cons ready rounds ih => exact ih (hp.round ready)

theorem initDb_follows (server : Server) {sock_fd : ℕ} {opened : List ℕ} (hsock : sock_fd < 1024)
    (hopen : sock_fd ∈ opened) :
    Follows ⟨server,fun _ => none⟩ 1024 (initDb server sock_fd opened) := by
  have hnew := AeEventLoop.aeCreateEventLoop_sound (P:=FileProc) (D:=ℕ) 1024
  rcases @AeEventLoop.Sound.create _ _ _ hnew sock_fd AE_READABLE (by decide) .acceptTcpHandler none true with
    ⟨-,-,-,hset,-,hproc⟩ | ⟨hno,-⟩
  · refine .up (n:=⟨server,fun _ => none⟩) rfl rfl ?_ trivial hset.setsize
    refine ⟨rfl,hset.sound,⟨?_,?_,hproc (by decide),hopen⟩,rfl,fun _ _ h => (nomatch h),fun fd _ hne _ => ?_,fun _ _ => rfl⟩
    · exact hset.setsize ▸ hsock
    · exact hset.self.trans (show AE_NONE ||| AE_READABLE = AE_READABLE by decide)
    · exact congrArg AeFileEvent.mask (hset.other fd hne)
  · exact absurd ⟨hsock,rfl⟩ hno

end Process

/-- Whatever the descriptors of the process are ready for, round after round of the event loop: the handlers
are called for connections that exist and with clients that are not freed, and accept descriptors without a
connection; what they do, one after the other, is what the connections see, and a sequential run of the store;
and epoll watches the listening descriptor and those with a client. -/
theorem main_loop_serves (server : Server) (sock_fd : ℕ) (opened : List ℕ)
    (rounds : List (List (ℕ × EpollEvents × Chance))) (hsock : sock_fd < 1024) (hopen : sock_fd ∈ opened) :
    let p := (Process.initDb server sock_fd opened).aeMain rounds
    Net.run ⟨server,fun _ => none⟩ p.calls = p.outcome ∧ Net.Proper ⟨server,fun _ => none⟩ p.calls ∧
      (p.ending ≠ some .undefined → ∃ s, serialRun server (p.log.map Served.command) =
        some (s,p.log.map Served.answer) ∧ (p.ending = none → p.server = s)) ∧
      (p.ending = none → ∀ fd, p.el.interest fd =
        if fd = sock_fd ∨ (p.clientOf fd).isSome then some (epollEvents AE_READABLE) else none) := by
  intro p
  have hfd : p.sock_fd = sock_fd := Process.aeMain_sock_fd _ rounds
  have hserial : Net.run ⟨server,fun _ => none⟩ p.calls = p.outcome → p.ending ≠ some .undefined →
      ∃ s, serialRun server (p.log.map Served.command) = some (s,p.log.map Served.answer) ∧
        (p.ending = none → p.server = s) := by
    intro hrun hdefined
    cases hend : p.ending with
    | none =>
      rw [Process.outcome,hend] at hrun
      obtain ⟨s,hs,hup⟩ := (Net.run_spec _ _ _ _ hrun).1
      exact ⟨s,hs,fun _ => hup _ rfl⟩
    | some e =>
      rw [hend] at hdefined
      rw [Process.outcome,hend] at hrun
      cases e with
      | exited | aborted =>
        obtain ⟨s,hs,-⟩ := (Net.run_spec _ _ _ _ hrun).1
        exact ⟨s,hs,fun h => by cases h⟩
      | undefined => exact absurd rfl hdefined
  cases (Process.initDb_follows server hsock hopen).main rounds with
  | ended hend hrun hproper => exact ⟨hrun,hproper,hserial hrun,fun h => absurd h hend⟩
  | @up n hend hrun h hproper hsize =>
    have hout : p.outcome = some (.up n,p.log) := by
      rw [Process.outcome,hend,h.clientOf_eq,← h.server]
    refine ⟨hrun.trans hout.symm,hproper,hserial (hrun.trans hout.symm),fun _ fd => ?_⟩
    rw [h.clientOf_eq,← hfd]
    exact h.watched fd

/-- A connection that is accepted, asks, and goes while two events of it are reported. -/
theorem main_loop_serves_ping :
    let chance : Arrival → Chance := fun arrival => ⟨.connection,true,arrival,fun _ => ⟨⟨1,by decide⟩,true⟩⟩
    let p := (Process.initDb (initServer none) 4 [0,1,2,3,4]).aeMain
      [[(4,⟨true,false,false,false⟩,chance .again)],
        [(5,⟨true,false,false,false⟩,chance (.data (str "*1\r\n$4\r\nping\r\n")))],
        [(5,⟨true,false,false,true⟩,chance .gone),(5,⟨true,true,false,false⟩,chance .gone)]]
    Net.run ⟨initServer none,fun _ => none⟩ p.calls = p.outcome ∧ p.log.map Served.argv = [[str "ping"]] ∧
      p.opened = [0,1,2,3,4] ∧ p.calls.length = 3 :=
  ⟨(main_loop_serves (initServer none) 4 [0,1,2,3,4] _ (by decide) (by decide)).1,by decide +kernel,
    by decide +kernel,by decide +kernel⟩

end Tadpole
