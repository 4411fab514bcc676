import Tadpole.ClientReplies
import Tadpole.HiredisClient

/-! Clients of the bundled library and the server, with the bytes that are on their way between them. However the steps
of the two sides interleave, each client is handed the answers of one map to its own commands, in their order. -/
namespace Tadpole

/-- Where a client stands: in its program, in one of the two loops of `redisGetReply`, or behind a call that failed. -/
inductive Phase
  | idle | writing | reading | failed
  deriving DecidableEq

/-- A client with the commands it has appended and the replies it was handed, and the bytes on their way to the server and
back. The sockets take the replies of the server in full. -/
structure Peer where
  context : RedisContext
  phase : Phase
  replies : List RedisReply
  sent : List (List Bytes)
  up : Bytes
  down : Bytes

def newPeer : Peer := ⟨redisContextInit,.idle,[],[],[],[]⟩

namespace Peer

/-- The program appends a command while it has room in an `int` for it. -/
def append (k : Peer) (argv : List Bytes) : Option Peer :=
  if k.phase = .idle ∧ k.context.obuf.length+(encodeRequest argv).length < 2147483648 then
    match k.context.redisAppendCommandArgv argv true with
    | none => none
    | some (context,true) => some {k with context, sent := k.sent++[argv]}
    | some (context,false) => some {k with context, phase := .failed}
  else some k

/-- Inside of `redisGetReply` a reply is handed over, or it goes on to the next loop. -/
def poll (k : Peer) (next : Phase) : Option Peer :=
  match k.context.redisGetReplyFromReader with
  | none => none
  | some (context,none) => some {k with context, phase := .failed}
  | some (context,some none) => some {k with context, phase := next}
  | some (context,some (some reply)) => some {k with context, phase := .idle, replies := k.replies++[reply]}

/-- `redisGetReply` is called. -/
def getReply (k : Peer) : Option Peer := if k.phase = .idle then k.poll .writing else some k

def write (k : Peer) (n : ℕ) : Peer :=
  if k.phase = .writing then
    match k.context.redisBufferWrite (.done n) with
    | (context,none) => {k with context, phase := .failed}
    | (context,some done) =>
      {k with context, phase := if done then .reading else .writing, up := k.up++k.context.obuf.take (taken n k.context.obuf)}
  else k

/-- A round of its second loop, when the socket gives so many bytes; without any the client waits. -/
def read (k : Peer) (n : ℕ) : Option Peer :=
  if k.phase = .reading then
    let chunk := k.down.take (min n 16384)
    if chunk = [] then some k
    else
      match k.context.redisBufferRead (.done chunk) with
      | (context,true) => Peer.poll {k with context, down := k.down.drop chunk.length} .reading
      | (context,false) => some {k with context, phase := .failed}
  else some k

end Peer

structure System where
  net : Net
  log : List Served
  peers : ℕ → Peer

/-- A step of one side; `serve` is a read of the server that gives so many bytes. -/
inductive Move
  | append (fd : ℕ) (argv : List Bytes)
  | getReply (fd : ℕ)
  | write (fd n : ℕ)
  | read (fd n : ℕ)
  | serve (fd n : ℕ) (draws : ℕ → Draw)

namespace System

def setPeer (σ : System) (fd : ℕ) (k : Peer) : System := {σ with peers := Function.update σ.peers fd k}

def arrival (chunk : Bytes) : Arrival := if chunk = [] then .again else .data chunk

def serve (σ : System) (fd n : ℕ) (draws : ℕ → Draw) : Option System :=
  let k := σ.peers fd
  let chunk := k.up.take (min n PROTO_IOBUF_LEN)
  match σ.net.step (.readable fd (arrival chunk) draws) with
  | some (.up net,log) =>
    some (setPeer ⟨net,σ.log++log,σ.peers⟩ fd
      {k with up := k.up.drop chunk.length, down := k.down++log.flatMap fun e => e.out.bytes})
  | _ => none

def step (σ : System) : Move → Option System
  | .append fd argv => ((σ.peers fd).append argv).map (σ.setPeer fd)
  | .getReply fd => (σ.peers fd).getReply.map (σ.setPeer fd)
  | .write fd n => some (σ.setPeer fd ((σ.peers fd).write n))
  | .read fd n => ((σ.peers fd).read n).map (σ.setPeer fd)
  | .serve fd n draws => σ.serve fd n draws

def run (σ : System) : List Move → Option System
  | [] => some σ
  | m::ms => (σ.step m).bind fun σ => σ.run ms

end System

def freshSystem (fl : FixedLength) (fds : List ℕ) : System := ⟨acceptedNet fl fds,[],fun _ => newPeer⟩

def Move.request (fd : ℕ) : Move → Option (List Bytes)
  | append fd' argv => if fd' = fd then some argv else none
  | _ => none

def requests (ms : List Move) (fd : ℕ) : List (List Bytes) := ms.filterMap (Move.request fd)

/-- The move is one of these clients, or of the server with memory for its commands. -/
def Move.Of (fds : List ℕ) : Move → Prop
  | append fd _ => fd ∈ fds
  | getReply fd => fd ∈ fds
  | write fd _ => fd ∈ fds
  | read fd _ => fd ∈ fds
  | serve fd _ draws => fd ∈ fds ∧ ∀ i, (draws i).malloc = true

/-- The answers of the map to the commands in the order of their execution, those of one descriptor. -/
def answersOf (fl : FixedLength) (fd : ℕ) (log : List Served) : List Reply :=
  ((log.zip (Simulation.follow (refCommand fl) OrderedMap.empty (log.map Served.argv)).2).filter
    fun a => a.1.fd = fd).map Prod.snd

/-- The requests of all clients: the parser wants them, none ends a connection or the server, no key that is put has a
carriage return, and the lines of every SCAN fit. -/
structure Pipelined (fl : FixedLength) (fds : List ℕ) (sent : ℕ → List (List Bytes)) : Prop where
  wellFormed : ∀ fd ∈ fds, ∀ r ∈ sent fd, WellFormedRequest r
  stays : ∀ fd ∈ fds, ∀ r ∈ sent fd, resolve r ≠ some .quit ∧ resolve r ≠ some .shutdown
  keys : ∀ fd ∈ fds, ∀ r ∈ sent fd, ∀ key value, resolve r = some (.call (.put key value)) → CR ∉ key
  lines : ∀ fd ∈ fds, ∀ r ∈ sent fd, ∀ c, resolve r = some (.call c) → ∀ M : KeyMap,
    (∀ e ∈ M.entries, PutBySome fds sent e.1) → LinesFit fl M c

theorem LinesFit.scanFits {fl : FixedLength} {M : KeyMap} {c : Call} (h : LinesFit fl M c) : ScanFits fl M c := by
  cases c with
  | scan start stop => exact fun h₁ h₂ => (h h₁ h₂).trans_lt (by decide)
  | _ => trivial

theorem PutBySome.mono {fds : List ℕ} {sent sent' : ℕ → List (List Bytes)}
    (hsub : ∀ fd ∈ fds, ∀ r ∈ sent' fd, r ∈ sent fd) {key : Bytes} (h : PutBySome fds sent' key) :
    PutBySome fds sent key := by
  obtain ⟨fd,hfd,r,hr,hput⟩ := h
  exact ⟨fd,hfd,r,hsub fd hfd r hr,hput⟩

theorem Pipelined.traffic {fl : FixedLength} {fds : List ℕ} {sent sent' : ℕ → List (List Bytes)}
    (h : Pipelined fl fds sent) (hsub : ∀ fd ∈ fds, ∀ r ∈ sent' fd, r ∈ sent fd) : Traffic fl fds sent' where
  wellFormed := fun fd hfd r hr => h.wellFormed fd hfd r (hsub fd hfd r hr)
  stays := fun fd hfd r hr => h.stays fd hfd r (hsub fd hfd r hr)
  scans := fun fd hfd r hr c hc M hM =>
    (h.lines fd hfd r (hsub fd hfd r hr) c hc M fun e he => (hM e he).mono hsub).scanFits

/-- The stack and the bytes that are to come hold these replies, of which the first may be taken in part. -/
def Unread (S : List ReadTask) (s : Bytes) : List RedisReply → Prop
  | [] => S = [RedisReader.rootTask] ∧ s = []
  | v::vs => ∃ x, s = x++encodeAll vs ∧ Incremental.Reads attempt S x [] (some v) ∧ x.length ≤ v.encode.length

def Awaits (p down : Bytes) : List RedisReply → Prop
  | [] => p = []
  | _::vs => (encodeAll vs).length < down.length

theorem encodeAll_append (vs ws : List RedisReply) : encodeAll (vs++ws) = encodeAll vs++encodeAll ws := by
  induction vs with
  | nil => rfl
  | cons v vs ih => rw [List.cons_append,encodeAll,encodeAll,ih,List.append_assoc]

theorem RedisReply.encode_pos (v : RedisReply) : 0 < v.encode.length := by
  have := encodeAll_length [v]
  simp only [encodeAll,List.append_nil,List.length_singleton] at this
  omega

theorem unread_root {vs : List RedisReply} (hvs : ∀ v ∈ vs, v.Fits 8 ∧ v.Short) :
    Unread [RedisReader.rootTask] (encodeAll vs) vs := by
  cases vs with
  | nil => exact ⟨rfl,rfl⟩
  | cons v vs =>
    obtain ⟨hfits,hshort⟩ := hvs v (by simp)
    rw [RedisReply.Short] at hshort
    exact ⟨v.encode,rfl,v.reads rfl hfits (by simp) (by omega) rfl,le_rfl⟩

section
variable {S : List ReadTask} {s p down : Bytes} {vs ws : List RedisReply}

theorem Unread.append (h : Unread S s vs) (hws : ∀ w ∈ ws, w.Fits 8 ∧ w.Short) : Unread S (s++encodeAll ws) (vs++ws) := by
  cases vs with
  | nil =>
    obtain ⟨rfl,rfl⟩ := h
    exact unread_root hws
  | cons v vs =>
    obtain ⟨x,rfl,hreads,hle⟩ := h
    exact ⟨x,by rw [List.append_assoc,← encodeAll_append]; rfl,hreads,hle⟩

theorem Awaits.append (h : Awaits p down vs) (hdown : vs = [] → down = []) :
    Awaits p (down++encodeAll ws) (vs++ws) := by
  cases vs with
  | nil =>
    cases ws with
    | nil => exact h
    | cons w ws =>
      have hpos := w.encode_pos
      rw [hdown rfl]
      simp only [Awaits,List.nil_append,encodeAll,List.length_append]
      omega
  | cons v vs =>
    simp only [Awaits,List.cons_append,encodeAll_append,List.length_append] at h ⊢
    omega

/-- What `redisReaderGetReply` makes of the bytes that are there: it waits, or it hands the first reply over. -/
theorem Unread.poll {r : RedisReader} (h : r.Holds S p) (hu : Unread S (p++down) vs) (hvs : ∀ v ∈ vs, v.Fits 8 ∧ v.Short)
    (hp : p.length+(encodeAll vs.tail).length ≤ (p++down).length+16384) :
    (∃ r' S' p', r.getReply = some (r',.ok none) ∧ r'.Holds S' p' ∧ Unread S' (p'++down) vs ∧ Awaits p' down vs) ∨
    ∃ r' p' v vs', vs = v::vs' ∧ r.getReply = some (r',.ok (some v)) ∧ r'.Holds [RedisReader.rootTask] p' ∧
      Unread [RedisReader.rootTask] (p'++down) vs' ∧ p'.length ≤ 16384 := by
  cases vs with
  | nil =>
    obtain ⟨rfl,hs⟩ := hu
    obtain ⟨rfl,rfl⟩ := List.append_eq_nil_iff.mp hs
    obtain ⟨r',hget,hr'⟩ := h.getReply (by decide) rfl
    exact Or.inl ⟨r',_,[],hget,hr',⟨rfl,rfl⟩,rfl⟩
  | cons v vs =>
    obtain ⟨x,hx,hreads,hle⟩ := hu
    have hshort := (hvs v (by simp)).2
    rw [RedisReply.Short] at hshort
    rw [List.tail_cons,hx,List.length_append] at hp
    by_cases hfull : x.length ≤ p.length
    · obtain ⟨t,rfl⟩ : x <+: p := List.prefix_of_prefix_length_le ⟨_,hx.symm⟩ ⟨down,rfl⟩ hfull
      rw [List.append_assoc,List.append_right_inj] at hx
      rw [List.length_append] at hp
      obtain ⟨r',hget,hr'⟩ := h.getReply_full hreads (by rw [List.length_append]; omega)
      refine Or.inr ⟨r',t,v,vs,rfl,hget,hr',?_,by omega⟩
      rw [hx]
      exact unread_root fun w hw => hvs w (by simp [hw])
    · obtain ⟨q,rfl⟩ : p <+: x := List.prefix_of_prefix_length_le ⟨down,rfl⟩ ⟨_,hx.symm⟩ (by omega)
      have hq : q ≠ [] := by
        rintro rfl
        simp at hfull
      obtain ⟨r',S',p',hget,hr',hle',hrest⟩ := h.getReply_cut hreads hq (by omega)
      rw [List.append_assoc,List.append_right_inj] at hx
      rw [List.length_append] at hle
      refine Or.inl ⟨r',S',p',hget,hr',⟨p'++q,by rw [hx,List.append_assoc],hrest,?_⟩,?_⟩
      · rw [List.length_append]
        omega
      · rw [Awaits,hx,List.length_append]
        have := List.length_pos_of_ne_nil hq
        omega

end

def Valued (r : Reply) (v : RedisReply) : Prop := Says r v ∧ v.Fits 8 ∧ v.Short

/-- The client is no worse for its output: what the server has read of it, `got`, with what is on its way and what is not
written yet, is its commands. -/
structure Peer.Sends (k : Peer) (got : List Bytes) (asked : List (List Bytes)) : Prop where
  err : k.context.err = none
  room : k.context.obuf.length < 2147483648
  stream : got.flatten++(k.up++k.context.obuf) = encodeRequests k.sent
  sent : ∀ r ∈ k.sent, r ∈ asked

/-- The answers that it was not handed yet are what its reader and the bytes on their way back hold. -/
structure Peer.Follows (k : Peer) (got : List Bytes) (answers : List Reply) (asked : List (List Bytes)) : Prop
    extends k.Sends got asked where
  phase : k.phase ≠ .failed
  replies : ∃ vs S p, List.Forall₂ Valued answers (k.replies++vs) ∧ k.context.reader.Holds S p ∧
    Unread S (p++k.down) vs ∧ if k.phase = .idle then p.length ≤ 16384 else Awaits p k.down vs

theorem valued_fits {answers : List Reply} {vs : List RedisReply} (h : List.Forall₂ Valued answers vs) :
    ∀ v ∈ vs, v.Fits 8 ∧ v.Short := by
  induction h with
  | nil => simp
  | cons hv _ ih => exact List.forall_mem_cons.mpr ⟨hv.2,ih⟩

section
variable {k : Peer} {got : List Bytes} {answers : List Reply} {asked : List (List Bytes)}

theorem newPeer_follows (asked : List (List Bytes)) : newPeer.Follows [] [] asked where
  err := rfl
  room := by decide
  stream := rfl
  sent := by simp [newPeer]
  phase := by decide
  replies := ⟨[],_,[],.nil,RedisReader.redisReaderCreate_holds,⟨rfl,rfl⟩,Nat.zero_le _⟩

theorem Peer.Follows.append (h : k.Follows got answers asked) {argv : List Bytes} (hargv : argv ∈ asked) :
    ∃ k', k.append argv = some k' ∧ k'.Follows got answers asked := by
  rw [Peer.append]
  split_ifs with hroom
  · obtain ⟨hidle,hlen⟩ := hroom
    have hcmd : k.context.redisAppendCommandArgv argv true =
        some ({k.context with obuf := k.context.obuf++encodeRequest argv},true) := by
      rw [RedisContext.redisAppendCommandArgv,redisFormatCommandArgv_eq,if_pos (by omega)]
    rw [hcmd]
    refine ⟨_,rfl,⟨h.err,?_,?_,?_⟩,h.phase,h.replies⟩
    · rw [List.length_append]
      exact hlen
    · have hstream := h.stream
      simp only [encodeRequests,List.flatMap_append,List.flatMap_cons,List.flatMap_nil,List.append_nil] at hstream ⊢
      rw [← hstream]
      simp only [List.append_assoc]
    · intro r hr
      rcases List.mem_append.mp hr with hr | hr
      · exact h.sent r hr
      · rwa [List.mem_singleton.mp hr]
  · exact ⟨k,rfl,h⟩

theorem Peer.Sends.poll (h : k.Sends got asked) {next : Phase} (hnext : next ≠ .idle ∧ next ≠ .failed)
    {vs : List RedisReply} {S : List ReadTask} {p : Bytes} (hv : List.Forall₂ Valued answers (k.replies++vs))
    (hr : k.context.reader.Holds S p) (hu : Unread S (p++k.down) vs)
    (hp : p.length+(encodeAll vs.tail).length ≤ (p++k.down).length+16384) :
    ∃ k', k.poll next = some k' ∧ k'.Follows got answers asked := by
  rcases hu.poll hr (fun v hmem => valued_fits hv v (by simp [hmem])) hp with ⟨r',S',p',hget,hr',hu',hwait⟩ | ⟨r',p',v,vs',rfl,hget,hr',hu',hp'⟩
  · refine ⟨{k with context := {k.context with reader := r'}, phase := next},?_,⟨h.err,h.room,h.stream,h.sent⟩,
      hnext.2,vs,S',p',hv,hr',hu',?_⟩
    · rw [Peer.poll,RedisContext.redisGetReplyFromReader,hget]
    · rw [if_neg hnext.1]
      exact hwait
  · refine ⟨{k with context := {k.context with reader := r'}, phase := .idle, replies := k.replies++[v]},?_,
      ⟨h.err,h.room,h.stream,h.sent⟩,(by decide : Phase.idle ≠ .failed),vs',_,p',?_,hr',hu',?_⟩
    · rw [Peer.poll,RedisContext.redisGetReplyFromReader,hget]
    · rwa [List.append_assoc]
    · rw [if_pos rfl]
      exact hp'

theorem Peer.Follows.getReply (h : k.Follows got answers asked) :
    ∃ k', k.getReply = some k' ∧ k'.Follows got answers asked := by
  rw [Peer.getReply]
  split_ifs with hidle
  · obtain ⟨vs,S,p,hv,hr,hu,hp⟩ := h.replies
    rw [if_pos hidle] at hp
    refine h.toSends.poll (by decide) hv hr hu ?_
    have htail : (encodeAll vs.tail).length ≤ (p++k.down).length := by
      cases vs with
      | nil => exact Nat.zero_le _
      | cons v vs =>
        obtain ⟨x,hx,-⟩ := hu
        rw [hx,List.length_append]
        exact Nat.le_add_left _ _
    omega
  · exact ⟨k,rfl,h⟩

theorem taken_le (n : ℕ) (buf : Bytes) : taken n buf ≤ buf.length := by
  rw [taken]
  omega

theorem RedisContext.written_eq (c : RedisContext) (h : c.obuf.length < 2147483648) (n : ℕ) :
    c.written (int32 (taken n c.obuf)) = {c with obuf := c.obuf.drop (taken n c.obuf)} := by
  have hle := taken_le n c.obuf
  rw [RedisContext.written,int32_nat (by omega),int32_nat h]
  split_ifs with hpos hall
  · rw [Nat.cast_inj.mp hall,List.drop_length]
  · rw [sdsrange_drop h]
  · rw [show taken n c.obuf = 0 by omega,List.drop_zero]

theorem Peer.Follows.write (h : k.Follows got answers asked) (n : ℕ) : (k.write n).Follows got answers asked := by
  rw [Peer.write]
  split_ifs with hphase
  · obtain ⟨vs,S,p,hv,hr,hu,hwait⟩ := h.replies
    rw [if_neg (by rw [hphase]; decide)] at hwait
    have hwrite : ∃ done, k.context.redisBufferWrite (.done n) =
        ({k.context with obuf := k.context.obuf.drop (taken n k.context.obuf)},some done) := by
      rw [RedisContext.redisBufferWrite,if_neg (by rw [h.err]; exact not_not.mpr rfl)]
      split_ifs with hpos
      · rw [RedisContext.written_eq _ h.room]
        exact ⟨_,rfl⟩
      · have hnil : k.context.obuf = [] := List.length_eq_zero_iff.mp (by omega)
        refine ⟨true,?_⟩
        rw [hnil,List.drop_nil,← hnil]
    obtain ⟨done,hwrite⟩ := hwrite
    rw [hwrite]
    have hrest : ∀ phase, phase ≠ .idle → phase ≠ .failed → Peer.Follows
        {k with context := {k.context with obuf := k.context.obuf.drop (taken n k.context.obuf)}, phase := phase,
                up := k.up++k.context.obuf.take (taken n k.context.obuf)} got answers asked := by
      intro phase hidle hfailed
      refine ⟨⟨h.err,?_,?_,h.sent⟩,hfailed,vs,S,p,hv,hr,hu,by rw [if_neg hidle]; exact hwait⟩
      · have := h.room
        simp only [List.length_drop]
        omega
      · rw [← h.stream]
        simp only [List.append_assoc,List.take_append_drop]
    cases done
    · exact hrest .writing (by decide) (by decide)
    · exact hrest .reading (by decide) (by decide)
  · exact h

theorem Peer.Follows.read (h : k.Follows got answers asked) (n : ℕ) :
    ∃ k', k.read n = some k' ∧ k'.Follows got answers asked := by
  rw [Peer.read]
  split_ifs with hphase
  · obtain ⟨vs,S,p,hv,hr,hu,hwait⟩ := h.replies
    rw [if_neg (by rw [hphase]; decide)] at hwait
    dsimp only
    split_ifs with hchunk
    · exact ⟨k,rfl,h⟩
    · generalize hcdef : k.down.take (min n 16384) = chunk at hchunk ⊢
      have hlen : chunk.length ≤ 16384 := by
        rw [← hcdef,List.length_take]
        omega
      have hdown : chunk++k.down.drop chunk.length = k.down :=
        (List.prefix_iff_eq_append.mp ⟨_,by rw [← hcdef,List.take_append_drop]⟩)
      have hread : k.context.redisBufferRead (.done chunk) =
          ({k.context with reader := k.context.reader.feed chunk},true) := by
        rw [RedisContext.redisBufferRead,if_neg (by rw [h.err]; exact not_not.mpr rfl)]
        simp only [if_neg hchunk,hr.err]
      rw [hread]
      have hsends : Peer.Sends {k with context := {k.context with reader := k.context.reader.feed chunk},
                                       down := k.down.drop chunk.length} got asked := ⟨h.err,h.room,h.stream,h.sent⟩
      refine hsends.poll (by decide) hv (hr.feed chunk) ?_ ?_
      · rw [List.append_assoc,hdown]
        exact hu
      · rw [List.append_assoc,hdown,List.length_append,List.length_append]
        cases vs with
        | nil =>
          obtain rfl : p = [] := hwait
          simp only [List.tail_nil,encodeAll,List.length_nil]
          omega
        | cons v vs =>
          rw [Awaits] at hwait
          rw [List.tail_cons]
          omega
  · exact ⟨k,rfl,h⟩

/-- The server has read `chunk` and answered `out`. -/
theorem Peer.Follows.serve (h : k.Follows got answers asked) {chunk : Bytes} (hchunk : chunk <+: k.up)
    {as : List Reply} {ws : List RedisReply} (hws : List.Forall₂ Valued as ws) :
    Peer.Follows {k with up := k.up.drop chunk.length, down := k.down++encodeAll ws} (got++[chunk]) (answers++as) asked := by
  obtain ⟨vs,S,p,hv,hr,hu,hwait⟩ := h.replies
  have hfits : ∀ w ∈ ws, w.Fits 8 ∧ w.Short := valued_fits hws
  refine ⟨⟨h.err,h.room,?_,h.sent⟩,h.phase,vs++ws,S,p,?_,hr,?_,?_⟩
  · obtain ⟨rest,hrest⟩ := hchunk
    rw [← h.stream,← hrest]
    simp
  · rw [← List.append_assoc]
    exact List.rel_append hv hws
  · rw [← List.append_assoc]
    exact hu.append hfits
  · split_ifs at hwait ⊢
    · exact hwait
    · refine hwait.append fun hnil => ?_
      subst hnil
      exact (List.append_eq_nil_iff.mp hu.2).2

end

/-- The map behind the commands that were executed. -/
def mapOf (fl : FixedLength) (log : List Served) : KeyMap :=
  (Simulation.follow (refCommand fl) OrderedMap.empty (log.map Served.argv)).1

/-- The server has read `got` of each client, its store holds the map, and each client follows its answers. -/
structure System.Inv (σ : System) (fl : FixedLength) (fds : List ℕ) (asked : ℕ → List (List Bytes))
    (got : ℕ → List Bytes) (T : List Tower) : Prop where
  stores : Stores σ.net.server fl (mapOf fl σ.log) T
  keys : ∀ e ∈ (mapOf fl σ.log).entries, PutBySome fds asked e.1
  chunks : ∀ fd ∈ fds, ∀ s ∈ got fd, 1 ≤ s.length ∧ s.length ≤ PROTO_IOBUF_LEN
  client : ∀ fd ∈ fds, ∃ c, σ.net.clients fd = some c ∧ (readAll commandStatus createClient (got fd)).2 = .idle c
  argvs : ∀ fd ∈ fds, argvsOf fd σ.log = executed (readAll commandStatus createClient (got fd))
  peers : ∀ fd ∈ fds, (σ.peers fd).Follows (got fd) (answersOf fl fd σ.log) (asked fd)

theorem zip_filter_self {fd : ℕ} {log : List Served} {as : List Reply} (h : ∀ e ∈ log, e.fd = fd)
    (hlen : as.length = log.length) : ((log.zip as).filter fun a => a.1.fd = fd).map Prod.snd = as := by
  rw [List.filter_eq_self.mpr fun a ha => by simpa using h a.1 (List.of_mem_zip ha).1]
  exact List.map_snd_zip hlen.le

theorem zip_filter_other {fd fd' : ℕ} {log : List Served} {as : List Reply} (h : ∀ e ∈ log, e.fd = fd')
    (hne : fd' ≠ fd) : ((log.zip as).filter fun a => a.1.fd = fd).map Prod.snd = [] := by
  rw [List.filter_eq_nil_iff.mpr fun a ha => by simpa [h a.1 (List.of_mem_zip ha).1] using hne,List.map_nil]

theorem answersOf_append (fl : FixedLength) (fd : ℕ) (log log' : List Served) : answersOf fl fd (log++log') =
    answersOf fl fd log++((log'.zip (Simulation.follow (refCommand fl) (mapOf fl log) (log'.map Served.argv)).2).filter
      fun a => a.1.fd = fd).map Prod.snd := by
  rw [answersOf,List.map_append,Simulation.follow_append,
    List.zip_append (by rw [Simulation.follow_length,List.length_map]),List.filter_append,List.map_append]
  rfl

theorem answersOf_length (fl : FixedLength) (fd : ℕ) (log : List Served) :
    (answersOf fl fd log).length = (argvsOf fd log).length := by
  induction log using List.reverseRecOn with
  | nil => rfl
  | append_singleton log e ih =>
    rw [answersOf_append,argvsOf_append,List.length_append,List.length_append,ih]
    congr 1
    by_cases he : e.fd = fd <;> simp [argvsOf,Simulation.follow,he]

section
variable {fl : FixedLength} {fds : List ℕ} {asked : ℕ → List (List Bytes)} {σ : System} {got : ℕ → List Bytes}
  {T : List Tower}

theorem freshSystem_inv (fl : FixedLength) (fds : List ℕ) (asked : ℕ → List (List Bytes)) :
    (freshSystem fl fds).Inv fl fds asked (fun _ => []) [] where
  stores := initServer_stores fl
  keys := by simp [mapOf,freshSystem,Simulation.follow]
  chunks := by simp
  client := fun fd hfd => ⟨createClient,if_pos hfd,rfl⟩
  argvs := fun _ _ => rfl
  peers := fun fd _ => newPeer_follows (asked fd)

theorem System.Inv.setPeer (h : σ.Inv fl fds asked got T) {fd : ℕ} {k : Peer}
    (hk : k.Follows (got fd) (answersOf fl fd σ.log) (asked fd)) : (σ.setPeer fd k).Inv fl fds asked got T := by
  refine ⟨h.stores,h.keys,h.chunks,h.client,h.argvs,fun fd' hfd' => ?_⟩
  by_cases hne : fd' = fd
  · subst hne
    rw [show (σ.setPeer fd' k).peers fd' = k from Function.update_self _ _ _]
    exact hk
  · rw [show (σ.setPeer fd k).peers fd' = σ.peers fd' from Function.update_of_ne hne _ _]
    exact h.peers fd' hfd'

theorem delivered {log : List Served} {as : List Reply}
    (h : List.Forall₂ (fun e r => ∃ v, Delivers e.out r v) log as) :
    ∃ ws, (log.flatMap fun e => e.out.bytes) = encodeAll ws ∧ List.Forall₂ Valued as ws := by
  induction h with
  | nil => exact ⟨[],rfl,.nil⟩
  | cons hv _ ih =>
    obtain ⟨v,hv⟩ := hv
    obtain ⟨ws,hbytes,hws⟩ := ih
    exact ⟨v::ws,by rw [List.flatMap_cons,hbytes,hv.bytes,encodeAll],hws.cons ⟨hv.means,hv.fits,hv.short⟩⟩

theorem System.Inv.serve (h : σ.Inv fl fds asked got T) (hp : Pipelined fl fds asked) (h1 : 1 ≤ fl.keyLen)
    (hfl : fl.Unsigned) {fd : ℕ} (hfd : fd ∈ fds) (n : ℕ) {draws : ℕ → Draw} (hdraws : ∀ i, (draws i).malloc = true) :
    ∃ σ' got' T', σ.serve fd n draws = some σ' ∧ σ'.Inv fl fds asked got' T' := by
  have hk := h.peers fd hfd
  obtain ⟨c,hc,hidle⟩ := h.client fd hfd
  rw [System.serve]
  generalize hcdef : (σ.peers fd).up.take (min n PROTO_IOBUF_LEN) = chunk
  by_cases hnil : chunk = []
  · subst hnil
    have hstep : σ.net.step (.readable fd (System.arrival []) draws) = some (.up σ.net,[]) := by
      simp [System.arrival,Net.step,hc]
    rw [hstep]
    refine ⟨_,got,T,rfl,?_⟩
    rw [List.append_nil]
    refine System.Inv.setPeer h ?_
    simpa using hk
  · have hfront : chunk <+: (σ.peers fd).up := ⟨_,by rw [← hcdef,List.take_append_drop]⟩
    have hsize : ∀ s ∈ got fd++[chunk], 1 ≤ s.length ∧ s.length ≤ PROTO_IOBUF_LEN := by
      intro s hs
      rcases List.mem_append.mp hs with hs | hs
      · exact h.chunks fd hfd s hs
      · rw [List.mem_singleton.mp hs]
        refine ⟨List.length_pos_of_ne_nil hnil,?_⟩
        rw [← hcdef,List.length_take]
        omega
    obtain ⟨rest,hrest⟩ := hfront
    have hcut : (got fd++[chunk]).flatten++(rest++(σ.peers fd).context.obuf) = encodeRequests (σ.peers fd).sent := by
      rw [← hk.stream,← hrest]
      simp
    have hsub : ∀ fd ∈ fds, ∀ r ∈ (σ.peers fd).sent, r ∈ asked fd := fun fd hfd => (h.peers fd hfd).sent
    obtain ⟨evs,c',hread,hmem,hidle',hexec⟩ :=
      (hp.traffic hsub).read hfd hsize hcut hidle
    have hasked : ∀ r ∈ evs.map Event.argv, r ∈ asked fd := fun r hr => hsub fd hfd r (hmem r hr)
    have htraffic := hp.traffic fun _ _ _ hr => hr
    have hcr : ∀ M : KeyMap, (∀ e ∈ M.entries, PutBySome fds asked e.1) → ∀ e ∈ M.entries, CR ∉ e.1 := by
      intro M hM e he
      obtain ⟨fd',hfd',r,hr,value,hput⟩ := hM e he
      exact hp.keys fd' hfd' r hr e.1 value hput
    obtain ⟨s',log,T',hserve,hall,hs',hkeys⟩ := h.stores.serve h1 fd hdraws
      (P:=fun e r => ∃ v, Delivers e.out r v) (fun r hr => htraffic.answered hfd (hasked r hr)) h.keys
      (fun r hr key value hput => ⟨fd,hfd,r,hasked r hr,value,hput⟩)
      (fun r hr c hc M hM => htraffic.scans fd hfd r (hasked r hr) c hc M hM)
      (fun hs hM r hr d s' out hstep hsends => hs.delivers hfl (htraffic.answered hfd (hasked r hr)) (hcr _ hM)
        (fun c hc => hp.lines fd hfd r (hasked r hr) c hc _ hM) hstep hsends)
    obtain ⟨-,hown,hargv⟩ := serve_spec hserve
    have hstep : σ.net.step (.readable fd (System.arrival chunk) draws) =
        some (.up (Net.setClient ⟨s',σ.net.clients⟩ fd (some c')),log) := by
      simp [System.arrival,hnil,Net.step,hc,Net.receive,hread,hserve]
    rw [hstep]
    have hlen : (Simulation.follow (refCommand fl) (mapOf fl σ.log) (log.map Served.argv)).2.length = log.length := by
      rw [Simulation.follow_length,List.length_map]
    have hmap : mapOf fl (σ.log++log) = (Simulation.follow (refCommand fl) (mapOf fl σ.log) (evs.map Event.argv)).1 := by
      rw [mapOf,List.map_append,Simulation.follow_append,hargv]
      rfl
    obtain ⟨ws,hbytes,hws⟩ := delivered hall
    rw [← hargv] at hws
    refine ⟨_,Function.update got fd (got fd++[chunk]),T',rfl,⟨by rw [← hmap] at hs'; exact hs',?_,?_,?_,?_,?_⟩⟩
    · rw [← hmap] at hkeys
      exact hkeys
    · intro fd' hfd'
      by_cases hne : fd' = fd
      · subst hne
        rw [Function.update_self]
        exact hsize
      · rw [Function.update_of_ne hne]
        exact h.chunks fd' hfd'
    · intro fd' hfd'
      by_cases hne : fd' = fd
      · subst hne
        exact ⟨c',Function.update_self ..,by rw [Function.update_self]; exact hidle'⟩
      · obtain ⟨c₁,hc₁,hidle₁⟩ := h.client fd' hfd'
        exact ⟨c₁,(Net.setClient_other _ (Ne.symm hne) _).trans hc₁,by rw [Function.update_of_ne hne]; exact hidle₁⟩
    · intro fd' hfd'
      show argvsOf fd' (σ.log++log) = _
      rw [argvsOf_append]
      by_cases hne : fd' = fd
      · subst hne
        rw [Function.update_self,hexec,h.argvs fd' hfd',argvsOf_self hown,hargv]
      · rw [Function.update_of_ne hne,h.argvs fd' hfd',argvsOf_other hown (Ne.symm hne),List.append_nil]
    · intro fd' hfd'
      by_cases hne : fd' = fd
      · subst hne
        rw [Function.update_self]
        show (Function.update σ.peers fd' _ fd').Follows _ (answersOf fl fd' (σ.log++log)) _
        rw [Function.update_self,answersOf_append,zip_filter_self hown hlen,hbytes]
        exact hk.serve ⟨rest,hrest⟩ hws
      · rw [Function.update_of_ne hne]
        show (Function.update σ.peers fd _ fd').Follows _ (answersOf fl fd' (σ.log++log)) _
        rw [Function.update_of_ne hne,answersOf_append,zip_filter_other hown (Ne.symm hne),List.append_nil]
        exact h.peers fd' hfd'

theorem System.Inv.step (h : σ.Inv fl fds asked got T) (hp : Pipelined fl fds asked) (h1 : 1 ≤ fl.keyLen)
    (hfl : fl.Unsigned) {m : Move} (hm : m.Of fds) (hask : ∀ fd, ∀ argv ∈ m.request fd, argv ∈ asked fd) :
    ∃ σ' got' T', σ.step m = some σ' ∧ σ'.Inv fl fds asked got' T' := by
  cases m with
  | append fd argv =>
    obtain ⟨k,hk,hfollows⟩ := (h.peers fd hm).append (hask fd argv (by simp [Move.request]))
    exact ⟨_,got,T,by rw [System.step,hk]; rfl,h.setPeer hfollows⟩
  | getReply fd =>
    obtain ⟨k,hk,hfollows⟩ := (h.peers fd hm).getReply
    exact ⟨_,got,T,by rw [System.step,hk]; rfl,h.setPeer hfollows⟩
  | write fd n => exact ⟨_,got,T,rfl,h.setPeer ((h.peers fd hm).write n)⟩
  | read fd n =>
    obtain ⟨k,hk,hfollows⟩ := (h.peers fd hm).read n
    exact ⟨_,got,T,by rw [System.step,hk]; rfl,h.setPeer hfollows⟩
  | serve fd n draws => exact h.serve hp h1 hfl hm.1 n hm.2

theorem System.Inv.run (hp : Pipelined fl fds asked) (h1 : 1 ≤ fl.keyLen) (hfl : fl.Unsigned) {ms : List Move}
    (hms : ∀ m ∈ ms, m.Of fds) (hask : ∀ m ∈ ms, ∀ fd, ∀ argv ∈ m.request fd, argv ∈ asked fd)
    (h : σ.Inv fl fds asked got T) : ∃ σ' got' T', σ.run ms = some σ' ∧ σ'.Inv fl fds asked got' T' := by
  induction ms generalizing σ got T with
  | nil => exact ⟨σ,got,T,rfl,h⟩
  | cons m ms ih =>
    obtain ⟨hm,hms⟩ := List.forall_mem_cons.mp hms
    obtain ⟨hhead,htail⟩ := List.forall_mem_cons.mp hask
    obtain ⟨σ₁,got₁,T₁,hstep,h₁⟩ := h.step hp h1 hfl hm hhead
    rw [System.run,hstep,Option.bind_some]
    exact ih hms htail h₁

/-- A client inside of `redisGetReply` that is owed a reply has bytes on their way. -/
theorem System.Inv.moving (h : σ.Inv fl fds asked got T) (hp : Pipelined fl fds asked) {fd : ℕ} (hfd : fd ∈ fds)
    (hphase : (σ.peers fd).phase ≠ .idle) (howed : (σ.peers fd).replies.length < (σ.peers fd).sent.length) :
    (σ.peers fd).context.obuf ≠ [] ∨ (σ.peers fd).up ≠ [] ∨ (σ.peers fd).down ≠ [] := by
  by_contra hnone
  simp only [not_or,not_not] at hnone
  obtain ⟨hobuf,hup,hdown⟩ := hnone
  have hk := h.peers fd hfd
  have htraffic := hp.traffic fun fd hfd => (h.peers fd hfd).sent
  obtain ⟨vs,S,p,hv,-,-,hwait⟩ := hk.replies
  rw [if_neg hphase] at hwait
  have hall : (got fd).flatten++[] = encodeRequests (σ.peers fd).sent := by
    have := hk.stream
    rwa [hup,hobuf,List.append_nil] at this
  have hargvs : argvsOf fd σ.log = (σ.peers fd).sent := by
    rw [h.argvs fd hfd,(readAll_requests (htraffic.wellFormed fd hfd) (fun r hr => htraffic.status hfd hr)
      (h.chunks fd hfd) hall).1,← Stage.feed_arrived (htraffic.wellFormed fd hfd) hall]
    rw [List.append_nil] at hall
    rw [hall,Stage.feed_requests (htraffic.wellFormed fd hfd)]
  have hlen := hv.length_eq
  rw [answersOf_length,hargvs,List.length_append] at hlen
  cases vs with
  | nil =>
    rw [List.length_nil] at hlen
    omega
  | cons v vs =>
    rw [Awaits,hdown,List.length_nil] at hwait
    omega

/-- Clients of the bundled library append commands, call `redisGetReply`, write and read as much as the sockets let them,
and the server reads, in any order. No call fails and nothing undefined is done; of each client the server has executed
the first commands; the replies a client was handed are the answers of one map to them, which the store holds; and a
client that waits for a reply it is owed has bytes on their way. -/
theorem pipelines_as_one_map (h1 : 1 ≤ fl.keyLen) (hfl : fl.Unsigned) (ms : List Move) (hms : ∀ m ∈ ms, m.Of fds)
    (h : Pipelined fl fds (requests ms)) :
    ∃ σ, (freshSystem fl fds).run ms = some σ ∧
      (∀ fd ∈ fds, (σ.peers fd).phase ≠ .failed ∧ argvsOf fd σ.log <+: (σ.peers fd).sent ∧
        List.Forall₂ Says ((answersOf fl fd σ.log).take (σ.peers fd).replies.length) (σ.peers fd).replies ∧
        ((σ.peers fd).phase ≠ .idle → (σ.peers fd).replies.length < (σ.peers fd).sent.length →
          (σ.peers fd).context.obuf ≠ [] ∨ (σ.peers fd).up ≠ [] ∨ (σ.peers fd).down ≠ [])) ∧
      σ.net.server.mem.pairs = some (mapOf fl σ.log).entries := by
  obtain ⟨σ,got,T,hrun,hinv⟩ := System.Inv.run h h1 hfl hms
    (fun m hm fd argv hargv => List.mem_filterMap.mpr ⟨m,hm,hargv⟩) (freshSystem_inv fl fds _)
  refine ⟨σ,hrun,fun fd hfd => ⟨(hinv.peers fd hfd).phase,?_,?_,hinv.moving h hfd⟩,hinv.stores.keeps.list.pairs⟩
  · have hk := hinv.peers fd hfd
    have htraffic := h.traffic fun fd hfd => (hinv.peers fd hfd).sent
    rw [hinv.argvs fd hfd,(readAll_requests (htraffic.wellFormed fd hfd) (fun r hr => htraffic.status hfd hr)
      (hinv.chunks fd hfd) hk.stream).1]
    exact arrived_front _ _
  · obtain ⟨vs,S,p,hv,-⟩ := (hinv.peers fd hfd).replies
    have htake := List.forall₂_take (σ.peers fd).replies.length hv
    rw [List.take_left] at htake
    exact htake.imp fun _ _ hr => hr.1

/-- One client puts a key that the other asks for, and the answer is read in pieces and handed over. -/
theorem pipelines_as_one_map_put_get :
    let draws : ℕ → Draw := fun _ => ⟨⟨1,by decide⟩,true⟩
    let put := [str "put",str "a",str "1"]
    let get := [str "get",str "a"]
    let ms : List Move := [.append 4 put,.getReply 4,.write 4 20,.append 5 get,.getReply 5,.write 5 99,.serve 4 99 draws,
      .write 4 99,.serve 4 99 draws,.serve 5 99 draws,.read 5 3,.read 4 99,.read 5 99]
    ∃ σ, (freshSystem ⟨1,1⟩ [4,5]).run ms = some σ ∧
      (σ.peers 5).replies.map RedisReply.encode = [str "$1\r\n1\r\n"] ∧
      List.Forall₂ Says ((answersOf ⟨1,1⟩ 5 σ.log).take (σ.peers 5).replies.length) (σ.peers 5).replies ∧
      argvsOf 4 σ.log <+: (σ.peers 4).sent ∧ σ.net.server.mem.pairs = some (mapOf ⟨1,1⟩ σ.log).entries := by
  intro draws put get ms
  have hput : resolve put = some (.call (.put (str "a") (str "1"))) := rfl
  have hget : resolve get = some (.call (.get (str "a"))) := rfl
  have hcases : ∀ fd ∈ [4,5], ∀ r ∈ requests ms fd, r = put ∨ r = get := by
    intro fd _ r hr
    obtain ⟨m,hm,hreq⟩ := List.mem_filterMap.mp hr
    simp only [ms,List.mem_cons,List.not_mem_nil,or_false] at hm
    rcases hm with rfl | rfl | rfl | rfl | rfl | rfl | rfl | rfl | rfl | rfl | rfl | rfl | rfl <;>
      simp only [Move.request,Option.ite_none_right_eq_some,Option.some.injEq,reduceCtorEq] at hreq
    · exact Or.inl hreq.2.symm
    · exact Or.inr hreq.2.symm
  have hpipe : Pipelined ⟨1,1⟩ [4,5] (requests ms) := by
    refine ⟨fun fd hfd r hr => ?_,fun fd hfd r hr => ?_,fun fd hfd r hr key value hk => ?_,fun fd hfd r hr c hc M _ => ?_⟩
    · rcases hcases fd hfd r hr with rfl | rfl <;> decide
    · rcases hcases fd hfd r hr with rfl | rfl
      · rw [hput]
        simp
      · rw [hget]
        simp
    · rcases hcases fd hfd r hr with rfl | rfl
      · rw [hput] at hk
        cases hk
        decide
      · rw [hget] at hk
        cases hk
    · rcases hcases fd hfd r hr with rfl | rfl
      · rw [hput] at hc
        cases hc
        trivial
      · rw [hget] at hc
        cases hc
        trivial
  obtain ⟨σ,hrun,hpeers,hpairs⟩ := pipelines_as_one_map le_rfl ⟨by decide,by decide⟩ ms
    (by simp [ms,Move.Of,draws]) hpipe
  have hreplies : ((freshSystem ⟨1,1⟩ [4,5]).run ms).map (fun σ => (σ.peers 5).replies.map RedisReply.encode) =
      some [str "$1\r\n1\r\n"] := by decide +kernel
  rw [hrun] at hreplies
  exact ⟨σ,hrun,Option.some.inj hreplies,(hpeers 5 (by simp)).2.2.1,(hpeers 4 (by simp)).2.1,hpairs⟩

end

end Tadpole
