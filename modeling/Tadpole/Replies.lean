import Tadpole.FixedLengthRuns
import Tadpole.Lib.Resp

/-! What a client reads from the output of the commands it sent. Errors and bulks are framed whatever
they hold; the status lines of SCAN and SHOW are written as they come. -/
namespace Tadpole

def runCommands (s : Server) : List (List Bytes × Level) → Option (Server × List Output)
  | [] => some (s,[])
  | (argv,level)::cs => do
    let (s,out,_) ← processCommand s ⟨level,true⟩ argv
    let (s,outs) ← runCommands s cs
    some (s,out::outs)

/-- The argument vector is one the parser hands over, and neither QUIT nor SHUTDOWN. -/
def Answered (argv : List Bytes) : Prop :=
  argv ≠ [] ∧ (∀ a ∈ argv, a.length ≤ MAX_ARG) ∧ resolve argv ≠ some .quit ∧
    resolve argv ≠ some .shutdown

def Carries : Reply → Resp.Value → Prop
  | .bulk v, .bulk s => s = v
  | .nil, .nil => True
  | .status t, .status s => s = t
  | .error, .error _ => True
  | _, _ => False

/-- The output parses into one value a command, each with the payload the handler made. -/
def RepliesParse (s : Server) (cs : List (List Bytes × Level)) : Prop :=
  ∃ s' outs rs vs, runCommands s cs = some (s',outs) ∧ List.Forall₂ Sends outs rs ∧
    Resp.readN cs.length (outs.flatMap Output.bytes) = some (vs,[]) ∧ List.Forall₂ Carries rs vs

def refCommand (fl : FixedLength) (M : KeyMap) (argv : List Bytes) : KeyMap × Reply :=
  match resolve argv with
  | some (.call c) => ((refStep fl M c).1,codeReply fl M c)
  | some .ping => (M,.status (str "PONG"))
  | _ => (M,.error)

def refCommands (fl : FixedLength) (M : KeyMap) : List (List Bytes) → KeyMap
  | [] => M
  | argv::cs => refCommands fl (refCommand fl M argv).1 cs

/-- No line end comes of the keys the call puts on a status line. SCAN joins its keys by LF, SHOW
sets commas between them and names none while its counter says 0. -/
def Unbroken (fl : FixedLength) (M : KeyMap) : Call → Prop
  | .scan start stop => start.length = fl.keyLen → stop.length = fl.keyLen →
      (∀ k ∈ M.range start stop, ¬ CRLF <:+: k) ∧
        ∀ k ∈ (M.range start stop).dropLast, k.getLast? ≠ some CR
  | .info => 4294967296 ∣ M.size ∨
      (∀ k ∈ M.least, ¬ CRLF <:+: k) ∧ ∀ k ∈ M.greatest, ¬ CRLF <:+: k
  | _ => True

def UnbrokenCommand (fl : FixedLength) (M : KeyMap) (argv : List Bytes) : Prop :=
  ∀ c, resolve argv = some (.call c) → ScanFits fl M c ∧ Unbroken fl M c

def UnbrokenRun (fl : FixedLength) (M : KeyMap) : List (List Bytes) → Prop
  | [] => True
  | argv::cs => UnbrokenCommand fl M argv ∧ UnbrokenRun fl (refCommand fl M argv).1 cs

/-- The payload of a status line ends at the line end. -/
def Reply.Clean : Reply → Prop
  | .status s => ¬ CRLF <:+: s
  | _ => True

theorem Sends.read {o : Output} {r : Reply} (h : Sends o r) (hc : r.Clean) (rest : Bytes) :
    ∃ v, Resp.read (o.bytes++rest) = some (v,rest) ∧ Carries r v := by
  have hm := h.matches
  cases r with
  | bulk v =>
    refine ⟨.bulk v,?_,rfl⟩
    rw [show o.bytes = _ from hm]
    exact Resp.read_bulk v rest
  | nil =>
    refine ⟨.nil,?_,trivial⟩
    rw [show o.bytes = _ from hm]
    exact Resp.read_nil rest
  | status s =>
    refine ⟨.status s,?_,rfl⟩
    rw [show o.bytes = _ from hm]
    exact Resp.read_status hc rest
  | error =>
    obtain ⟨t,ht,hcr,-⟩ := hm
    refine ⟨.error (str "ERR "++t),?_,trivial⟩
    rw [ht]
    refine Resp.read_error (s:=str "ERR "++t) (Resp.clean_of_notMem ?_) rest
    rw [List.mem_append,not_or]
    exact ⟨by decide,hcr⟩

theorem Sends.read_broken {o : Output} {r : Reply} (h : Sends o r) (hc : ¬ r.Clean) (rest : Bytes)
    {v : Resp.Value} {t : Bytes} (hread : Resp.read (o.bytes++rest) = some (v,t)) : ¬ Carries r v := by
  cases r with
  | status s =>
    obtain ⟨l,t',hl,hne⟩ := Resp.read_status_dirty (not_not.mp hc) (CRLF++rest)
    have hb : o.bytes++rest = [43]++s++(CRLF++rest) := by
      rw [show o.bytes = str "+"++s++CRLF from h.matches,List.append_assoc _ CRLF]
      rfl
    rw [hb,hl] at hread
    obtain ⟨rfl,-⟩ := Prod.mk.inj (Option.some.inj hread)
    exact hne
  | bulk v => exact absurd trivial hc
  | nil => exact absurd trivial hc
  | error => exact absurd trivial hc

theorem Sends.unique {o : Output} {r r' : Reply} (h : Sends o r) (h' : Sends o r') (hr : ¬ r.Clean) :
    r' = r := by
  have hm := h'.matches
  cases r with
  | status s =>
    rw [show o.bytes = str "+"++s++CRLF from h.matches] at hm
    cases r' with
    | status s' =>
      have he : str "+"++s++CRLF = str "+"++s'++CRLF := hm
      rw [List.append_left_inj,List.append_right_inj] at he
      rw [he]
    | bulk v => exact absurd (List.cons.inj (show str "+"++_ = str "$"++_ from hm)).1 (by decide)
    | nil => exact absurd (List.cons.inj hm).1 (by decide)
    | error =>
      obtain ⟨t,ht,-⟩ := hm
      exact absurd (List.cons.inj ht).1 (by decide)
  | bulk v => exact absurd trivial hr
  | nil => exact absurd trivial hr
  | error => exact absurd trivial hr

theorem joinLines_cons (k k' : Bytes) (l : List Bytes) :
    joinLines (k::k'::l) = k++(LF::joinLines (k'::l)) := by
  simp [joinLines,List.intercalate]

theorem joinLines_clean (l : List Bytes) : ¬ CRLF <:+: joinLines l ↔
    (∀ k ∈ l, ¬ CRLF <:+: k) ∧ ∀ k ∈ l.dropLast, k.getLast? ≠ some CR := by
  induction l with
  | nil => simp [joinLines,List.intercalate]
  | cons k l ih =>
    cases l with
    | nil => simp [joinLines,List.intercalate]
    | cons k' l =>
      rw [joinLines_cons,Resp.eol_append,Resp.eol_cons (by decide),not_or,not_or,ih]
      simp only [List.head?_cons,and_true,List.dropLast_cons_cons,List.forall_mem_cons]
      tauto

theorem counterText_clean (n : ℤ) (M : KeyMap) : ¬ CRLF <:+: counterText n M ↔
    n = 0 ∨ (∀ k ∈ M.least, ¬ CRLF <:+: k) ∧ ∀ k ∈ M.greatest, ¬ CRLF <:+: k := by
  have hnum : ¬ CRLF <:+: sdsll2str n := by
    refine Resp.clean_of_notMem fun hm => ?_
    unfold sdsll2str at hm
    split_ifs at hm
    · rw [List.mem_cons] at hm
      exact hm.elim (by decide) fun hm => absurd (Decimal.encode_isDigit _ _ hm) (by decide)
    · exact absurd (Decimal.encode_isDigit _ _ hm) (by decide)
  have hnull : ¬ CRLF <:+: str "NULL" := by decide
  have hkey : ∀ o : Option Bytes, ¬ CRLF <:+: (if n = 0 then str "NULL" else o.getD (str "NULL")) ↔
      n = 0 ∨ ∀ k ∈ o, ¬ CRLF <:+: k := by
    intro o
    by_cases hz : n = 0
    · simp [hz,hnull]
    · cases o <;> simp [hz,hnull]
  have hmin : ∀ x : Bytes, CRLF <:+: str ",min="++x ↔ CRLF <:+: x := fun x => by
    simp [str,Resp.eol_cons]
  have hmax : ∀ x : Bytes, CRLF <:+: str ",max="++x ↔ CRLF <:+: x := fun x => by
    simp [str,Resp.eol_cons]
  have hhead : ∀ x : Bytes, CRLF <:+: str "tadpole:keys="++x ↔ CRLF <:+: x := fun x => by
    simp [str,Resp.eol_cons]
  have hcut : ∀ x y : Bytes, (y.head? ≠ some LF) →
      (CRLF <:+: x++y ↔ CRLF <:+: x ∨ CRLF <:+: y) := fun x y hy => by
    rw [Resp.eol_append]
    tauto
  rw [counterText]
  simp only [List.append_assoc]
  rw [hhead,hcut _ _ (by simp [str,LF]),hmin,hcut _ _ (by simp [str,LF]),hmax,not_or,not_or,hkey,hkey]
  tauto

theorem int32_eq_zero {n : ℕ} : int32 n = 0 ↔ 4294967296 ∣ n := by
  unfold int32
  omega

section
variable {fl : FixedLength} {M : KeyMap}

/-- The handler's reply is clean exactly when its keys are unbroken. -/
theorem codeReply_clean (c : Call) : (codeReply fl M c).Clean ↔ Unbroken fl M c := by
  cases c with
  | get key =>
    refine iff_of_true ?_ trivial
    simp only [codeReply,refStep]
    split_ifs
    · trivial
    · cases M.lookup key <;> trivial
  | put key value =>
    refine iff_of_true ?_ trivial
    simp only [codeReply,refStep]
    split_ifs
    · trivial
    · show ¬ CRLF <:+: str "OK"
      decide
  | delete key =>
    refine iff_of_true ?_ trivial
    simp only [codeReply,refStep]
    split_ifs
    · trivial
    · show ¬ CRLF <:+: str "1"
      decide
    · show ¬ CRLF <:+: str "0"
      decide
  | scan start stop =>
    simp only [codeReply,refStep,Unbroken]
    split_ifs with hk hlt
    · exact iff_of_true trivial fun h₁ h₂ => absurd hk (by tauto)
    · have hnil : M.range start stop = [] := by
        rw [List.eq_nil_iff_forall_not_mem]
        intro k hk
        obtain ⟨-,h₁,h₂⟩ := OrderedMap.mem_range.mp hk
        exact (h₁.trans h₂).not_gt hlt
      exact iff_of_true trivial fun _ _ => by simp [hnil]
    · rw [not_or,not_not,not_not] at hk
      simp only [hk,true_imp_iff]
      exact joinLines_clean _
  | info =>
    show ¬ CRLF <:+: counterText (int32 M.size) M ↔ _
    rw [counterText_clean,int32_eq_zero]
    rfl

end

theorem Proc.action_cases {p : Proc} {args : List Bytes} {a : Action} (h : p.action args = some a) :
    (∃ c, a = .call c ∧ c.args = args) ∨ a = .ping ∨ a = .shutdown := by
  unfold Proc.action at h
  split at h
  all_goals first
    | exact Or.inl ⟨_,(Option.some.inj h).symm,rfl⟩
    | exact Or.inr (Or.inl (Option.some.inj h).symm)
    | exact Or.inr (Or.inr (Option.some.inj h).symm)
    | cases h

theorem resolve_cases {argv : List Bytes} {a : Action} (h : resolve argv = some a) :
    a = .quit ∨ (∃ pieces, a = .error (addReplyErrorFormat pieces)) ∨
      (∃ c, a = .call c ∧ ∀ b ∈ c.args, b ∈ argv) ∨ a = .ping ∨ a = .shutdown := by
  unfold resolve at h
  split at h
  · cases h
  · rename_i name args
    split at h
    · exact Or.inl (Option.some.inj h).symm
    · split at h
      · exact Or.inr (Or.inl ⟨_,(Option.some.inj h).symm⟩)
      · rename_i cmd _
        split at h
        · exact Or.inr (Or.inl ⟨_,(Option.some.inj h).symm⟩)
        · rcases Proc.action_cases h with ⟨c,rfl,hc⟩ | rfl | rfl
          · exact Or.inr (Or.inr (Or.inl ⟨c,rfl,fun b hb => List.mem_cons_of_mem _ (hc ▸ hb)⟩))
          · simp
          · simp

section
variable {s : Server} {fl : FixedLength} {M : KeyMap} {T : List Tower}

/-- A command whose SCAN fits answers as the reference says, and keeps the invariant. -/
theorem Stores.command (h : Stores s fl M T) (h1 : 1 ≤ fl.keyLen) {argv : List Bytes}
    (ha : Answered argv) (hfit : ∀ c, resolve argv = some (.call c) → ScanFits fl M c) (level : Level) :
    ∃ s' out T', processCommand s ⟨level,true⟩ argv = some (s',out,.ok) ∧
      Sends out (refCommand fl M argv).2 ∧ Stores s' fl (refCommand fl M argv).1 T' := by
  obtain ⟨hne,hargs,hquit,hshut⟩ := ha
  obtain ⟨a,hres⟩ := resolve_isSome hne
  rw [processCommand,refCommand,hres,Option.bind_some]
  rw [hres] at hquit hshut
  rcases resolve_cases hres with rfl | ⟨pieces,rfl⟩ | ⟨c,rfl,hc⟩ | rfl | rfl
  · exact absurd rfl hquit
  · exact ⟨s,_,T,rfl,.error pieces,h⟩
  · obtain ⟨s',out,T',hrun,hsends,hs'⟩ :=
      h.run h1 (c:=c) (fun b hb => hargs b (hc b hb)) (hfit c hres) level
    exact ⟨s',out,T',by simp [Action.run,hrun],hsends,hs'⟩
  · exact ⟨s,_,T,rfl,.literal (str "PONG"),h⟩
  · exact absurd rfl hshut

theorem Stores.command_overflow (h : Stores s fl M T) {argv : List Bytes} {c : Call}
    (hres : resolve argv = some (.call c)) (hfit : ¬ ScanFits fl M c) (d : Draw) :
    processCommand s d argv = none := by
  rw [processCommand,hres,Option.bind_some,Action.run,h.run_overflow hfit]
  rfl

/-- The server a run of commands reaches still holds the reference's map. -/
theorem Stores.runCommands (h : Stores s fl M T) (h1 : 1 ≤ fl.keyLen)
    {cs : List (List Bytes × Level)} (hcs : ∀ c ∈ cs, Answered c.1) {s' : Server}
    {outs : List Output} (hrun : Tadpole.runCommands s cs = some (s',outs)) :
    ∃ T', Stores s' fl (refCommands fl M (cs.map Prod.fst)) T' := by
  induction cs generalizing s M T outs with
  | nil =>
    obtain ⟨rfl,-⟩ := Prod.mk.inj (Option.some.inj hrun)
    exact ⟨T,h⟩
  | cons c cs ih =>
    obtain ⟨argv,level⟩ := c
    have ha : Answered argv := hcs (argv,level) (by simp)
    by_cases hfit : ∀ c, resolve argv = some (.call c) → ScanFits fl M c
    · obtain ⟨s₁,out,T₁,hstep,-,hs₁⟩ := h.command h1 ha hfit level
      simp only [Tadpole.runCommands,hstep,Option.bind_eq_bind,Option.bind_some] at hrun
      obtain ⟨⟨s₂,outs₂⟩,hrest,he⟩ := Option.bind_eq_some_iff.mp hrun
      obtain ⟨rfl,-⟩ := Prod.mk.inj (Option.some.inj he)
      exact ih hs₁ (fun c hc => hcs c (by simp [hc])) hrest
    · push Not at hfit
      obtain ⟨c,hres,hc⟩ := hfit
      simp [Tadpole.runCommands,h.command_overflow hres hc] at hrun

theorem repliesParse_cons {s' : Server} {argv : List Bytes} {level : Level} {st : Status}
    {out : Output} {r : Reply} {cs : List (List Bytes × Level)}
    (hstep : processCommand s ⟨level,true⟩ argv = some (s',out,st)) (hsends : Sends out r) :
    RepliesParse s ((argv,level)::cs) ↔ r.Clean ∧ RepliesParse s' cs := by
  have hrun : ∀ s₂ outs, Tadpole.runCommands s ((argv,level)::cs) = some (s₂,outs) ↔
      ∃ os, Tadpole.runCommands s' cs = some (s₂,os) ∧ outs = out::os := by
    intro s₂ outs
    simp only [Tadpole.runCommands,hstep,Option.bind_eq_bind,Option.bind_some]
    rw [Option.bind_eq_some_iff]
    constructor
    · rintro ⟨⟨s₃,os⟩,hos,he⟩
      obtain ⟨rfl,rfl⟩ := Prod.mk.inj (Option.some.inj he)
      exact ⟨os,hos,rfl⟩
    · rintro ⟨os,hos,rfl⟩
      exact ⟨_,hos,rfl⟩
  constructor
  · rintro ⟨s₂,outs,rs,vs,hr,hall,hread,hcarry⟩
    obtain ⟨os,hos,rfl⟩ := (hrun s₂ outs).mp hr
    obtain ⟨r',rs,hr',hrs,rfl⟩ := List.forall₂_cons_left_iff.mp hall
    obtain ⟨v,vs,hv,hvs,rfl⟩ := List.forall₂_cons_left_iff.mp hcarry
    rw [List.flatMap_cons,List.length_cons,Resp.readN] at hread
    by_cases hclean : r.Clean
    · refine ⟨hclean,s₂,os,rs,vs,hos,hrs,?_,hvs⟩
      by_cases hclean' : r'.Clean
      · obtain ⟨v',hv',-⟩ := hr'.read hclean' (os.flatMap Output.bytes)
        rw [hv'] at hread
        obtain ⟨⟨vs',t⟩,hrest,he⟩ := Option.map_eq_some_iff.mp hread
        simp only [Prod.mk.injEq,List.cons.injEq] at he
        obtain ⟨⟨-,rfl⟩,rfl⟩ := he
        exact hrest
      · obtain rfl := hr'.unique hsends hclean'
        exact absurd hclean hclean'
    · obtain rfl := hsends.unique hr' hclean
      cases hrd : Resp.read (out.bytes++os.flatMap Output.bytes) with
      | none => simp [hrd] at hread
      | some p =>
        obtain ⟨v',t⟩ := p
        have hbroken := hr'.read_broken hclean _ hrd
        rw [hrd] at hread
        obtain ⟨⟨vs',t'⟩,-,he⟩ := Option.map_eq_some_iff.mp hread
        simp only [Prod.mk.injEq,List.cons.injEq] at he
        obtain ⟨⟨rfl,-⟩,-⟩ := he
        exact absurd hv hbroken
  · rintro ⟨hclean,s₂,os,rs,vs,hos,hall,hread,hcarry⟩
    obtain ⟨v,hv,hcv⟩ := hsends.read hclean (os.flatMap Output.bytes)
    refine ⟨s₂,out::os,r::rs,v::vs,(hrun s₂ _).mpr ⟨os,hos,rfl⟩,hall.cons hsends,?_,hcarry.cons hcv⟩
    rw [List.flatMap_cons,List.length_cons,Resp.readN,hv]
    simp only [hread,Option.map_some]

theorem Stores.repliesParse (h : Stores s fl M T) (h1 : 1 ≤ fl.keyLen)
    {cs : List (List Bytes × Level)} (hcs : ∀ c ∈ cs, Answered c.1) :
    RepliesParse s cs ↔ UnbrokenRun fl M (cs.map Prod.fst) := by
  induction cs generalizing s M T with
  | nil =>
    exact iff_of_true ⟨s,[],[],[],rfl,.nil,rfl,.nil⟩ trivial
  | cons c cs ih =>
    obtain ⟨argv,level⟩ := c
    have ha : Answered argv := hcs (argv,level) (by simp)
    simp only [List.map_cons,UnbrokenRun]
    by_cases hfit : ∀ c, resolve argv = some (.call c) → ScanFits fl M c
    · obtain ⟨s₁,out,T₁,hstep,hsends,hs₁⟩ := h.command h1 ha hfit level
      rw [repliesParse_cons hstep hsends,ih hs₁ fun c hc => hcs c (by simp [hc])]
      refine and_congr_left' ?_
      rw [UnbrokenCommand,refCommand]
      -- only a call can put keys on its line
      by_cases hcall : ∃ c, resolve argv = some (.call c)
      · obtain ⟨c,hres⟩ := hcall
        simp only [hres,Option.some.injEq,Action.call.injEq,forall_eq',codeReply_clean]
        exact (and_iff_right (hfit c hres)).symm
      · refine iff_of_true ?_ fun c hc => absurd ⟨c,hc⟩ hcall
        split
        · exact absurd ⟨_,‹_›⟩ hcall
        · show ¬ CRLF <:+: str "PONG"
          decide
        · trivial
    · refine iff_of_false ?_ fun hu => hfit fun c hc => (hu.1 c hc).1
      push Not at hfit
      obtain ⟨c,hres,hc⟩ := hfit
      rintro ⟨s₂,outs,rs,vs,hr,-⟩
      simp [Tadpole.runCommands,h.command_overflow hres hc] at hr

end

/-- From every store that commands reach, the output of the commands that follow parses into one
reply each, with the payload of its handler, exactly when the lines of every SCAN fit the `int`
write position and no line end comes of the keys that a SCAN or SHOW puts on its status line. -/
theorem repliesParse_iff (fl : FixedLength) (h1 : 1 ≤ fl.keyLen) (cs₀ cs : List (List Bytes × Level))
    (hcs₀ : ∀ c ∈ cs₀, Answered c.1) (hcs : ∀ c ∈ cs, Answered c.1) (s : Server) (outs₀ : List Output)
    (hreach : runCommands (initServer (some fl)) cs₀ = some (s,outs₀)) :
    RepliesParse s cs ↔
      UnbrokenRun fl (refCommands fl OrderedMap.empty (cs₀.map Prod.fst)) (cs.map Prod.fst) := by
  obtain ⟨T,hs⟩ := (initServer_stores fl).runCommands h1 hcs₀ hreach
  exact hs.repliesParse h1 hcs

theorem answered_of_short {argv : List Bytes} {a : Action} (hres : resolve argv = some a)
    (hquit : a ≠ .quit) (hshut : a ≠ .shutdown) (hlen : ∀ b ∈ argv, b.length ≤ 16) : Answered argv := by
  refine ⟨?_,fun b hb => (hlen b hb).trans (by decide),?_,?_⟩
  · rintro rfl
    simp [resolve] at hres
  · rw [hres]
    exact fun he => hquit (Option.some.inj he)
  · rw [hres]
    exact fun he => hshut (Option.some.inj he)

theorem repliesParse_ping_get : RepliesParse (initServer (some ⟨1,1⟩))
    [([str "PING"],genRandomLevel 0),([str "get",str "a"],genRandomLevel 0)] := by
  have hping : resolve [str "PING"] = some .ping := rfl
  have hget : resolve [str "get",str "a"] = some (.call (.get (str "a"))) := rfl
  refine (repliesParse_iff ⟨1,1⟩ le_rfl [] _ (by simp) ?_ _ [] rfl).mpr ?_
  · simp only [List.forall_mem_cons,List.not_mem_nil,false_imp_iff,implies_true,and_true]
    exact ⟨answered_of_short hping nofun nofun (by decide),
      answered_of_short hget nofun nofun (by decide)⟩
  · simp [UnbrokenRun,UnbrokenCommand,hping,hget,ScanFits,Unbroken]

/-- The key CRLF, and a SHOW: its status line ends in front of the first key. -/
theorem show_crlf_not_repliesParse : ¬ RepliesParse (initServer (some ⟨2,1⟩))
    [([str "put",CRLF,str "v"],⟨1,by decide⟩),([str "show"],⟨1,by decide⟩)] := by
  have hput : resolve [str "put",CRLF,str "v"] = some (.call (.put CRLF (str "v"))) := rfl
  have hshow : resolve [str "show"] = some (.call .info) := rfl
  rw [(initServer_stores ⟨2,1⟩).repliesParse (by norm_num)]
  · rintro ⟨-,hu,-⟩
    have hinfo := (hu .info hshow).2
    have hM : (refCommand ⟨2,1⟩ OrderedMap.empty [str "put",CRLF,str "v"]).1 =
        OrderedMap.empty.insert CRLF (str "v") := by
      rw [refCommand,hput]
      rfl
    rw [hM] at hinfo
    rcases hinfo with hsize | ⟨hmin,-⟩
    · exact absurd hsize (by decide)
    · exact hmin CRLF rfl List.infix_rfl
  · simp only [List.forall_mem_cons,List.not_mem_nil,false_imp_iff,implies_true,and_true]
    exact ⟨answered_of_short hput nofun nofun (by decide),
      answered_of_short hshow nofun nofun (by decide)⟩

end Tadpole
