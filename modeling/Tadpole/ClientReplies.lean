import Tadpole.HiredisReader
import Tadpole.SaveDb
import Tadpole.Serving

/-! The replies of the server as values of the bundled client: every answer to a request that is no status line with a
carriage return is the encoding of one value, and its line fits the positions of the reader. -/
namespace Tadpole

/-- What the client makes of a reply; the text of an error is free. -/
inductive Says : Reply → RedisReply → Prop
  | bulk (v : Bytes) : Says (.bulk v) (.string v)
  | nil : Says .nil .nil
  | status (s : Bytes) : Says (.status s) (.status s)
  | error (s : Bytes) : Says .error (.error s)

def RedisReply.Short (v : RedisReply) : Prop := v.encode.length+33792 < 2147483648

/-- The output is the encoding of a value that says the reply. -/
structure Delivers (out : Output) (r : Reply) (v : RedisReply) : Prop where
  bytes : out.bytes = v.encode
  means : Says r v
  fits : v.Fits 8
  short : v.Short

def Reply.size : Reply → ℕ
  | bulk v => v.length
  | status s => s.length
  | _ => 0

theorem Sends.delivers {out : Output} {r : Reply} (h : Sends out r) (hc : r.Clean) (hsize : r.size ≤ 2147440000)
    (herr : r = .error → out.bytes.length ≤ 2147440000) : ∃ v, Delivers out r v := by
  have hm := h.matches
  cases r with
  | bulk v =>
    change v.length ≤ 2147440000 at hsize
    have hdigits := encode_length_le (n:=v.length) (by omega)
    refine ⟨.string v,hm,.bulk v,trivial,?_⟩
    simp only [RedisReply.Short,RedisReply.encode,List.length_append,show (str "$").length = 1 by rfl,
      show CRLF.length = 2 by rfl]
    omega
  | nil => exact ⟨.nil,hm,.nil,trivial,by rw [RedisReply.Short]; decide⟩
  | status s =>
    change s.length ≤ 2147440000 at hsize
    refine ⟨.status s,hm,.status s,hc,?_⟩
    simp only [RedisReply.Short,RedisReply.encode,List.length_append,show (str "+").length = 1 by rfl,
      show CRLF.length = 2 by rfl]
    omega
  | error =>
    obtain ⟨t,ht,hcr,-⟩ := hm
    have hline : out.bytes = (RedisReply.error (str "ERR "++t)).encode := by
      rw [ht]
      rfl
    refine ⟨.error (str "ERR "++t),hline,.error _,Resp.clean_of_notMem ?_,?_⟩
    · rw [List.mem_append,not_or]
      exact ⟨by decide,hcr⟩
    · have := herr rfl
      rw [RedisReply.Short,← hline]
      omega

theorem addReplyErrorFormat_length (pieces : List Bytes) :
    (Output.bytes (addReplyErrorFormat pieces)).length = pieces.flatten.length+7 := by
  simp only [Output.bytes,addReplyErrorFormat,addReplyErrorLength,List.flatMap_cons,List.flatMap_nil,Out.bytes,
    List.length_append,List.length_nil,sanitize,List.length_map,show (str "-ERR ").length = 5 by rfl,
    show CRLF.length = 2 by rfl]
  omega

theorem resolve_error_length {argv : List Bytes} {out : Output} (h : resolve argv = some (.error out)) :
    ∃ name ∈ argv, out.bytes.length ≤ name.length+60 := by
  unfold resolve at h
  split at h
  · cases h
  · rename_i name args
    split at h
    · cases h
    · refine ⟨name,by simp,?_⟩
      split at h
      · obtain rfl := Action.error.inj (Option.some.inj h)
        have := cstr_length_le name
        simp only [addReplyErrorFormat_length,List.flatten_cons,List.flatten_nil,List.length_append,List.length_nil,
          show (str "unknown command '").length = 17 by rfl,show (str "'").length = 1 by rfl]
        omega
      · rename_i cmd hcmd
        split at h
        · obtain rfl := Action.error.inj (Option.some.inj h)
          have hshort : ∀ c ∈ serverCommandsTable, c.name.length ≤ 8 := by decide
          have := hshort cmd (List.mem_of_find?_eq_some hcmd)
          simp only [addReplyErrorFormat_length,List.flatten_cons,List.flatten_nil,List.length_append,
            List.length_nil,show (str "wrong number of arguments for '").length = 31 by rfl,
            show (str "' command").length = 9 by rfl]
          omega
        · rcases Proc.action_cases h with ⟨c,hc,-⟩ | hc | hc <;> cases hc

theorem lengthError_eq {s : Server} {fl : FixedLength} (hm : s.fl = some fl) {legal : FixedLength → Bool}
    {text : FixedLength → List Bytes} (hl : legal fl = false) :
    s.lengthError legal text = some (addReplyErrorFormat (text fl)) := by
  rw [Server.lengthError,hm]
  exact if_neg (by simp [hl])

/-- The lengths are `unsigned int`s. -/
def FixedLength.Unsigned (fl : FixedLength) : Prop := fl.keyLen < 4294967296 ∧ fl.valLen < 4294967296

section
variable {s : Server} {fl : FixedLength} {M : KeyMap} {T : List Tower}

theorem Stores.call_error_length (h : Stores s fl M T) (hfl : fl.Unsigned) {c : Call} (hargs : c.ArgsOk) {d : Draw}
    {s' : Server} {out : Output} (hrun : c.run s d = some (s',out)) (hr : codeReply fl M c = .error) :
    out.bytes.length ≤ 2147440000 := by
  have hkey := encode_length_le (n:=fl.keyLen) (hfl.1.trans (by decide))
  have hval := encode_length_le (n:=fl.valLen) (hfl.2.trans (by decide))
  cases c with
  | get key =>
    by_cases hk : key.length = fl.keyLen
    · simp only [codeReply,refStep,hk,ne_eq,not_true_eq_false,if_false] at hr
      cases hl : M.lookup key <;> simp [hl] at hr
    · have herr : s.keyError key = some _ := lengthError_eq h.mode (by simp [hk])
      simp only [Call.run,getCommand,herr,Option.map_some,Option.some.injEq,Prod.mk.injEq] at hrun
      obtain ⟨-,rfl⟩ := hrun
      simp only [addReplyErrorFormat_length,sdsll2str_nat,List.flatten_cons,List.flatten_nil,List.length_append,
        List.length_nil,show (str "Illegal key length, key length should be ").length = 41 by rfl]
      omega
  | put key value =>
    by_cases hkv : key.length = fl.keyLen ∧ value.length = fl.valLen
    · simp [codeReply,refStep,hkv] at hr
    · have herr : ∀ dict mem, Server.kvError ⟨s.fl,dict,mem⟩ key value = some _ := fun dict mem =>
        lengthError_eq h.mode (by simpa using hkv)
      simp only [Call.run,putCommand,herr,Option.bind_eq_bind,Option.bind_some] at hrun
      obtain ⟨m,-,he⟩ := Option.bind_eq_some_iff.mp hrun
      obtain ⟨-,rfl⟩ := Prod.mk.inj (Option.some.inj he)
      simp only [addReplyErrorFormat_length,sdsll2str_nat,List.flatten_cons,List.flatten_nil,List.length_append,
        List.length_nil,show (str "Illegal kv length, key/value length should be ").length = 46 by rfl,
        show (str "/").length = 1 by rfl]
      omega
  | delete key =>
    by_cases hk : key.length = fl.keyLen
    · simp only [codeReply,refStep,hk,ne_eq,not_true_eq_false,if_false] at hr
      split_ifs at hr
    · have herr : s.keyError key = some _ := lengthError_eq h.mode (by simp [hk])
      simp only [Call.run,deleteCommand,herr,Option.some.injEq,Prod.mk.injEq] at hrun
      obtain ⟨-,rfl⟩ := hrun
      simp only [addReplyErrorFormat_length,sdsll2str_nat,List.flatten_cons,List.flatten_nil,List.length_append,
        List.length_nil,show (str "Illegal key length, key length should be ").length = 41 by rfl]
      omega
  | scan start stop =>
    have hstart : start.length ≤ 536870912 := hargs start (by simp [Call.args])
    have hstop : stop.length ≤ 536870912 := hargs stop (by simp [Call.args])
    have hcs := cstr_length_le start
    have hce := cstr_length_le stop
    by_cases hk : start.length = fl.keyLen ∧ stop.length = fl.keyLen
    · have hlegal : s.cursorError start stop = none := lengthError_legal h.mode (by simp [hk])
      simp only [Call.run,scanCommand,hlegal] at hrun
      split_ifs at hrun with hgt
      · simp only [Option.map_some,Option.some.injEq,Prod.mk.injEq] at hrun
        obtain ⟨-,rfl⟩ := hrun
        simp only [addReplyErrorFormat_length,List.flatten_cons,List.flatten_nil,List.length_append,List.length_nil,
          show (str "CURSORERR '").length = 11 by rfl,show (str "' should less or equal to '").length = 27 by rfl,
          show (str "'").length = 1 by rfl]
        omega
      · have hle : ¬ stop < start := by
          intro hlt
          exact hgt ((slKeyCompare_gt (hk.1.trans hk.2.symm)).mpr hlt)
        simp [codeReply,refStep,hk,hle] at hr
    · have herr : s.cursorError start stop = some _ := lengthError_eq h.mode (by simpa using hk)
      simp only [Call.run,scanCommand,herr,Option.map_some,Option.some.injEq,Prod.mk.injEq] at hrun
      obtain ⟨-,rfl⟩ := hrun
      simp only [addReplyErrorFormat_length,sdsll2str_nat,List.flatten_cons,List.flatten_nil,List.length_append,
        List.length_nil,show (str "Illegal cursor length, key length should be ").length = 44 by rfl]
      omega
  | info => cases hr

theorem Stores.error_length (h : Stores s fl M T) (hfl : fl.Unsigned) {argv : List Bytes} (ha : Answered argv) {d : Draw}
    {s' : Server} {out : Output} {st : Status} (hstep : processCommand s d argv = some (s',out,st))
    (hr : (refCommand fl M argv).2 = .error) : out.bytes.length ≤ 2147440000 := by
  obtain ⟨hne,hargs,hquit,hshut⟩ := ha
  obtain ⟨a,hres⟩ := resolve_isSome hne
  rw [processCommand,hres,Option.bind_some] at hstep
  rw [refCommand,hres] at hr
  rw [hres] at hquit hshut
  cases a with
  | quit => exact absurd rfl hquit
  | shutdown => exact absurd rfl hshut
  | ping => cases hr
  | error o =>
    obtain ⟨name,hname,hlen⟩ := resolve_error_length hres
    have hle : name.length ≤ 536870912 := hargs name hname
    simp only [Action.run,Option.some.injEq,Prod.mk.injEq] at hstep
    obtain ⟨-,rfl,-⟩ := hstep
    omega
  | call c =>
    obtain ⟨⟨s₁,out₁⟩,hrun,he⟩ := Option.map_eq_some_iff.mp hstep
    obtain ⟨-,rfl,-⟩ : s₁ = s' ∧ out₁ = out ∧ Status.ok = st := by simpa using he
    have hc : c.ArgsOk := by
      rcases resolve_cases hres with hc | ⟨_,hc⟩ | ⟨c',hc,hmem⟩ | hc | hc
      · cases hc
      · cases hc
      · obtain rfl := Action.call.inj hc
        exact fun b hb => hargs b (hmem b hb)
      · cases hc
      · cases hc
    exact h.call_error_length hfl hc hrun hr

theorem sdsll2str_int32_length (n : ℤ) : (sdsll2str (int32 n)).length ≤ 11 := by
  have hdigits := encode_length_le (n:=(int32 n).natAbs) (by unfold int32; omega)
  unfold sdsll2str
  split_ifs
  · rw [List.length_cons]
    omega
  · omega

theorem joinLines_length_le (l : List Bytes) : (joinLines l).length ≤ (l.map fun k => k.length+1).sum := by
  rw [← dropLast_lines,← flatten_lines_length,List.length_dropLast]
  exact Nat.sub_le _ _

def LinesFit (fl : FixedLength) (M : KeyMap) : Call → Prop
  | .scan start stop => start.length = fl.keyLen → stop.length = fl.keyLen → scanSize M start stop ≤ 2147440000
  | _ => True

theorem Stores.reply_size (h : Stores s fl M T) {c : Call} (hlines : LinesFit fl M c) :
    (codeReply fl M c).size ≤ 2147440000 := by
  have hkey : ∀ e ∈ M.entries, e.1.length ≤ 536870912 := fun e he => (h.keeps.small e he).1
  have hval : ∀ e ∈ M.entries, e.2.length ≤ 536870912 := fun e he => (h.keeps.small e he).2
  cases c with
  | get key =>
    simp only [codeReply,refStep]
    split_ifs
    · exact Nat.zero_le _
    · cases hl : M.lookup key with
      | none => exact Nat.zero_le _
      | some v => exact (hval _ (OrderedMap.lookup_eq_some.mp hl)).trans (by decide)
  | put key value =>
    simp only [codeReply,refStep]
    split_ifs <;> simp [Reply.size,str]
  | delete key =>
    simp only [codeReply,refStep]
    split_ifs <;> simp [Reply.size,str]
  | scan start stop =>
    simp only [codeReply,refStep]
    split_ifs with hk hlt
    · exact Nat.zero_le _
    · exact Nat.zero_le _
    · rw [not_or,not_not,not_not] at hk
      exact (joinLines_length_le _).trans (hlines hk.1 hk.2)
  | info =>
    have hnumber := sdsll2str_int32_length (M.size : ℤ)
    have hend : ∀ (b : Bool) (o : Option Bytes), (∀ k ∈ o, k.length ≤ 536870912) →
        (if b then str "NULL" else o.getD (str "NULL")).length ≤ 536870912 := by
      intro b o ho
      have hnull : (str "NULL").length ≤ 536870912 := by decide
      cases b
      · cases o with
        | none => exact hnull
        | some k => exact ho k rfl
      · exact hnull
    have hmin := hend (int32 (M.size : ℤ) = 0) M.least fun k hk => by
      obtain ⟨e,he,rfl⟩ := Option.map_eq_some_iff.mp hk
      exact hkey e (List.mem_of_mem_head? he)
    have hmax := hend (int32 (M.size : ℤ) = 0) M.greatest fun k hk => by
      obtain ⟨e,he,rfl⟩ := Option.map_eq_some_iff.mp hk
      exact hkey e (List.mem_of_getLast? he)
    simp only [decide_eq_true_eq] at hmin hmax
    simp only [codeReply,Reply.size,counterText,List.length_append,show (str "tadpole:keys=").length = 13 by rfl,
      show (str ",min=").length = 5 by rfl,show (str ",max=").length = 5 by rfl]
    omega

theorem unbroken_of_notMem (hkeys : ∀ e ∈ M.entries, CR ∉ e.1) (c : Call) : Unbroken fl M c := by
  have hclean : ∀ k : Bytes, CR ∉ k → ¬ CRLF <:+: k := fun k hk => Resp.clean_of_notMem hk
  cases c with
  | scan start stop =>
    intro _ _
    have hrange : ∀ k ∈ M.range start stop, CR ∉ k := by
      intro k hk
      obtain ⟨e,he,rfl⟩ := OrderedMap.mem_keys.mp (OrderedMap.mem_range.mp hk).1
      exact hkeys e he
    refine ⟨fun k hk => hclean k (hrange k hk),fun k hk hlast => ?_⟩
    exact hrange k (List.mem_of_mem_dropLast hk) (List.mem_of_getLast? hlast)
  | info =>
    refine Or.inr ⟨fun k hk => hclean k ?_,fun k hk => hclean k ?_⟩
    · obtain ⟨e,he,rfl⟩ := Option.map_eq_some_iff.mp hk
      exact hkeys e (List.mem_of_mem_head? he)
    · obtain ⟨e,he,rfl⟩ := Option.map_eq_some_iff.mp hk
      exact hkeys e (List.mem_of_getLast? he)
  | get key => trivial
  | put key value => trivial
  | delete key => trivial

/-- Every answer to a command is the encoding of one value. -/
theorem Stores.delivers (h : Stores s fl M T) (hfl : fl.Unsigned) {argv : List Bytes} (ha : Answered argv)
    (hkeys : ∀ e ∈ M.entries, CR ∉ e.1) (hlines : ∀ c, resolve argv = some (.call c) → LinesFit fl M c) {d : Draw}
    {s' : Server} {out : Output} {st : Status} (hstep : processCommand s d argv = some (s',out,st))
    (hsends : Sends out (refCommand fl M argv).2) : ∃ v, Delivers out (refCommand fl M argv).2 v := by
  have hreply : (refCommand fl M argv).2.Clean ∧ (refCommand fl M argv).2.size ≤ 2147440000 := by
    rw [refCommand]
    split
    · rename_i c hc
      exact ⟨(codeReply_clean c).mpr (unbroken_of_notMem hkeys c),h.reply_size (hlines c hc)⟩
    · exact ⟨show ¬ CRLF <:+: str "PONG" by decide,show (str "PONG").length ≤ 2147440000 by decide⟩
    · exact ⟨trivial,Nat.zero_le _⟩
  exact hsends.delivers hreply.1 hreply.2 fun hr => h.error_length hfl ha hstep hr

end

end Tadpole
