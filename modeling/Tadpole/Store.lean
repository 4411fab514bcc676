import Tadpole.Reference

/-! The invariant of the store while all keys have one length (dict and skip list agree with one map)
and what each handler does to it, first without and then with the fixed lengths. -/
namespace Tadpole

/-- The skip list of towers `T` represents `M` and the dict has its keys. -/
structure Mirrors (s : Server) (M : KeyMap) (T : List Tower) (len : ℕ) : Prop where
  list : Represents s.mem T M len
  dict : s.dict = M.keys

/-- The skip list of towers `T` represents `M` and the dict has its keys, none of them longer than
the parser lets through. -/
structure Keeps (s : Server) (M : KeyMap) (T : List Tower) (len : ℕ) : Prop where
  list : Represents s.mem T M len
  dict : s.dict = M.keys
  small : ∀ e ∈ M.entries, e.1.length ≤ MAX_ARG ∧ e.2.length ≤ MAX_ARG

theorem Keeps.mirrors {s : Server} {M : KeyMap} {T : List Tower} {len : ℕ} (h : Keeps s M T len) : Mirrors s M T len :=
  ⟨h.list,h.dict⟩

theorem initServer_keeps (fl : Option FixedLength) (len : ℕ) :
    Keeps (initServer fl) OrderedMap.empty [] len where
  list := createSkiplist_represents len
  dict := rfl
  small := by simp

theorem int32_step (n : ℤ) (d : ℤ) : int32 (int32 n+d) = int32 (n+d) := by
  unfold int32
  omega

theorem Represents.agree {m m' : Mem} {T : List Tower} {M : KeyMap} {len : ℕ}
    (h : Represents m T M len) (hs : Shape m' T) : Represents m' T M len :=
  ⟨hs,h.content,h.keyLen⟩

theorem freeForeign_spec {h : Hist} {T : List Tower} {p : SdsPtr} {v : Bytes}
    (hs : Shape h.now T) (hp : p ∉ allPtrs T) (hv : h.now.strs p = some v) :
    ∃ h', h.freeStr p = some h' ∧ Shape h'.now T ∧ h'.now.length = h.now.length := by
  refine ⟨h.write {h.now with strs := Function.update h.now.strs p none},?_,?_,rfl⟩
  · simp [Hist.freeStr,hv]
  · refine hs.agree (fun q hq => Function.update_of_ne ?_ ..) (fun _ _ => rfl) rfl rfl rfl rfl
    rintro rfl
    exact hp hq

section
variable {s : Server} {M : KeyMap} {T : List Tower} {len : ℕ}

theorem Mirrors.mem_dict (h : Mirrors s M T len) {key : Bytes} : key ∈ s.dict ↔ M.lookup key ≠ none := by
  rw [h.dict,ne_eq,OrderedMap.lookup_eq_none,not_not]

theorem Keeps.mem_dict (h : Keeps s M T len) {key : Bytes} : key ∈ s.dict ↔ M.lookup key ≠ none := h.mirrors.mem_dict

theorem Mirrors.length_of_present (h : Mirrors s M T len) {key v : Bytes} (hl : M.lookup key = some v) :
    key.length = len := h.list.keyLen _ (OrderedMap.lookup_eq_some.mp hl)

theorem Keeps.length_of_present (h : Keeps s M T len) {key v : Bytes} (hl : M.lookup key = some v) :
    key.length = len := h.mirrors.length_of_present hl

/-- GET of a key whose length is accepted. -/
theorem Keeps.getCommand (h : Keeps s M T len) (key : Bytes) (hlegal : s.keyError key = none) :
    ∃ out, Tadpole.getCommand s key = some out ∧
      Sends out ((M.lookup key).elim .nil .bulk) := by
  rw [Tadpole.getCommand,hlegal]
  simp only []
  cases hl : M.lookup key with
  | none =>
    rw [if_pos (by rw [h.mem_dict,hl]; simp)]
    exact ⟨_,rfl,.nil⟩
  | some v =>
    obtain ⟨p,hp,hv⟩ := h.list.searchSkiplist_present (h.length_of_present hl) hl
    have hlen := (h.small _ (OrderedMap.lookup_eq_some.mp hl)).2
    have hfound : foundReply s.mem key =
        some [.addReply (str "$"++Decimal.encode v.length++CRLF++v++CRLF)] := by
      rw [foundReply,hp,Option.bind_eq_bind,Option.bind_some,Option.bind_eq_bind,Option.bind_some,hv,
        Option.bind_eq_bind,Option.bind_some,convertToResp_eq hlen]
      rfl
    rw [if_neg (by rw [not_not,h.mem_dict,hl]; simp)]
    exact ⟨_,hfound,.bulk (convertToResp_eq hlen)⟩

def Counts (s s' : Server) (M M' : KeyMap) : Prop :=
  s.mem.length = int32 M.size → s'.mem.length = int32 M'.size

/-- PUT of a pair whose lengths are accepted; the caller's string is left alone. -/
theorem Mirrors.putCommand (h : Mirrors s M T len) (key value : Bytes) {val : SdsPtr} (level : Level)
    (hlegal : s.kvError key value = none) (hlen : key.length = len) (hval : s.mem.strs val = some value)
    (hfree : val ∉ allPtrs T) (hlt : val < s.mem.nextStr) :
    ∃ s' T', Tadpole.putCommand s key value val ⟨level,true⟩ = some (s',[.addReply OK]) ∧
      Mirrors s' (M.insert key value) T' len ∧ s'.fl = s.fl ∧ Counts s s' M (M.insert key value) ∧
      s'.mem.strs val = some value ∧ val ∉ allPtrs T' := by
  rw [Tadpole.putCommand,hlegal]
  have hlist : Represents (⟨s.mem,[]⟩ : Hist).now T M len := h.list
  simp only []
  cases hl : M.lookup key with
  | some w =>
    obtain ⟨h₁,T₁,hrep,hT₁,hcount,hkeep,-⟩ := hlist.replaceSkiplist hlen hl value
    obtain ⟨-,hstr,hnot⟩ := hkeep _ hlt hfree
    have hin : key ∈ s.dict := by rw [h.mem_dict,hl]; simp
    rw [if_pos hin]
    simp only [hrep,Option.bind_eq_bind,Option.bind_some]
    refine ⟨_,T₁,rfl,⟨hT₁,Finset.ext fun k => ?_⟩,rfl,fun hc => ?_,hstr.trans hval,hnot⟩
    · rw [OrderedMap.mem_keys_insert,← h.dict]
      constructor
      · exact Or.inr
      · rintro (rfl | hk)
        · exact hin
        · exact hk
    · rw [OrderedMap.size_insert_present value hl,← hc]
      exact hcount
  | none =>
    obtain ⟨h₁,T₁,hins,hT₁,hcount,hkeep,-⟩ := hlist.insertSkiplist hlen hl hval level
    obtain ⟨-,hstr,hnot⟩ := hkeep _ hlt hfree
    have hin : key ∉ s.dict := by rw [h.mem_dict,hl]; simp
    rw [if_neg hin]
    simp only [hins,Option.bind_eq_bind,Option.bind_some]
    refine ⟨_,T₁,rfl,⟨hT₁,Finset.ext fun k => ?_⟩,rfl,fun hc => ?_,hstr.trans hval,hnot⟩
    · rw [OrderedMap.mem_keys_insert,Finset.mem_insert,h.dict]
    · rw [OrderedMap.size_insert_absent value hl]
      refine hcount.trans ?_
      show int32 (s.mem.length+1) = _
      rw [hc,int32_step]
      rfl

/-- The whole PUT, from the allocation of its value's string to the free of it. -/
theorem Mirrors.put (h : Mirrors s M T len) {key value : Bytes} (level : Level)
    (hlegal : s.kvError key value = none) (hlen : key.length = len) :
    ∃ s' T', (Call.put key value).run s ⟨level,true⟩ = some (s',[.addReply OK]) ∧
      Mirrors s' (M.insert key value) T' len ∧ s'.fl = s.fl ∧ Counts s s' M (M.insert key value) := by
  let m : Mem := ((⟨s.mem,[]⟩ : Hist).newStr value).2.now
  have hm : Mirrors ⟨s.fl,s.dict,m⟩ M T len := ⟨h.list.agree (h.list.shape.newStr (h:=⟨s.mem,[]⟩) value),h.dict⟩
  obtain ⟨s₁,T₁,hput,hs₁,hfl,hcount,hstr,hnot⟩ := hm.putCommand key value level hlegal hlen
    (Function.update_self ..) h.list.shape.nextStr_notMem (Nat.lt_succ_self _)
  obtain ⟨h₂,hf,hs₂,hlen₂⟩ := freeForeign_spec (h:=⟨s₁.mem,[]⟩) hs₁.list.shape hnot hstr
  exact ⟨⟨s₁.fl,s₁.dict,h₂.now⟩,T₁,Call.run_put hput hf,⟨hs₁.list.agree hs₂,hs₁.dict⟩,hfl,
    fun hc => hlen₂.trans (hcount hc)⟩

theorem Keeps.put (h : Keeps s M T len) {key value : Bytes} (level : Level)
    (hlegal : s.kvError key value = none) (hlen : key.length = len) (hk : key.length ≤ MAX_ARG)
    (hv : value.length ≤ MAX_ARG) :
    ∃ s' T', (Call.put key value).run s ⟨level,true⟩ = some (s',[.addReply OK]) ∧
      Keeps s' (M.insert key value) T' len ∧ s'.fl = s.fl ∧ Counts s s' M (M.insert key value) := by
  obtain ⟨s',T',hrun,hs',hfl,hcount⟩ := h.mirrors.put level hlegal hlen
  refine ⟨s',T',hrun,⟨hs'.list,hs'.dict,fun e he => ?_⟩,hfl,hcount⟩
  rcases OrderedMap.mem_insertList he with rfl | he
  · exact ⟨hk,hv⟩
  · exact h.small e he

/-- DELETE of a key whose length is accepted. -/
theorem Mirrors.deleteCommand (h : Mirrors s M T len) (key : Bytes) (hlegal : s.keyError key = none) :
    ∃ s' T', Tadpole.deleteCommand s key =
        some (s',[.addReply (if key ∈ M.keys then str "+1\r\n" else str "+0\r\n")]) ∧
      Mirrors s' (M.erase key) T' len ∧ s'.fl = s.fl ∧ Counts s s' M (M.erase key) := by
  rw [Tadpole.deleteCommand,hlegal]
  simp only []
  cases hl : M.lookup key with
  | none =>
    have hin : key ∉ M.keys := OrderedMap.lookup_eq_none.mp hl
    have herase : M.erase key = M := OrderedMap.erase_absent hl
    rw [if_pos (by rw [h.dict]; exact hin),if_neg hin,herase]
    exact ⟨s,T,rfl,h,rfl,id⟩
  | some v =>
    have hin : key ∈ M.keys := by
      by_contra hn
      simp [OrderedMap.lookup_eq_none.mpr hn] at hl
    have hlist : Represents (⟨s.mem,[]⟩ : Hist).now T M len := h.list
    obtain ⟨h₁,T₁,hdel,hT₁,hcount,-,-⟩ := hlist.deleteSkiplist (h.length_of_present hl) hl
    rw [if_neg (by rw [h.dict,not_not]; exact hin),if_pos hin]
    simp only [hdel,Option.bind_eq_bind,Option.bind_some]
    refine ⟨_,T₁,rfl,⟨hT₁,Finset.ext fun k => ?_⟩,rfl,fun hc => ?_⟩
    · rw [OrderedMap.mem_keys_erase,Finset.mem_erase,h.dict]
    · have hsize := OrderedMap.size_erase hl
      have hz : ((M.erase key).size : ℤ) = (M.size : ℤ)+(-1) := by omega
      refine hcount.trans ?_
      show int32 (s.mem.length-1) = _
      rw [hc,hz,sub_eq_add_neg,int32_step]

theorem Keeps.deleteCommand (h : Keeps s M T len) (key : Bytes) (hlegal : s.keyError key = none) :
    ∃ s' T', Tadpole.deleteCommand s key =
        some (s',[.addReply (if key ∈ M.keys then str "+1\r\n" else str "+0\r\n")]) ∧
      Keeps s' (M.erase key) T' len ∧ s'.fl = s.fl ∧ Counts s s' M (M.erase key) := by
  obtain ⟨s',T',hrun,hs',hfl,hcount⟩ := h.mirrors.deleteCommand key hlegal
  exact ⟨s',T',hrun,⟨hs'.list,hs'.dict,fun e he => h.small e (List.mem_filter.mp he).1⟩,hfl,hcount⟩

end

/-- The fixed-length store: moreover the counter counts the map in an `int`, and every value has the
configured length. -/
structure Stores (s : Server) (fl : FixedLength) (M : KeyMap) (T : List Tower) : Prop where
  mode : s.fl = some fl
  keeps : Keeps s M T fl.keyLen
  length : s.mem.length = int32 M.size
  value : ∀ e ∈ M.entries, e.2.length = fl.valLen

theorem initServer_stores (fl : FixedLength) :
    Stores (initServer (some fl)) fl OrderedMap.empty [] where
  mode := rfl
  keeps := initServer_keeps _ _
  length := (int32_nat (by decide)).symm
  value := by simp

section
variable {s : Server} {fl : FixedLength} {M : KeyMap} {T : List Tower}

theorem lengthError_legal (hm : s.fl = some fl) {legal : FixedLength → Bool} {text : FixedLength → List Bytes}
    (hl : legal fl = true) : s.lengthError legal text = none := by
  rw [Server.lengthError,hm]
  exact if_pos hl

theorem lengthError_illegal (hm : s.fl = some fl) {legal : FixedLength → Bool} {text : FixedLength → List Bytes}
    (hl : legal fl = false) : ∃ e, s.lengthError legal text = some e ∧ Sends e .error := by
  refine ⟨_,?_,.error (text fl)⟩
  rw [Server.lengthError,hm]
  exact if_neg (by simp [hl])

theorem Stores.legal (h : Stores s fl M T) {legal : FixedLength → Bool}
    {text : FixedLength → List Bytes} (hl : legal fl = true) : s.lengthError legal text = none :=
  lengthError_legal h.mode hl

theorem Stores.illegal (h : Stores s fl M T) {legal : FixedLength → Bool}
    {text : FixedLength → List Bytes} (hl : legal fl = false) :
    ∃ e, s.lengthError legal text = some e ∧ Sends e .error := lengthError_illegal h.mode hl

theorem mem_refStep {c : Call} {e : Bytes × Bytes} (he : e ∈ (refStep fl M c).1.entries) :
    e ∈ M.entries ∨ c = .put e.1 e.2 ∧ e.1.length = fl.keyLen ∧ e.2.length = fl.valLen := by
  cases c with
  | put key value =>
    rw [refStep] at he
    split_ifs at he with hkv
    · exact Or.inl he
    · rw [not_or,not_not,not_not] at hkv
      rcases OrderedMap.mem_insertList he with rfl | he
      · exact Or.inr ⟨rfl,hkv⟩
      · exact Or.inl he
  | delete key =>
    rw [refStep] at he
    split_ifs at he
    · exact Or.inl he
    · exact Or.inl (List.mem_filter.mp he).1
    · exact Or.inl he
  | get key =>
    rw [refStep] at he
    split_ifs at he <;> exact Or.inl he
  | scan start stop =>
    rw [refStep] at he
    split_ifs at he <;> exact Or.inl he
  | info => exact Or.inl he

theorem Mirrors.put_fixed (h : Mirrors s M T fl.keyLen) (hm : s.fl = some fl) (key value : Bytes) (level : Level) :
    ∃ s' out T', (Call.put key value).run s ⟨level,true⟩ = some (s',out) ∧
      Sends out (refStep fl M (.put key value)).2 ∧ Mirrors s' (refStep fl M (.put key value)).1 T' fl.keyLen ∧
      s'.fl = some fl ∧ Counts s s' M (refStep fl M (.put key value)).1 := by
  by_cases hkv : key.length = fl.keyLen ∧ value.length = fl.valLen
  · have href : refStep fl M (.put key value) = (M.insert key value,.status (str "OK")) := by
      simp [refStep,hkv]
    obtain ⟨s',T',hrun,hs',hfl,hcount⟩ := h.put level (lengthError_legal hm (by simpa using hkv)) hkv.1
    rw [href]
    exact ⟨s',_,T',hrun,.literal (str "OK"),hs',hfl.trans hm,hcount⟩
  · have href : refStep fl M (.put key value) = (M,.error) := by
      rw [refStep,if_pos]
      tauto
    obtain ⟨e,he,hmatch⟩ : ∃ e, s.kvError key value = some e ∧ Sends e .error :=
      lengthError_illegal hm (by simpa using hkv)
    let m : Mem := ((⟨s.mem,[]⟩ : Hist).newStr value).2.now
    have hlist : Represents m T M fl.keyLen := h.list.agree (h.list.shape.newStr (h:=⟨s.mem,[]⟩) value)
    obtain ⟨h₁,hf,hs₁,hlen₁⟩ := freeForeign_spec (h:=⟨m,[]⟩) hlist.shape
      h.list.shape.nextStr_notMem (Function.update_self ..)
    have hput : Tadpole.putCommand ⟨s.fl,s.dict,m⟩ key value s.mem.nextStr ⟨level,true⟩ =
        some (⟨s.fl,s.dict,m⟩,e) := by
      rw [Tadpole.putCommand,show Server.kvError ⟨s.fl,s.dict,m⟩ key value = some e from he]
    have hrun := Call.run_put hput hf
    rw [href]
    exact ⟨⟨s.fl,s.dict,h₁.now⟩,e,T,hrun,hmatch,⟨hlist.agree hs₁,h.dict⟩,hm,fun hc => hlen₁.trans hc⟩

theorem Mirrors.delete_fixed (h : Mirrors s M T fl.keyLen) (hm : s.fl = some fl) (key : Bytes) :
    ∃ s' out T', Tadpole.deleteCommand s key = some (s',out) ∧
      Sends out (refStep fl M (.delete key)).2 ∧ Mirrors s' (refStep fl M (.delete key)).1 T' fl.keyLen ∧
      s'.fl = some fl ∧ Counts s s' M (refStep fl M (.delete key)).1 := by
  by_cases hk : key.length = fl.keyLen
  · obtain ⟨s',T',hrun,hs',hfl,hcount⟩ := h.deleteCommand key (lengthError_legal hm (by simpa using hk))
    have href : (refStep fl M (.delete key)).1 = M.erase key := by
      rw [refStep,if_neg (not_not.mpr hk)]
      split_ifs with hin
      · rfl
      · exact (OrderedMap.erase_absent (OrderedMap.lookup_eq_none.mpr hin)).symm
    rw [href]
    refine ⟨s',_,T',hrun,?_,hs',hfl.trans hm,hcount⟩
    rw [refStep,if_neg (not_not.mpr hk)]
    by_cases hin : key ∈ M.keys
    · rw [if_pos hin,if_pos hin]
      exact .literal (str "1")
    · rw [if_neg hin,if_neg hin]
      exact .literal (str "0")
  · obtain ⟨e,he,hmatch⟩ : ∃ e, s.keyError key = some e ∧ Sends e .error :=
      lengthError_illegal hm (by simpa using hk)
    rw [refStep,if_pos hk,Tadpole.deleteCommand,he]
    exact ⟨s,e,T,rfl,hmatch,h,hm,id⟩

theorem Stores.get (h : Stores s fl M T) (key : Bytes) :
    ∃ out, getCommand s key = some out ∧
      Sends out (refStep fl M (.get key)).2 := by
  by_cases hk : key.length = fl.keyLen
  · rw [refStep,if_neg (by simpa using hk)]
    exact h.keeps.getCommand key (h.legal (by simpa using hk))
  · obtain ⟨e,he,hmatch⟩ : ∃ e, s.keyError key = some e ∧ Sends e .error :=
      h.illegal (by simpa using hk)
    rw [refStep,if_pos hk,getCommand,he]
    exact ⟨e,rfl,hmatch⟩

theorem Stores.put (h : Stores s fl M T) (key value : Bytes) (level : Level)
    (hk : key.length ≤ MAX_ARG) (hv : value.length ≤ MAX_ARG) :
    ∃ s' out T', (Call.put key value).run s ⟨level,true⟩ = some (s',out) ∧
      Sends out (refStep fl M (.put key value)).2 ∧
      Stores s' fl (refStep fl M (.put key value)).1 T' := by
  obtain ⟨s',out,T',hrun,hsend,hs',hm,hcount⟩ := h.keeps.mirrors.put_fixed h.mode key value level
  refine ⟨s',out,T',hrun,hsend,hm,⟨hs'.list,hs'.dict,fun e he => ?_⟩,hcount h.length,fun e he => ?_⟩
  · rcases mem_refStep he with he | ⟨hc,-,-⟩
    · exact h.keeps.small e he
    · obtain ⟨rfl,rfl⟩ := Call.put.inj hc
      exact ⟨hk,hv⟩
  · exact (mem_refStep he).elim (h.value e) fun hc => hc.2.2

theorem Stores.delete (h : Stores s fl M T) (key : Bytes) :
    ∃ s' out T', deleteCommand s key = some (s',out) ∧
      Sends out (refStep fl M (.delete key)).2 ∧
      Stores s' fl (refStep fl M (.delete key)).1 T' := by
  obtain ⟨s',out,T',hrun,hsend,hs',hm,hcount⟩ := h.keeps.mirrors.delete_fixed h.mode key
  have hsame : ∀ e ∈ (refStep fl M (.delete key)).1.entries, e ∈ M.entries :=
    fun e he => (mem_refStep he).resolve_right fun hc => by cases hc.1
  exact ⟨s',out,T',hrun,hsend,hm,⟨hs'.list,hs'.dict,fun e he => h.keeps.small e (hsame e he)⟩,hcount h.length,
    fun e he => h.value e (hsame e he)⟩

/-- The test of `scanCommand` in front of a line. -/
def selects (start stop k : Bytes) : Bool :=
  slKeyCompare k start ≠ .lt ∧ slKeyCompare k stop ≠ .gt

/-- The loop of `scanCommand` gathers the lines of the selected keys, unless they are too many bytes
for the write position. -/
theorem scanLoop_selects {m : Mem} {start stop : Bytes} {l : List Addr} {ks : List Bytes}
    (hks : l.map m.keyOf = ks.map some) {tmp : Bytes} (htmp : tmp.length < 2147483648) :
    scanLoop m start stop l tmp =
      if (tmp++((ks.filter (selects start stop)).map (·++[LF])).flatten).length < 2147483648
      then some (tmp++((ks.filter (selects start stop)).map (·++[LF])).flatten) else none := by
  induction l generalizing ks tmp with
  | nil =>
    obtain rfl : ks = [] := by simpa using hks.symm
    rw [if_pos (by simpa using htmp)]
    simp [scanLoop]
  | cons x l ih =>
    cases ks with
    | nil => simp at hks
    | cons k ks =>
      obtain ⟨hk,hrest⟩ : m.keyOf x = some k ∧ l.map m.keyOf = ks.map some := by simpa using hks
      rw [scanLoop,hk]
      simp only [Option.bind_eq_bind,Option.bind_some]
      by_cases hsel : slKeyCompare k start ≠ .lt ∧ slKeyCompare k stop ≠ .gt
      · rw [if_pos hsel,List.filter_cons_of_pos (by simpa [selects] using hsel),List.map_cons,List.flatten_cons,
          sdscatfmt]
        have hline : tmp++[k,[LF]].flatten = tmp++k++[LF] := by simp
        rw [hline,← List.append_assoc tmp,← List.append_assoc tmp]
        by_cases hfit : (tmp++k++[LF]).length < 2147483648
        · rw [if_pos hfit,Option.bind_some,ih hrest hfit]
        · rw [if_neg hfit,Option.bind_none,if_neg]
          rw [List.length_append]
          omega
      · rw [if_neg hsel,List.filter_cons_of_neg (by simpa [selects] using hsel)]
        exact ih hrest htmp

theorem scanLoop_eq {m : Mem} {start stop : Bytes} {T : List Tower} (h : ∀ t ∈ T, m.Holds t)
    (hstart : ∀ t ∈ T, t.key.length = start.length) (hstop : ∀ t ∈ T, t.key.length = stop.length)
    {tmp : Bytes} (htmp : tmp.length < 2147483648) :
    scanLoop m start stop (T.map Tower.addr) tmp =
      if (tmp++((OrderedMap.between start stop (T.map Tower.key)).map (·++[LF])).flatten).length
        < 2147483648
      then some (tmp++((OrderedMap.between start stop (T.map Tower.key)).map (·++[LF])).flatten)
      else none := by
  have hks : (T.map Tower.addr).map m.keyOf = (T.map Tower.key).map some := by
    rw [List.map_map,List.map_map]
    exact List.map_congr_left fun t ht => (h t ht).keyOf
  have hsel : (T.map Tower.key).filter (selects start stop) = OrderedMap.between start stop (T.map Tower.key) := by
    refine List.filter_congr fun k hk => ?_
    obtain ⟨t,ht,rfl⟩ := List.mem_map.mp hk
    rw [selects,decide_eq_decide,ne_eq,ne_eq,slKeyCompare_lt (hstart t ht),slKeyCompare_gt (hstop t ht),not_lt,
      not_lt]
  rw [scanLoop_selects hks htmp,hsel]

theorem Represents.key_length {m : Mem} {len : ℕ} (h : Represents m T M len) :
    ∀ t ∈ T, t.key.length = len := by
  intro t ht
  have hm : t.key ∈ M.entries.map Prod.fst := h.keys_eq ▸ List.mem_map_of_mem ht
  obtain ⟨e,he,hek⟩ := List.mem_map.mp hm
  rw [← hek]
  exact h.keyLen e he

theorem Stores.scanLoop (h : Stores s fl M T) {start stop : Bytes} (hstart : start.length = fl.keyLen)
    (hstop : stop.length = fl.keyLen) :
    Tadpole.scanLoop s.mem start stop (T.map Tower.addr) [] =
      if scanSize M start stop < 2147483648
      then some ((M.range start stop).map (·++[LF])).flatten else none := by
  have hk := h.keeps.list.key_length
  rw [scanLoop_eq h.keeps.list.shape.holds (fun t ht => (hk t ht).trans hstart.symm)
    (fun t ht => (hk t ht).trans hstop.symm) (by simp),h.keeps.list.keys_eq]
  simp only [List.nil_append]
  rw [scanSize,← flatten_lines_length]
  rfl

theorem Stores.scan_payload (h : Stores s fl M T) (h1 : 1 ≤ fl.keyLen) {start stop : Bytes}
    (hfit : scanSize M start stop < 2147483648) :
    sdsrange ((M.range start stop).map (·++[LF])).flatten 0 (-2) = joinLines (M.range start stop) := by
  rw [scanSize,← flatten_lines_length] at hfit
  rw [sdsrange_dropLast ?_ hfit,dropLast_lines]
  rw [flatten_lines_length]
  cases hr : M.range start stop with
  | nil => simp
  | cons k l =>
    have hk : k ∈ M.range start stop := by simp [hr]
    obtain ⟨⟨e,he,rfl⟩,-⟩ := (OrderedMap.mem_range.mp hk).imp_left OrderedMap.mem_keys.mp
    have := h.keeps.list.keyLen e he
    simp only [List.map_cons,List.sum_cons]
    omega

theorem Stores.scan (h : Stores s fl M T) (h1 : 1 ≤ fl.keyLen) {start stop : Bytes}
    (hfit : ScanFits fl M (.scan start stop)) :
    ∃ out, scanCommand s start stop = some out ∧
      Sends out (refStep fl M (.scan start stop)).2 := by
  by_cases hk : start.length = fl.keyLen ∧ stop.length = fl.keyLen
  · have hcmp := slKeyCompare_gt (hk.1.trans hk.2.symm)
    have hlegal : s.cursorError start stop = none := h.legal (by simpa using hk)
    rw [scanCommand,hlegal]
    simp only [refStep,hk,ne_eq,not_true_eq_false,or_self,if_false]
    by_cases hlt : stop < start
    · rw [if_pos (hcmp.mpr hlt),if_pos hlt]
      exact ⟨_,rfl,.error _⟩
    · have hf := hfit hk.1 hk.2
      have he : (s.mem.bottom.bind fun nodes => (Tadpole.scanLoop s.mem start stop nodes []).bind
          fun tmp => some (statusLine (sdsrange tmp 0 (-2)))) =
          some (statusLine (joinLines (M.range start stop))) := by
        rw [h.keeps.list.shape.bottom_eq,Option.bind_some,h.scanLoop hk.1 hk.2,if_pos hf,Option.bind_some,
          h.scan_payload h1 hf]
      rw [if_neg (fun hc => hlt (hcmp.mp hc)),if_neg hlt]
      exact ⟨_,he,.line _⟩
  · have href : refStep fl M (.scan start stop) = (M,.error) := by
      rw [refStep,if_pos]
      tauto
    obtain ⟨e,he,hmatch⟩ : ∃ e, s.cursorError start stop = some e ∧
        Sends e .error := h.illegal (by simpa using hk)
    rw [href,scanCommand,he]
    exact ⟨e,rfl,hmatch⟩

/-- A SCAN whose lines do not fit writes through a negative offset. -/
theorem Stores.scan_overflow (h : Stores s fl M T) {start stop : Bytes}
    (hfit : ¬ ScanFits fl M (.scan start stop)) : scanCommand s start stop = none := by
  simp only [ScanFits,not_forall] at hfit
  obtain ⟨hstart,hstop,hbig⟩ := hfit
  have hcmp := slKeyCompare_gt (hstart.trans hstop.symm)
  have hle : ¬ stop < start := by
    intro hlt
    have hnil : M.range start stop = [] := by
      rw [List.eq_nil_iff_forall_not_mem]
      intro k hk
      obtain ⟨-,h₁,h₂⟩ := OrderedMap.mem_range.mp hk
      exact (h₁.trans h₂).not_gt hlt
    simp [scanSize,hnil] at hbig
  have he : (s.mem.bottom.bind fun nodes => (Tadpole.scanLoop s.mem start stop nodes []).bind
      fun tmp => some (statusLine (sdsrange tmp 0 (-2)))) = none := by
    rw [h.keeps.list.shape.bottom_eq,Option.bind_some,h.scanLoop hstart hstop,if_neg hbig,Option.bind_none]
  have hlegal : s.cursorError start stop = none := h.legal (by simp [hstart,hstop])
  rw [scanCommand,hlegal]
  simp only []
  rw [if_neg (fun hc => hle (hcmp.mp hc))]
  exact he

theorem Stores.info (h : Stores s fl M T) :
    infoCommand s = some (statusLine (counterText (int32 M.size) M)) := by
  have hlen := h.length
  have hne : int32 (M.size : ℤ) ≠ 0 → M.entries ≠ [] := by
    rintro hz hnil
    refine hz ?_
    rw [OrderedMap.size,hnil]
    exact int32_nat (by decide)
  have hmin : s.orNull ((s.mem.link 0 s.mem.head).bind fun q => q.bind s.mem.keyOf) =
      some (if int32 (M.size : ℤ) = 0 then str "NULL" else M.least.getD (str "NULL")) := by
    rw [Server.orNull,hlen]
    split_ifs with hz
    · rfl
    · obtain ⟨e,l,he⟩ := List.exists_cons_of_ne_nil (hne hz)
      rw [h.keeps.list.first,OrderedMap.least,he]
      rfl
  have hmax : s.orNull (findMaxSkiplist s.mem) =
      some (if int32 (M.size : ℤ) = 0 then str "NULL" else M.greatest.getD (str "NULL")) := by
    rw [Server.orNull,hlen]
    split_ifs with hz
    · rfl
    · obtain ⟨l,e,he⟩ := (List.eq_nil_or_concat' M.entries).resolve_left (hne hz)
      rw [h.keeps.list.findMaxSkiplist (hne hz),OrderedMap.greatest,he,List.getLast?_concat]
      rfl
  have hkeys : ∀ k ∈ M.entries.map Prod.fst, k.length ≤ 536870912 := by
    intro k hk
    obtain ⟨e,he,rfl⟩ := List.mem_map.mp hk
    exact (h.keeps.small e he).1
  have hnull : (str "NULL").length = 4 := rfl
  have hshort : ∀ o : Option Bytes, (∀ k ∈ o, k.length ≤ 536870912) →
      (if int32 (M.size : ℤ) = 0 then str "NULL" else o.getD (str "NULL")).length ≤ 536870912 := by
    intro o ho
    split_ifs
    · rw [hnull]; omega
    · cases o with
      | none => rw [Option.getD_none,hnull]; omega
      | some k => exact ho k rfl
  have hshort₁ := hshort M.least fun k hk => hkeys k (List.mem_of_mem_head? (by
    rw [List.head?_map]; exact hk))
  have hshort₂ := hshort M.greatest fun k hk => hkeys k (List.mem_of_getLast? (by
    rw [List.getLast?_map]; exact hk))
  have hcat : sdscatfmt [] [str "tadpole:keys=",sdsll2str s.mem.length,str ",min=",
      if int32 (M.size : ℤ) = 0 then str "NULL" else M.least.getD (str "NULL"),str ",max=",
      if int32 (M.size : ℤ) = 0 then str "NULL" else M.greatest.getD (str "NULL")] =
      some (counterText (int32 M.size) M) := by
    have hd : (sdsll2str (int32 (M.size : ℤ))).length ≤ 11 := by
      have hb : (int32 (M.size : ℤ)).natAbs < 10000000000 := by
        unfold int32
        omega
      have he := encode_length_le hb
      unfold sdsll2str
      split_ifs
      · rw [List.length_cons]
        omega
      · omega
    have h₁ : (str "tadpole:keys=").length = 13 := rfl
    have h₂ : (str ",min=").length = 5 := rfl
    have h₃ : (str ",max=").length = 5 := rfl
    rw [sdscatfmt,hlen,List.nil_append,if_pos]
    · simp [counterText]
    · simp only [List.flatten_cons,List.flatten_nil,List.length_append,List.length_nil,h₁,h₂,h₃]
      omega
  rw [infoCommand]
  simp only [Option.bind_eq_bind]
  rw [hmin,Option.bind_some,hmax,Option.bind_some,hcat,Option.bind_some]

theorem counterText_eq (M : KeyMap) (hsize : M.size < 2147483648) :
    counterText (int32 M.size) M = infoText M := by
  have hzero : (M.size : ℤ) = 0 ↔ M.entries = [] := by
    rw [OrderedMap.size]
    simp
  rw [counterText,infoText,int32_nat hsize,sdsll2str_nat]
  split_ifs with hz
  · rw [OrderedMap.least,OrderedMap.greatest,hzero.mp hz]
    rfl
  · rfl

theorem encode_noComma (n : ℕ) : (44 : UInt8) ∉ Decimal.encode n :=
  fun hm => absurd (Decimal.encode_isDigit n 44 hm) (by decide)

theorem sdsll2str_noComma (n : ℤ) : (44 : UInt8) ∉ sdsll2str n := by
  have henc := encode_noComma n.natAbs
  unfold sdsll2str
  split_ifs
  · simpa using henc
  · exact henc

theorem sdsll2str_eq_encode {n : ℤ} {m : ℕ} (h : sdsll2str n = Decimal.encode m) : n = m := by
  unfold sdsll2str at h
  split_ifs at h with hn
  · have hd : Decimal.IsDigit 45 := Decimal.encode_isDigit m 45 (by rw [← h]; simp)
    exact absurd hd (by decide)
  · have := Decimal.encode_injective h
    omega

theorem counterText_prefix {n : ℤ} {M M' : KeyMap} {t : Bytes}
    (h : counterText n M = infoText M'++t) : n = M'.size := by
  have hcomma : ∀ t : Bytes, str ",min="++t = 44::(str "min="++t) := fun t => rfl
  simp only [counterText,infoText,List.append_assoc,hcomma] at h
  exact sdsll2str_eq_encode (front_inj (sdsll2str_noComma _) (encode_noComma _)
    (List.append_cancel_left h))

theorem int32_lt (n : ℤ) : int32 n < 2147483648 := by
  unfold int32
  omega

end

end Tadpole
