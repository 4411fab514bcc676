import Tadpole.SkipListRuns
import Tadpole.Store

/-! PUT of an absent key when `create_skiplist_node` returns NULL: what is left in the dict and in the
list, and what the commands behind it meet. -/
namespace Tadpole

def Call.Reads : Call → Prop
  | get _ => True
  | scan .. => True
  | info => True
  | _ => False

/-- The failed PUT left the store as it was, and every read answers as if it had not happened. -/
def PutAtomic (s : Server) (key value : Bytes) (level : Level) : Prop :=
  ∃ s' out, (Call.put key value).run s ⟨level,false⟩ = some (s',out) ∧
    s'.dict = s.dict ∧ s'.mem.nodeOf key = none ∧ (∀ i < MAX_LEVEL, s'.mem.chain i = s.mem.chain i) ∧
    s'.mem.level = s.mem.level ∧ s'.mem.length = s.mem.length ∧
    ∀ c : Call, c.Reads → ∀ d, (c.run s' d).map Prod.snd = (c.run s d).map Prod.snd

theorem putCommand_dict {s s' : Server} {key value : Bytes} {val : SdsPtr} {d : Draw} {out : Output}
    (hlegal : s.kvError key value = none) (hkey : key ∉ s.dict)
    (hput : putCommand s key value val d = some (s',out)) : s'.dict = insert key s.dict := by
  rw [putCommand,hlegal] at hput
  simp only [if_neg hkey] at hput
  obtain ⟨p,-,hp⟩ := Option.bind_eq_some_iff.mp hput
  cases hp
  rfl

theorem put_dict {s s' : Server} {key value : Bytes} {d : Draw} {out : Output}
    (hlegal : s.kvError key value = none) (hkey : key ∉ s.dict)
    (hrun : (Call.put key value).run s d = some (s',out)) : s'.dict = insert key s.dict := by
  let m : Mem := ((⟨s.mem,[]⟩ : Hist).newStr value).2.now
  obtain ⟨p,hput,hp⟩ := Option.bind_eq_some_iff.mp hrun
  obtain ⟨h,-,hh⟩ := Option.bind_eq_some_iff.mp hp
  have hdict : p.1.dict = insert key s.dict := putCommand_dict (s:=⟨s.fl,s.dict,m⟩) hlegal hkey hput
  have hs : s' = ⟨p.1.fl,p.1.dict,h.now⟩ := (congrArg Prod.fst (Option.some.inj hh)).symm
  rw [hs]
  exact hdict

/-- The failing allocation is noticed by `insert_skiplist` only, so the key stays in the dict: there is
no store where PUT of an absent key is atomic. -/
theorem not_putAtomic (s : Server) {key value : Bytes} (level : Level)
    (hlegal : s.kvError key value = none) (hkey : key ∉ s.dict) : ¬ PutAtomic s key value level := by
  rintro ⟨s',out,hrun,hdict,-⟩
  rw [put_dict hlegal hkey hrun] at hdict
  exact hkey (hdict ▸ Finset.mem_insert_self key s.dict)

theorem not_putAtomic_top_level : ¬ PutAtomic (initServer (some ⟨1,0⟩)) (str "b") [] (genRandomLevel 15) :=
  not_putAtomic _ _ rfl (Finset.notMem_empty _)

/-- The first PUT of a fresh store. -/
theorem first_put_not_putAtomic :
    ¬ PutAtomic (initServer (some ⟨1,1⟩)) (str "a") (str "1") (genRandomLevel 0) := by
  rintro ⟨s',out,hrun,hdict,-⟩
  have hin : s'.dict = {str "a"} := put_dict rfl (Finset.notMem_empty (str "a")) hrun
  rw [hin] at hdict
  exact absurd (show {str "a"} = (∅ : Finset Bytes) from hdict) (by decide)

theorem find_congr (m m' : Mem) (hlink : m'.link = m.link) (hkey : m'.keyOf = m.keyOf)
    (hrounds : m'.rounds = m.rounds) (key : Bytes) (i : ℕ) (x : Addr) : m'.find key i x = m.find key i x := by
  induction i generalizing x with
  | zero => rfl
  | succ i ih =>
    have hwalk : m'.walk key i x = m.walk key i x := by
      unfold Mem.walk Mem.below
      rw [hlink,hkey,hrounds]
    simp only [Mem.find,hwalk,hkey,ih]

section
variable {s : Server} {fl : FixedLength} {M : KeyMap} {T : List Tower} {key value : Bytes}

/-- With a level above the towers' greatest height an absent key is still missed. -/
theorem Represents.search_raised {m : Mem} {len : ℕ} (hr : Represents m T M len) (hk : key.length = len)
    (hn : M.lookup key = none) {level : ℕ} (hlevel : level ≤ MAX_LEVEL) :
    searchSkiplist {m with level := level} key = some none := by
  obtain ⟨T₁,T₂,rfl,hs,hne,-⟩ := hr.split_absent hk hn
  have hfind := find_miss hr.shape hs (fun t ht => (hne t ht).2) hlevel (onTheWay_head m.head T₁ level)
  have hcongr : Mem.find {m with level := level} key level m.head = m.find key level m.head :=
    find_congr m {m with level := level} rfl rfl rfl key level m.head
  simp only [searchSkiplist,hcongr,hfind,Option.bind_eq_bind,Option.bind_some]

theorem Shape.findMax_raised {m : Mem} (h : Shape m T) {level : ℕ} (hlt : m.level < level)
    (hlevel : level ≤ MAX_LEVEL) : findMaxSkiplist {m with level := level} = none := by
  obtain ⟨i,rfl⟩ : ∃ i, level = i+1 := ⟨level-1,by omega⟩
  have hnil : chainAt T i = [] := chainAt_eq_nil.mpr (h.maxHeight_le.trans (by omega))
  have hfirst : m.link i m.head = some none := by
    rw [(h.chain i (by omega)).next_eq,hnil,List.head?_nil]
  have hraised : ({m with level := i+1} : Mem).link i m.head = some none := hfirst
  simp only [findMaxSkiplist,hraised,Option.bind_eq_bind,Option.bind_some,Option.bind_none]

/-- A failed PUT of an absent key answers OK: the key is in the dict only, the level may have risen above
every node, a GET of the key is undefined, and so is SHOW if the level rose over a list with keys. -/
theorem Stores.put_failed (h : Stores s fl M T) (hk : key.length = fl.keyLen) (hv : value.length = fl.valLen)
    (hn : M.lookup key = none) (level : Level) :
    ∃ s', (Call.put key value).run s ⟨level,false⟩ = some (s',[.addReply OK]) ∧
      s'.dict = insert key M.keys ∧ s'.mem.pairs = some M.entries ∧
      s'.mem.level = max s.mem.level level ∧ s'.mem.length = s.mem.length ∧ getCommand s' key = none ∧
      (s.mem.level < level → s.mem.length ≠ 0 → infoCommand s' = none) := by
  let m : Mem := ((⟨s.mem,[]⟩ : Hist).newStr value).2.now
  have hm : Represents (⟨m,[]⟩ : Hist).now T M fl.keyLen :=
    h.keeps.list.agree (h.keeps.list.shape.newStr (h:=⟨s.mem,[]⟩) value)
  have hval : m.strs s.mem.nextStr = some value := Function.update_self ..
  obtain ⟨h₁,hins,hext,hlev,hlen,-⟩ := hm.insertSkiplist_failed hk hn hval level
  have hlive : h₁.now.strs s.mem.nextStr = some value := (hext.strs _ (Nat.lt_succ_self _)).trans hval
  have hraised : max s.mem.level level.1 ≤ MAX_LEVEL := max_le h.keeps.list.shape.level_le level.2.2
  -- the list behind the failure, but with its old level, and the same after the caller's free
  let h₂ : Hist := ⟨{h₁.now with level := s.mem.level},[]⟩
  have hs₂ : Shape h₂.now T :=
    hm.shape.extends ⟨hext.strs,hext.nodes,hext.nextStr,hext.nextNode,hext.head⟩ rfl
  obtain ⟨h₃,hf,hs₃,hlen₃⟩ := freeForeign_spec hs₂ h.keeps.list.shape.nextStr_notMem hlive
  have hr₃ : Represents h₃.now T M fl.keyLen := hm.agree hs₃
  have hlive₂ : h₂.now.strs s.mem.nextStr = some value := hlive
  simp only [Hist.freeStr,hlive₂,Option.some.injEq] at hf
  have hlevel : h₃.now.level = s.mem.level := by rw [← hf]; rfl
  have hfree : (⟨h₁.now,[]⟩ : Hist).freeStr s.mem.nextStr =
      some ⟨{h₃.now with level := max s.mem.level level},[h₁.now]⟩ := by
    have hmax : max s.mem.level level.1 = h₁.now.level := hlev.symm
    simp only [Hist.freeStr,hlive,← hf,hmax]
    rfl
  have hput : putCommand ⟨s.fl,s.dict,m⟩ key value s.mem.nextStr ⟨level,false⟩ =
      some (⟨s.fl,insert key s.dict,h₁.now⟩,[.addReply OK]) := by
    have hlegal : Server.kvError ⟨s.fl,s.dict,m⟩ key value = none := h.legal (by simpa using ⟨hk,hv⟩)
    have hin : key ∉ s.dict := by rw [h.keeps.mem_dict,hn]; simp
    rw [putCommand,hlegal]
    simp only [if_neg hin,hins,Option.bind_eq_bind,Option.bind_some]
  refine ⟨_,Call.run_put hput hfree,by rw [h.keeps.dict],?_,rfl,?_,?_,fun hlt hpos => ?_⟩
  · exact (hs₃.walkable.relinked
      (setLevel_relinked h₃ (max s.mem.level level)) hs₃.bottom).pairs_live hr₃.content
  · exact hlen₃.trans hlen
  · have hlegal : Server.keyError ⟨s.fl,insert key s.dict,{h₃.now with level := max s.mem.level level}⟩ key =
        none := h.legal (by simpa using hk)
    have hsearch := hr₃.search_raised hk hn hraised
    rw [getCommand,hlegal]
    simp only [Finset.mem_insert,true_or,not_true_eq_false,if_false]
    rw [foundReply,hsearch]
    rfl
  · have hcount : h₃.now.length ≠ 0 := fun h0 => hpos ((hlen₃.trans hlen).symm.trans h0)
    have hmax := hs₃.findMax_raised (by rw [hlevel]; omega : h₃.now.level < max s.mem.level level) hraised
    simp only [infoCommand,Server.orNull,if_neg hcount,hmax]
    cases Option.bind (Mem.link {h₃.now with level := max s.mem.level level} 0 h₃.now.head) fun q =>
      q.bind (Mem.keyOf {h₃.now with level := max s.mem.level level}) <;> rfl

end

end Tadpole
