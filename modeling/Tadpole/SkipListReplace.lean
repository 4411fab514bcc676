import Tadpole.SkipListInsert

/-! Overwriting the value of a tower: `replace_skiplist`, and `insert_skiplist` of a key that
compares equal to a stored one. Both free the old value before the new one is in place. -/
namespace Tadpole

theorem Shape.revalue {m m' : Mem} {T₁ T₂ : List Tower} {t t' : Tower}
    (h : Shape m (T₁++t::T₂)) (ht : t'.addr = t.addr ∧ t'.height = t.height ∧ t'.keyPtr = t.keyPtr)
    (hlink : m'.link = m.link) (hhead : m'.head = m.head) (hnode : m'.nextNode = m.nextNode)
    (hlev : m'.level = m.level) (hstr : m.nextStr ≤ m'.nextStr)
    (hdata : ∀ a, a ≠ t.addr → m'.data a = m.data a)
    (hstrs : ∀ p ∈ allPtrs (T₁++t::T₂), p ≠ t.valPtr → m'.strs p = m.strs p) (hnew : m'.Holds t')
    (hptr : t'.valPtr = t.valPtr ∨ t'.valPtr ∉ allPtrs (T₁++t::T₂) ∧ t'.valPtr < m'.nextStr) :
    Shape m' (T₁++t'::T₂) := by
  obtain ⟨ha,hh,hk⟩ := ht
  have hperm := allPtrs_perm T₁ T₂ t
  have hperm' := allPtrs_perm T₁ T₂ t'
  rw [hk] at hperm'
  obtain ⟨hkv,hkT,hvT,haT⟩ := h.own
  have haddr : (T₁++t'::T₂).map Tower.addr = (T₁++t::T₂).map Tower.addr := by simp [ha]
  have hchain : ∀ i, chainAt (T₁++t'::T₂) i = chainAt (T₁++t::T₂) i := by
    simp [chainAt_cons,ha,hh]
  have hmax : maxHeight (T₁++t'::T₂) = maxHeight (T₁++t::T₂) := by simp [maxHeight_append,hh]
  have hrest : ∀ s ∈ T₁++T₂, m'.Holds s := by
    intro s hs
    have hold := h.holds s (mem_split.mpr (Or.inr hs))
    have hkey : s.keyPtr ∈ allPtrs (T₁++T₂) := mem_allPtrs.mpr ⟨s,hs,Or.inl rfl⟩
    have hval : s.valPtr ∈ allPtrs (T₁++T₂) := mem_allPtrs.mpr ⟨s,hs,Or.inr rfl⟩
    have hne : s.addr ≠ t.addr := fun he => haT (List.mem_cons_of_mem _ (he ▸ List.mem_map_of_mem hs))
    refine ⟨(hdata _ hne).trans hold.data,?_,?_⟩
    · exact (hstrs _ (hperm.mem_iff.mpr (by simp [hkey])) (fun he => hvT (he ▸ hkey))).trans hold.key
    · exact (hstrs _ (hperm.mem_iff.mpr (by simp [hval])) (fun he => hvT (he ▸ hval))).trans hold.val
  refine ⟨?_,?_,?_,?_,?_,?_,?_,?_,?_,?_,?_⟩
  · intro s hs
    rcases mem_split.mp hs with rfl | hs
    · exact hnew
    · exact hrest s hs
  · obtain ⟨d,hd,hl⟩ := h.head
    refine ⟨d,?_,hl⟩
    rw [hhead,hdata m.head ?_]
    · exact hd
    · exact fun he => haT (he ▸ List.mem_cons_self)
  · intro i hi
    rw [hlink,hhead,hchain]
    exact h.chain i hi
  · rw [hhead,haddr]; exact h.addrs
  · rw [hhead,hnode,haddr]; exact h.addrs_lt
  · refine hperm'.nodup_iff.mpr ?_
    rcases hptr with he | ⟨hn,-⟩
    · rw [he]
      exact hperm.nodup_iff.mp h.ptrs
    · rw [hperm.mem_iff] at hn
      simp only [List.mem_cons,not_or] at hn
      simp only [List.nodup_cons,List.mem_cons,not_or]
      exact ⟨⟨Ne.symm hn.1,hkT⟩,hn.2.2,(List.nodup_cons.mp (List.nodup_cons.mp (hperm.nodup_iff.mp h.ptrs)).2).2⟩
  · intro p hp
    rcases List.mem_cons.mp (hperm'.mem_iff.mp hp) with rfl | hp
    · exact (h.ptrs_lt _ (hperm.mem_iff.mpr (by simp))).trans_le hstr
    · rcases List.mem_cons.mp hp with rfl | hp
      · rcases hptr with he | ⟨-,hlt⟩
        · rw [he]
          exact (h.ptrs_lt _ (hperm.mem_iff.mpr (by simp))).trans_le hstr
        · exact hlt
      · exact (h.ptrs_lt _ (hperm.mem_iff.mpr (by simp [hp]))).trans_le hstr
  · intro s hs
    rcases mem_split.mp hs with rfl | hs
    · exact hh ▸ h.heights t (by simp)
    · exact h.heights s (mem_split.mpr (Or.inr hs))
  · rw [hlev]; exact h.level_le
  · have hl := h.level
    rw [if_neg (by simp)] at hl ⊢
    rw [hlev,hmax,hl]
  · have hr := h.rounds
    rw [hnode]
    simpa using hr

theorem freeVal_spec {h : Hist} {T₁ T₂ : List Tower} {t : Tower} {v : Bytes}
    (hs : Shape h.now (T₁++t::T₂)) (hv : t.val = some v) :
    ∃ h', h.freeStr t.valPtr = some h' ∧ h'.past = h.now::h.past ∧
      Shape h'.now (T₁++{t with val := none}::T₂) ∧ h'.now.length = h.now.length ∧
      h'.now.nextStr = h.now.nextStr ∧ h'.now.nodes = h.now.nodes ∧
      h'.now.strs t.valPtr = none ∧ ∀ p, p ≠ t.valPtr → h'.now.strs p = h.now.strs p := by
  have ht := hs.holds t (by simp)
  have hstr : h.now.strs t.valPtr = some v := ht.val.trans hv
  have he : h.freeStr t.valPtr = some (h.write
      {h.now with strs := Function.update h.now.strs t.valPtr none}) := by
    simp [Hist.freeStr,hstr]
  have hne := hs.own.1
  refine ⟨_,he,rfl,?_,rfl,rfl,rfl,Function.update_self ..,fun p hp => Function.update_of_ne hp ..⟩
  refine hs.revalue ⟨rfl,rfl,rfl⟩ rfl rfl rfl rfl le_rfl (fun _ _ => rfl)
    (fun p _ hp => Function.update_of_ne hp ..) ⟨ht.data,?_,?_⟩ (Or.inl rfl)
  · exact (Function.update_of_ne hne ..).trans ht.key
  · exact Function.update_self ..

theorem setVal_spec {h : Hist} {T₁ T₂ : List Tower} {t : Tower} {p : SdsPtr}
    (hs : Shape h.now (T₁++t::T₂)) (hp : p ∉ allPtrs (T₁++t::T₂)) (hlt : p < h.now.nextStr) :
    ∃ h', h.setVal t.addr p = some h' ∧ h'.past = h.now::h.past ∧
      Shape h'.now (T₁++{t with valPtr := p, val := h.now.strs p}::T₂) ∧
      h'.now.length = h.now.length ∧ h'.now.nextStr = h.now.nextStr ∧
      h'.now.strs = h.now.strs := by
  have ht := hs.holds t (by simp)
  obtain ⟨n,hn,hd⟩ := Option.map_eq_some_iff.mp ht.data
  simp only [Prod.mk.injEq] at hd
  have he : h.setVal t.addr p = some (h.write
      {h.now with nodes := Function.update h.now.nodes t.addr (some {n with val := p})}) := by
    simp [Hist.setVal,hn]
  refine ⟨_,he,rfl,?_,rfl,rfl,rfl⟩
  refine hs.revalue ⟨rfl,rfl,rfl⟩ ?_ rfl rfl rfl le_rfl ?_ (fun _ _ _ => rfl) ⟨?_,ht.key,rfl⟩
    (Or.inr ⟨hp,hlt⟩)
  · funext i a
    by_cases ha : a = t.addr
    · subst ha; simp [Mem.link,Hist.write,hn]
    · simp [Mem.link,Hist.write,ha]
  · intro a ha
    simp [Mem.data,Hist.write,ha]
  · simp [Mem.data,Hist.write,hd]

theorem Shape.extends {m m' : Mem} {T : List Tower} (h : Shape m T) (he : Extends m m')
    (hl : m'.level = m.level) : Shape m' T where
  holds := h.holds_of_extends he
  head := by
    obtain ⟨d,hd,hl⟩ := h.head
    exact ⟨d,by rw [he.head,he.data (h.addrs_lt _ (by simp))]; exact hd,hl⟩
  chain i hi := h.chain_of_extends he hi
  addrs := by rw [he.head]; exact h.addrs
  addrs_lt a ha := by
    rw [he.head] at ha
    exact (h.addrs_lt a ha).trans_le he.nextNode
  ptrs := h.ptrs
  ptrs_lt p hp := (h.ptrs_lt p hp).trans_le he.nextStr
  heights := h.heights
  level_le := by rw [hl]; exact h.level_le
  level := by rw [hl]; exact h.level
  rounds := h.rounds.trans_le he.nextNode

theorem Shape.newStr {h : Hist} {T : List Tower} (hs : Shape h.now T) (s : Bytes) :
    Shape (h.newStr s).2.now T := hs.extends (newStr_extends h s) rfl

theorem Shape.nextStr_notMem {m : Mem} {T : List Tower} (h : Shape m T) :
    m.nextStr ∉ allPtrs T := fun hp => lt_irrefl _ (h.ptrs_lt _ hp)

/-- `insert_skiplist` where a stored key compares equal: the node takes the caller's pointer. -/
theorem insertSkiplist_present {h : Hist} {key v : Bytes} {val : SdsPtr} {T₁ T₂ : List Tower}
    {t : Tower} (target : Level) (malloc : Bool) (hs : Shape h.now (T₁++t::T₂))
    (hk : SplitsAt key T₁ (t::T₂)) (heq : slKeyCompare t.key key = .eq) (hold : t.val = some v)
    (hp : val ∉ allPtrs (T₁++t::T₂)) (hlt : val < h.now.nextStr) :
    ∃ h', insertSkiplist h key val target malloc = some (0,h') ∧
      Shape h'.now (T₁++{t with valPtr := val, val := h.now.strs val}::T₂) ∧
      h'.now.length = int32 (h.now.length+1) ∧ h'.now.nextStr = h.now.nextStr ∧
      (∀ p, p ≠ t.valPtr → h'.now.strs p = h.now.strs p) ∧
      ∃ s ∈ h'.past, Walkable s (T₁++{t with val := none}::T₂) := by
  obtain ⟨u,hd,-⟩ := descend_top hs hk
  have hhit := hits_true hs heq
  obtain ⟨n,hn,-,hnv⟩ := (hs.holds t (by simp)).node
  obtain ⟨h₁,hf,-,hs₁,hlen₁,hns₁,-,-,hstr₁⟩ := freeVal_spec hs hold
  have hp' : val ∉ allPtrs (T₁++{t with val := none}::T₂) := by simpa [allPtrs,Tower.ptrs] using hp
  obtain ⟨h₂,hw,hpast₂,hs₂,hlen₂,hns₂,hstr₂⟩ := setVal_spec hs₁ hp' (by rw [hns₁]; exact hlt)
  have hval : val ≠ t.valPtr := by
    rintro rfl
    exact hp (mem_allPtrs.mpr ⟨t,by simp,Or.inr rfl⟩)
  refine ⟨h₂.setLength (int32 (h₂.now.length+1)),?_,?_,?_,?_,?_,h₁.now,?_,hs₁.walkable⟩
  · simp only [insertSkiplist,hd,hhit,List.map_cons,List.head?_cons,hn,hnv,hf,hw,Option.bind_eq_bind,
      Option.bind_some,if_true]
  · rw [← hstr₁ val hval]
    exact hs₂.setLength _
  · rw [setLength_length,hlen₂,hlen₁]
  · exact hns₂.trans hns₁
  · intro p hpv
    show h₂.now.strs p = _
    rw [hstr₂,hstr₁ p hpv]
  · rw [setLength_past,hpast₂]
    simp

/-- A dead value cannot be overwritten: it would be freed twice. -/
theorem insertSkiplist_dead {h : Hist} {key : Bytes} {T₁ T₂ : List Tower} {t : Tower}
    (val : SdsPtr) (target : Level) (malloc : Bool) (hs : Shape h.now (T₁++t::T₂))
    (hk : SplitsAt key T₁ (t::T₂)) (heq : slKeyCompare t.key key = .eq) (hold : t.val = none) :
    insertSkiplist h key val target malloc = none := by
  obtain ⟨u,hd,-⟩ := descend_top hs hk
  have hhit := hits_true hs heq
  obtain ⟨n,hn,-,hnv⟩ := (hs.holds t (by simp)).node
  have hf : h.freeStr t.valPtr = none := by
    have := (hs.holds t (by simp)).val.trans hold
    simp [Hist.freeStr,this]
  simp only [insertSkiplist,hd,hhit,List.map_cons,List.head?_cons,hn,hnv,hf,Option.bind_eq_bind,
    Option.bind_some,if_true,Option.bind_none]

/-- `replace_skiplist` of the one key that compares equal. -/
theorem replaceSkiplist_present {h : Hist} {key v w : Bytes} {T₁ T₂ : List Tower} {t : Tower}
    (hs : Shape h.now (T₁++t::T₂)) (hk : SplitsAt key T₁ (t::T₂))
    (heq : slKeyCompare key t.key = .eq) (hne : ∀ t' ∈ T₂, slKeyCompare key t'.key ≠ .eq)
    (hold : t.val = some v) :
    ∃ h' t', replaceSkiplist h key w = some (0,h') ∧ Shape h'.now (T₁++t'::T₂) ∧
      t'.key = t.key ∧ t'.val = some w ∧ t'.height = t.height ∧ t'.addr = t.addr ∧
      h'.now.length = h.now.length ∧ KeepsForeign h h' (T₁++t::T₂) (T₁++t'::T₂) ∧
      ∃ s ∈ h'.past, Walkable s (T₁++{t with val := none}::T₂) := by
  have hfind := find_hit hs hk heq hne hs.level_pos hs.level_le (onTheWay_head h.now.head T₁ h.now.level)
  obtain ⟨n,hn,-,hnv⟩ := (hs.holds t (by simp)).node
  obtain ⟨h₁,hf,hpast₁,hs₁,hlen₁,hns₁,-,-,hstr₁⟩ := freeVal_spec hs hold
  have hs₂ := hs₁.newStr w
  obtain ⟨h₃,hw,hpast₃,hs₃,hlen₃,hns₃,hstr₃⟩ :=
    setVal_spec (p:=h₁.now.nextStr) hs₂ hs₁.nextStr_notMem (Nat.lt_succ_self _)
  refine ⟨h₃,_,?_,hs₃,rfl,?_,rfl,rfl,hlen₃.trans hlen₁,?_,(h₁.newStr w).2.now,?_,hs₂.walkable⟩
  · simp only [replaceSkiplist,hfind,hn,hnv,hf,Option.bind_eq_bind,Option.bind_some]
    exact congrArg (fun o : Option Hist => o.bind fun h => some ((0 : ℤ),h)) hw
  · exact Function.update_self ..
  · intro p hp hpT
    have hown : p ≠ t.keyPtr ∧ p ≠ t.valPtr := by
      constructor <;> rintro rfl
      · exact hpT (mem_allPtrs.mpr ⟨t,by simp,Or.inl rfl⟩)
      · exact hpT (mem_allPtrs.mpr ⟨t,by simp,Or.inr rfl⟩)
    have hlt : p < h₁.now.nextStr := by rw [hns₁]; exact hp
    refine ⟨?_,?_,?_⟩
    · rw [hns₃]
      exact hlt.trans (Nat.lt_succ_self _)
    · rw [hstr₃,← hstr₁ p hown.2]
      exact (newStr_extends h₁ w).strs p hlt
    · refine notMem_allPtrs_insert ?_ hown.1 hlt.ne
      simp only [allPtrs,List.flatMap_append,List.flatMap_cons,List.mem_append] at hpT ⊢
      tauto
  · rw [hpast₃]
    simp

theorem replaceSkiplist_absent {h : Hist} {key w : Bytes} {T₁ T₂ : List Tower}
    (hs : Shape h.now (T₁++T₂)) (hk : SplitsAt key T₁ T₂)
    (hne : ∀ t ∈ T₂, slKeyCompare key t.key ≠ .eq) :
    replaceSkiplist h key w = some (-1,h) := by
  have hfind := find_miss hs hk hne hs.level_le (onTheWay_head h.now.head T₁ h.now.level)
  simp only [replaceSkiplist,hfind,Option.bind_eq_bind,Option.bind_some]

theorem searchSkiplist_present {m : Mem} {key : Bytes} {T₁ T₂ : List Tower} {t : Tower}
    (hs : Shape m (T₁++t::T₂)) (hk : SplitsAt key T₁ (t::T₂))
    (heq : slKeyCompare key t.key = .eq) (hne : ∀ t' ∈ T₂, slKeyCompare key t'.key ≠ .eq) :
    searchSkiplist m key = some (some t.valPtr) := by
  have hfind := find_hit hs hk heq hne hs.level_pos hs.level_le (onTheWay_head m.head T₁ m.level)
  obtain ⟨n,hn,-,hnv⟩ := (hs.holds t (by simp)).node
  simp only [searchSkiplist,hfind,hn,hnv,Option.bind_eq_bind,Option.bind_some]

theorem searchSkiplist_absent {m : Mem} {key : Bytes} {T₁ T₂ : List Tower}
    (hs : Shape m (T₁++T₂)) (hk : SplitsAt key T₁ T₂)
    (hne : ∀ t ∈ T₂, slKeyCompare key t.key ≠ .eq) : searchSkiplist m key = some none := by
  have hfind := find_miss hs hk hne hs.level_le (onTheWay_head m.head T₁ m.level)
  simp only [searchSkiplist,hfind,Option.bind_eq_bind,Option.bind_some]

theorem findMaxSkiplist_last {m : Mem} {T : List Tower} {t : Tower} (hs : Shape m (T++[t])) :
    findMaxSkiplist m = some t.key := by
  have hl : m.level = maxHeight (T++[t]) := by
    have hl := hs.level
    rwa [if_neg (by simp)] at hl
  have ht := hs.heights t (by simp)
  obtain ⟨i,hi⟩ : ∃ i, m.level = i+1 := by
    rw [maxHeight_append,maxHeight_cons] at hl
    exact ⟨m.level-1,by omega⟩
  have h16 : i < MAX_LEVEL := by have := hs.level_le; omega
  have hne : chainAt (T++[t]) i ≠ [] := fun h => by
    have := chainAt_eq_nil.mp h
    omega
  obtain ⟨a,l,hal⟩ := List.exists_cons_of_ne_nil hne
  have hfirst : m.link i m.head = some (some a) := by
    have := (hs.chain i h16).next_eq
    rwa [hal] at this
  -- the entry node lies on the bottom chain, so the walk along level 0 ends at its end
  have ha : a ∈ (T++[t]).map Tower.addr :=
    (chainAt_sublist (T++[t]) i).subset (by rw [hal]; simp)
  obtain ⟨l₁,l₂,hsplit⟩ := List.append_of_mem ha
  have hb := hs.bottom
  have hlen := hs.rounds
  have hlast : Chain.endOf a l₂ = t.addr := by
    have he : Chain.endOf m.head (l₁++a::l₂) = t.addr := by
      rw [← hsplit,List.map_append,Chain.endOf_append]
      rfl
    rwa [Chain.endOf_append,Chain.endOf_cons] at he
  have hcount : l₂.length < m.rounds := by
    have := congrArg List.length hsplit
    simp only [List.length_map,List.length_append,List.length_cons] at this hlen
    unfold Mem.rounds
    omega
  rw [hsplit] at hb
  have hrest : Chain.Linked (m.link 0) a (l₂++[]) := by simpa using (Chain.linked_append hb).2
  have hseek : Chain.seek (m.link 0) (fun _ => some true) m.rounds a = some (Chain.endOf a l₂,none) :=
    Chain.seek_linked hrest hcount (fun _ _ => rfl) (by simp)
  have hkey := (hs.holds t (by simp)).keyOf
  rw [hlast] at hseek
  simp only [findMaxSkiplist,hi,hfirst,hseek,hkey,Option.bind_eq_bind,Option.bind_some]

end Tadpole
