import Tadpole.SkipListReplace

/-! `delete_skiplist`: the tower behind those below the key is unlinked from the top level down, the
list level follows the greatest height left, and its strings are freed only when no chain has it. -/
namespace Tadpole

theorem setLevel_relinked (h : Hist) (n : ℕ) : Relinked h.now (h.setLevel n).now :=
  ⟨rfl,rfl,rfl,rfl,rfl⟩

theorem unlinkLoop_step {q : Addr} {u : Update} (left height : ℕ) {i : ℕ} {h : Hist} {A C : List Addr}
    (T T' : List Tower) (hu : u i = some (Chain.endOf h.now.head A))
    (hc : Chain.Linked (h.now.link i) h.now.head (A++if i < height then q::C else C))
    (hnd : (h.now.head::(A++q::C)).Nodup)
    (hslot : ∃ d, h.now.data (Chain.endOf h.now.head A) = some d ∧ i < d.2.2)
    (hempty : A++C = [] ↔ left ≤ i) (hi : i+1 ≤ max left height) (hlev : h.now.level = max (i+1) left)
    (h0 : 0 < height) (hT : Walkable h.now T) (hT' : i = 0 → T'.map Tower.addr = A++C) (hsub : ∀ t ∈ T', t ∈ T)
    (hlen : T'.length ≤ T.length) :
    ∃ g, unlinkLoop q u (i+1) h = unlinkLoop q u i g ∧ Relinked h.now g.now ∧ g.now.length = h.now.length ∧
      g.now.level = max i left ∧ (∀ j, j ≠ i → ∀ a, g.now.link j a = h.now.link j a) ∧
      Chain.Linked (g.now.link i) h.now.head (A++C) ∧ (0 < i → Walkable g.now T) ∧ (i = 0 → Walkable g.now T') ∧
      SavedThrough h g [T,T'] := by
  have hnext := hc.next_end
  by_cases hlt : i < height
  · rw [if_pos hlt] at hc hnext
    have hafter := (Chain.linked_append hc).2.next_eq
    obtain ⟨d,hd,hid⟩ := hslot
    obtain ⟨h₁,hw₁,hpast₁,hr₁,hlev₁,hlen₁,hlink₁⟩ := setNext_spec (i:=i) C.head? hd hid
    have hgi : Chain.Linked (h₁.now.link i) h.now.head (A++C) := by
      refine hc.erase hnd ?_ ?_
      · rw [hlink₁,if_pos ⟨rfl,rfl⟩]
      · intro b hb
        rw [hlink₁,if_neg (by tauto)]
    have hother : ∀ j, j ≠ i → ∀ a, h₁.now.link j a = h.now.link j a := by
      intro j hj a
      rw [hlink₁,if_neg (by tauto)]
    have hwalk : 0 < i → Walkable h₁.now T := fun hpos =>
      hT.relinked hr₁ (hT.bottom.congr fun a _ => hother 0 (by omega) a)
    have hwalk' : i = 0 → Walkable h₁.now T' := by
      intro hz
      refine ⟨fun t ht => hr₁.holds (hT.holds t (hsub t ht)),?_,?_⟩
      · rw [hr₁.head,hT' hz]
        exact hz ▸ hgi
      · rw [hr₁.nextNode]
        exact hlen.trans_lt hT.rounds
    have hsav : SavedThrough h h₁ [T,T'] := by
      intro s hs
      rw [hpast₁,List.mem_cons] at hs
      rcases hs with rfl | hs
      · exact Or.inr ⟨T,by simp,hT⟩
      · exact Or.inl hs
    have hfirst : h₁.now.link i h₁.now.head = some (A++C).head? := by
      rw [hr₁.head]
      exact hgi.next_eq
    have hstep : unlinkLoop q u (i+1) h =
        if (A++C).head? = none then unlinkLoop q u i (h₁.setLevel (h₁.now.level-1)) else unlinkLoop q u i h₁ := by
      simp only [unlinkLoop,Option.bind_eq_bind,hu,hnext,Option.bind_some,List.head?_cons,hafter,hw₁,
        hfirst,if_true]
    by_cases hdry : left ≤ i
    · have hnil := hempty.mpr hdry
      rw [hstep,hnil]
      have hr₂ : Relinked h.now (h₁.setLevel (h₁.now.level-1)).now := hr₁.trans (setLevel_relinked h₁ _)
      refine ⟨_,rfl,hr₂,hlen₁,?_,hother,hnil ▸ hgi,?_,?_,?_⟩
      · show h₁.now.level-1 = max i left
        omega
      · exact fun hpos => (hwalk hpos).relinked (setLevel_relinked h₁ _) (hwalk hpos).bottom
      · exact fun hz => (hwalk' hz).relinked (setLevel_relinked h₁ _) (hwalk' hz).bottom
      · refine hsav.trans ?_
        rcases Nat.eq_zero_or_pos i with hz | hpos
        · exact .write (hwalk' hz) (by simp)
        · exact .write (hwalk hpos) (by simp)
    · have hne : (A++C).head? ≠ none := by
        rw [ne_eq,List.head?_eq_none_iff,hempty]
        exact hdry
      rw [hstep,if_neg hne]
      exact ⟨h₁,rfl,hr₁,hlen₁,by omega,hother,hgi,hwalk,hwalk',hsav⟩
  · rw [if_neg hlt] at hc hnext
    have hne : C.head? ≠ some q := by
      intro he
      have hm := List.mem_of_mem_head? he
      have hn := (List.nodup_append.mp (List.nodup_cons.mp hnd).2).2.1
      exact (List.nodup_cons.mp hn).1 hm
    have hstep : unlinkLoop q u (i+1) h = unlinkLoop q u i h := by
      simp only [unlinkLoop,Option.bind_eq_bind,hu,hnext,Option.bind_some,if_neg hne]
    exact ⟨h,hstep,.refl _,rfl,by omega,fun _ _ _ => rfl,hc,fun _ => hT,by omega,fun s hs => Or.inl hs⟩

/-- Unlinking from level `i-1` down, where level `j` lists `A j`, then `q` if it is high enough, then
`C j`. The list level is the greater of `i` and the height left. -/
theorem unlinkLoop_spec {q : Addr} {u : Update} (left height : ℕ) {i : ℕ} {h : Hist}
    {A C : ℕ → List Addr} (T T' : List Tower)
    (hu : ∀ j < i, u j = some (Chain.endOf h.now.head (A j)))
    (hchain : ∀ j < i,
      Chain.Linked (h.now.link j) h.now.head (A j++if j < height then q::C j else C j))
    (hnodup : ∀ j < i, (h.now.head::(A j++q::C j)).Nodup)
    (hslot : ∀ j < i, ∃ d, h.now.data (Chain.endOf h.now.head (A j)) = some d ∧ j < d.2.2)
    (hempty : ∀ j < i, A j++C j = [] ↔ left ≤ j) (hi : i ≤ max left height)
    (hlev : h.now.level = max i left) (h0 : 0 < height) (hT : Walkable h.now T)
    (hT' : T'.map Tower.addr = A 0++C 0) (hsub : ∀ t ∈ T', t ∈ T) (hlen : T'.length ≤ T.length) :
    ∃ h', unlinkLoop q u i h = some h' ∧ Relinked h.now h'.now ∧ h'.now.level = left ∧
      h'.now.length = h.now.length ∧
      (∀ j < i, Chain.Linked (h'.now.link j) h.now.head (A j++C j)) ∧
      (∀ j, i ≤ j → ∀ a, h'.now.link j a = h.now.link j a) ∧ SavedThrough h h' [T,T'] := by
  induction i generalizing h with
  | zero => exact ⟨h,rfl,.refl _,by omega,rfl,by simp,by simp,fun s hs => Or.inl hs⟩
  | succ i ih =>
    obtain ⟨g,hstep,hr,hglen,hglev,hother,hgi,hgT,hgT',hsav⟩ := unlinkLoop_step left height T T' (hu i (by omega))
      (hchain i (by omega)) (hnodup i (by omega)) (hslot i (by omega)) (hempty i (by omega)) hi hlev h0 hT
      (fun hz => hz ▸ hT') hsub hlen
    rw [hstep]
    rcases Nat.eq_zero_or_pos i with rfl | hpos
    · refine ⟨g,rfl,hr,by omega,hglen,?_,fun j hj => hother j (by omega),hsav⟩
      intro j hj
      obtain rfl : j = 0 := by omega
      exact hgi
    · -- below level `i` nothing has changed yet
      obtain ⟨h',hl,hr',hlev',hlen',hlow,hhigh,hsav'⟩ := ih (h:=g)
        (fun j hj => by rw [hr.head]; exact hu j (by omega))
        (fun j hj => by
          rw [hr.head]
          exact (hchain j (by omega)).congr fun a _ => hother j (by omega) a)
        (fun j hj => by rw [hr.head]; exact hnodup j (by omega))
        (fun j hj => by rw [hr.head,hr.data]; exact hslot j (by omega))
        (fun j hj => hempty j (by omega)) (by omega) hglev (hgT hpos)
      refine ⟨h',hl,hr.trans hr',hlev',hlen'.trans hglen,?_,?_,hsav.trans hsav'⟩
      · intro j hj
        rcases Nat.lt_succ_iff_lt_or_eq.mp hj with hj | rfl
        · simpa only [hr.head] using hlow j hj
        · exact hgi.congr fun a _ => hhigh j le_rfl a
      · intro j hj a
        rw [hhigh j (by omega),hother j (by omega)]

theorem Shape.eraseTower {m m' : Mem} {T₁ T₂ : List Tower} {t : Tower}
    (h : Shape m (T₁++t::T₂)) (hr : Relinked m m') (hlev : m'.level = maxHeight (T₁++T₂))
    (hchain : ∀ i < MAX_LEVEL, Chain.Linked (m'.link i) m.head (chainAt (T₁++T₂) i)) :
    Shape m' (T₁++T₂) := by
  have hsub : (T₁++T₂).Sublist (T₁++t::T₂) := (List.Sublist.refl T₁).append (List.sublist_cons_self t T₂)
  have hmem : ∀ s ∈ T₁++T₂, s ∈ T₁++t::T₂ := fun s hs => hsub.subset hs
  refine ⟨fun s hs => hr.holds (h.holds s (hmem s hs)),?_,?_,?_,?_,?_,?_,?_,?_,?_,?_⟩
  · rw [hr.data,hr.head]; exact h.head
  · rw [hr.head]; exact hchain
  · rw [hr.head]
    exact h.addrs.sublist ((hsub.map _).cons_cons _)
  · rw [hr.head,hr.nextNode]
    exact fun a ha => h.addrs_lt a (((hsub.map _).cons_cons _).subset ha)
  · refine h.ptrs.sublist ?_
    simp only [allPtrs,List.flatMap_append,List.flatMap_cons]
    exact (List.Sublist.refl _).append (List.sublist_append_right _ _)
  · rw [hr.nextStr]
    intro p hp
    obtain ⟨s,hs,hps⟩ := mem_allPtrs.mp hp
    exact h.ptrs_lt p (mem_allPtrs.mpr ⟨s,hmem s hs,hps⟩)
  · exact fun s hs => h.heights s (hmem s hs)
  · have hl := h.level
    have hle := h.level_le
    rw [if_neg (by simp),maxHeight_append,maxHeight_cons] at hl
    rw [maxHeight_append] at hlev
    omega
  · split_ifs with hT
    · rw [hlev,hT]
      exact Nat.zero_le 1
    · exact hlev
  · rw [hr.nextNode]
    exact hsub.length_le.trans_lt h.rounds

theorem Shape.agree {m m' : Mem} {T : List Tower} (h : Shape m T)
    (hstrs : ∀ p ∈ allPtrs T, m'.strs p = m.strs p)
    (hnodes : ∀ a ∈ m.head::T.map Tower.addr, m'.nodes a = m.nodes a)
    (hhead : m'.head = m.head) (hnode : m'.nextNode = m.nextNode) (hstr : m'.nextStr = m.nextStr)
    (hlev : m'.level = m.level) : Shape m' T := by
  have hdata : ∀ a ∈ m.head::T.map Tower.addr, m'.data a = m.data a := fun a ha => by
    rw [Mem.data,hnodes a ha,Mem.data]
  refine ⟨?_,?_,?_,?_,?_,h.ptrs,?_,h.heights,?_,?_,?_⟩
  · intro t ht
    have hold := h.holds t ht
    refine ⟨(hdata _ (List.mem_cons_of_mem _ (List.mem_map_of_mem ht))).trans hold.data,?_,?_⟩
    · exact (hstrs _ (mem_allPtrs.mpr ⟨t,ht,Or.inl rfl⟩)).trans hold.key
    · exact (hstrs _ (mem_allPtrs.mpr ⟨t,ht,Or.inr rfl⟩)).trans hold.val
  · rw [hhead,hdata _ (by simp)]; exact h.head
  · intro i hi
    rw [hhead]
    refine (h.chain i hi).congr fun a ha => ?_
    rw [Mem.link,hnodes a (((chainAt_sublist T i).cons_cons m.head).subset ha),Mem.link]
  · rw [hhead]; exact h.addrs
  · rw [hhead,hnode]; exact h.addrs_lt
  · rw [hstr]; exact h.ptrs_lt
  · rw [hlev]; exact h.level_le
  · rw [hlev]; exact h.level
  · rw [hnode]; exact h.rounds

theorem freeSkiplistNode_spec {h : Hist} {T : List Tower} {t : Tower} {v : Bytes}
    (hs : Shape h.now T) (ht : h.now.Holds t) (hv : t.val = some v) (hkv : t.keyPtr ≠ t.valPtr)
    (hk : t.keyPtr ∉ allPtrs T) (hvp : t.valPtr ∉ allPtrs T)
    (ha : t.addr ∉ h.now.head::T.map Tower.addr) :
    ∃ h', freeSkiplistNode h t.addr = some h' ∧ Shape h'.now T ∧
      h'.now.length = h.now.length ∧ h'.now.nextStr = h.now.nextStr ∧
      (∀ p, p ≠ t.keyPtr → p ≠ t.valPtr → h'.now.strs p = h.now.strs p) ∧ SavedThrough h h' [T] := by
  obtain ⟨n,hn,hnk,hnv⟩ := ht.node
  let h₁ := h.write {h.now with strs := Function.update h.now.strs t.keyPtr none}
  let h₂ := h₁.write {h₁.now with strs := Function.update h₁.now.strs t.valPtr none}
  let h₃ := h₂.write {h₂.now with nodes := Function.update h₂.now.nodes t.addr none}
  have hs₁ : Shape h₁.now T := by
    refine hs.agree (fun p hp => Function.update_of_ne ?_ ..) (fun _ _ => rfl) rfl rfl rfl rfl
    rintro rfl
    exact hk hp
  have hs₂ : Shape h₂.now T := by
    refine hs₁.agree (fun p hp => Function.update_of_ne ?_ ..) (fun _ _ => rfl) rfl rfl rfl rfl
    rintro rfl
    exact hvp hp
  have hs₃ : Shape h₃.now T := by
    refine hs₂.agree (fun _ _ => rfl) (fun a ha' => Function.update_of_ne ?_ ..) rfl rfl rfl rfl
    rintro rfl
    exact ha ha'
  have e₁ : h.freeStr t.keyPtr = some h₁ := by simp [Hist.freeStr,ht.key,h₁]
  have e₂ : h₁.freeStr t.valPtr = some h₂ := by
    have : h₁.now.strs t.valPtr = some v :=
      (Function.update_of_ne (Ne.symm hkv) ..).trans (ht.val.trans hv)
    simp [Hist.freeStr,this,h₂]
  have e₃ : h₂.freeNode t.addr = some h₃ := by
    have : h₂.now.nodes t.addr = some n := hn
    simp [Hist.freeNode,this,h₃]
  refine ⟨h₃,?_,hs₃,rfl,rfl,?_,?_⟩
  · simp only [freeSkiplistNode,hn,hnk,hnv,e₁,e₂,e₃,Option.bind_eq_bind,Option.bind_some]
  · intro p hpk hpv
    exact (Function.update_of_ne hpv ..).trans (Function.update_of_ne hpk ..)
  · exact ((SavedThrough.write hs.walkable (by simp)).trans
      (.write hs₁.walkable (by simp))).trans (.write hs₂.walkable (by simp))

/-- `delete_skiplist` of a key that compares equal. -/
theorem deleteSkiplist_present {h : Hist} {key v : Bytes} {T₁ T₂ : List Tower} {t : Tower}
    (hs : Shape h.now (T₁++t::T₂)) (hk : SplitsAt key T₁ (t::T₂))
    (heq : slKeyCompare t.key key = .eq) (hv : t.val = some v) :
    ∃ h', deleteSkiplist h key = some (0,h') ∧ Shape h'.now (T₁++T₂) ∧
      h'.now.length = int32 (h.now.length-1) ∧ KeepsForeign h h' (T₁++t::T₂) (T₁++T₂) ∧
      SavedThrough h h' [T₁++t::T₂,T₁++T₂] := by
  obtain ⟨u,hd,hu⟩ := descend_top hs hk
  have ht := hs.holds t (by simp)
  obtain ⟨hkv,hkT,hvT,haT⟩ := hs.own
  have hl : h.now.level = maxHeight (T₁++t::T₂) := by
    have hl := hs.level
    rwa [if_neg (by simp)] at hl
  have h16 : ∀ {j}, j < h.now.level → j < MAX_LEVEL := fun hj => hj.trans_le hs.level_le
  have hchain : ∀ j, chainAt (T₁++t::T₂) j =
      chainAt T₁ j++if j < t.height then t.addr::chainAt T₂ j else chainAt T₂ j := fun j => by
    rw [chainAt_append,chainAt_cons]
  have hmax : max (maxHeight (T₁++T₂)) t.height = maxHeight (T₁++t::T₂) := by
    rw [maxHeight_append,maxHeight_append,maxHeight_cons]
    omega
  have hslot : ∀ j < h.now.level,
      Chain.endOf h.now.head (chainAt T₁ j) ∈ h.now.head::chainAt (T₁++t::T₂) j := fun j hj => by
    have hm := Chain.endOf_mem h.now.head (chainAt T₁ j)
    rw [chainAt_append,List.mem_cons,List.mem_append]
    tauto
  obtain ⟨h₁,hul,hr₁,hlev₁,hlen₁,hlow,hhigh,hsav₁⟩ := unlinkLoop_spec (q:=t.addr) (u:=u)
    (maxHeight (T₁++T₂)) t.height (i:=h.now.level) (h:=h) (A:=chainAt T₁) (C:=chainAt T₂)
    (T₁++t::T₂) (T₁++T₂) hu
    (fun j hj => by rw [← hchain]; exact hs.chain j (h16 hj))
    (fun j hj => by
      have hnd := hs.addrs
      have hsub : (chainAt T₁ j++t.addr::chainAt T₂ j).Sublist ((T₁++t::T₂).map Tower.addr) := by
        rw [List.map_append,List.map_cons]
        exact (chainAt_sublist T₁ j).append ((chainAt_sublist T₂ j).cons_cons _)
      exact hnd.sublist (hsub.cons_cons _))
    (fun j hj => hs.slot (h16 hj) (hslot j hj))
    (fun j _ => by rw [← chainAt_append]; exact chainAt_eq_nil)
    (by omega) (by omega) (hs.heights t (by simp)) hs.walkable
    (by
      rw [← chainAt_append]
      exact (chainAt_zero fun s hs' => hs.heights s (mem_split.mpr (Or.inr hs'))).symm)
    (fun s hs' => mem_split.mpr (Or.inr hs'))
    (by simp)
  have hs₁ : Shape h₁.now (T₁++T₂) := by
    refine hs.eraseTower hr₁ hlev₁ fun i hi => ?_
    rw [chainAt_append]
    by_cases hil : i < h.now.level
    · exact hlow i hil
    · have hnil : chainAt (T₁++t::T₂) i = [] := chainAt_eq_nil.mpr (by omega)
      have hnil' : chainAt T₁ i++chainAt T₂ i = [] := by
        rw [← chainAt_append]
        exact chainAt_eq_nil.mpr (by omega)
      have hc := hs.chain i hi
      rw [hnil] at hc
      rw [hnil']
      exact hc.congr fun a _ => hhigh i (not_lt.mp hil) a
  obtain ⟨h₂,hf,hs₂,hlen₂,hns₂,hstr₂,hsav₂⟩ := freeSkiplistNode_spec hs₁ (hr₁.holds ht) hv hkv hkT
    hvT (by rw [hr₁.head]; exact haT)
  refine ⟨h₂.setLength (int32 (h₂.now.length-1)),?_,hs₂.setLength _,?_,?_,?_⟩
  · simp only [deleteSkiplist,hd,List.map_cons,List.head?_cons,ht.keyOf,heq,hul,hf,
      Option.bind_eq_bind,Option.bind_some,ne_eq,not_true_eq_false,if_false]
  · rw [setLength_length,hlen₂,hlen₁]
  · intro p hp hpT
    have hpk : p ≠ t.keyPtr := by
      rintro rfl
      exact hpT (mem_allPtrs.mpr ⟨t,by simp,Or.inl rfl⟩)
    have hpv : p ≠ t.valPtr := by
      rintro rfl
      exact hpT (mem_allPtrs.mpr ⟨t,by simp,Or.inr rfl⟩)
    refine ⟨?_,?_,?_⟩
    · show p < h₂.now.nextStr
      rw [hns₂,hr₁.nextStr]
      exact hp
    · show h₂.now.strs p = _
      rw [hstr₂ p hpk hpv,hr₁.strs]
    · simp only [allPtrs,List.flatMap_append,List.flatMap_cons,List.mem_append] at hpT ⊢
      tauto
  · exact (hsav₁.trans (hsav₂.mono (by simp))).trans (.write hs₂.walkable (by simp))

theorem deleteSkiplist_absent {h : Hist} {key : Bytes} {T₁ T₂ : List Tower}
    (hs : Shape h.now (T₁++T₂)) (hk : SplitsAt key T₁ T₂)
    (hne : ∀ t ∈ T₂.head?, slKeyCompare t.key key ≠ .eq) :
    deleteSkiplist h key = some (-1,h) := by
  obtain ⟨u,hd,-⟩ := descend_top hs hk
  cases T₂ with
  | nil => simp [deleteSkiplist,hd]
  | cons t T =>
    have ht := (hs.holds t (by simp)).keyOf
    have hne' := hne t (by simp)
    simp [deleteSkiplist,hd,ht,hne']

end Tadpole
