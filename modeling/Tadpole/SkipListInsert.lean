import Tadpole.SkipListDescent

/-! `insert_skiplist` of an absent key: a new tower between those below the key and the rest, and
at every write on the way the bottom chain is the old one or the new one. -/
namespace Tadpole

/-- Every memory gone through since `h` shows the saver one of the lists. -/
def SavedThrough (h h' : Hist) (Ts : List (List Tower)) : Prop :=
  ∀ s ∈ h'.past, s ∈ h.past ∨ ∃ T ∈ Ts, Walkable s T

theorem SavedThrough.trans {h h' h'' : Hist} {Ts : List (List Tower)}
    (h₁ : SavedThrough h h' Ts) (h₂ : SavedThrough h' h'' Ts) : SavedThrough h h'' Ts := by
  intro s hs
  rcases h₂ s hs with hs | hs
  · exact h₁ s hs
  · exact Or.inr hs

theorem SavedThrough.write {h : Hist} {m : Mem} {T : List Tower} {Ts : List (List Tower)}
    (hw : Walkable h.now T) (hT : T ∈ Ts) : SavedThrough h (h.write m) Ts := by
  intro s hs
  rcases List.mem_cons.mp hs with rfl | hs
  · exact Or.inr ⟨T,hT,hw⟩
  · exact Or.inl hs

def KeepsForeign (h h' : Hist) (T T' : List Tower) : Prop :=
  ∀ p < h.now.nextStr, p ∉ allPtrs T →
    p < h'.now.nextStr ∧ h'.now.strs p = h.now.strs p ∧ p ∉ allPtrs T'

theorem Walkable.relinked {m m' : Mem} {T : List Tower} (hw : Walkable m T) (h : Relinked m m')
    (hb : Chain.Linked (m'.link 0) m.head (T.map Tower.addr)) : Walkable m' T where
  holds t ht := h.holds (hw.holds t ht)
  bottom := by rw [h.head]; exact hb
  rounds := by rw [h.nextNode]; exact hw.rounds

/-- Linking from level `i-1` down: each of these levels gains `q` behind its predecessor, the
levels above are left alone, and until the end the bottom chain is untouched. -/
theorem linkLoop_spec {q : Addr} {u : Update} {i : ℕ} {h : Hist} {A B : ℕ → List Addr}
    {T : List Tower} (hq : ∃ d, h.now.data q = some d ∧ i ≤ d.2.2)
    (hu : ∀ j < i, u j = some (Chain.endOf h.now.head (A j)))
    (hchain : ∀ j < i, Chain.Linked (h.now.link j) h.now.head (A j++B j))
    (hnodup : ∀ j < i, (h.now.head::(A j++B j)).Nodup)
    (hfresh : ∀ j < i, q ∉ h.now.head::(A j++B j))
    (hslot : ∀ j < i, ∃ d, h.now.data (Chain.endOf h.now.head (A j)) = some d ∧ j < d.2.2)
    (hT : Walkable h.now T) (hAB : 0 < i → T.map Tower.addr = A 0++B 0) :
    ∃ h', linkLoop q u i h = some h' ∧ Relinked h.now h'.now ∧
      h'.now.level = h.now.level ∧ h'.now.length = h.now.length ∧
      (∀ j < i, Chain.Linked (h'.now.link j) h.now.head (A j++q::B j)) ∧
      (∀ j, i ≤ j → ∀ a, h'.now.link j a = h.now.link j a) ∧ SavedThrough h h' [T] := by
  induction i generalizing h with
  | zero => exact ⟨h,rfl,.refl _,rfl,rfl,by simp,by simp,fun s hs => Or.inl hs⟩
  | succ i ih =>
    obtain ⟨d,hd,hid⟩ := hq
    obtain ⟨e,he,hie⟩ := hslot i (by omega)
    have hp := hu i (by omega)
    have hc := hchain i (by omega)
    have hnext := hc.next_end
    obtain ⟨h₁,hw₁,hpast₁,hr₁,hlev₁,hlen₁,hlink₁⟩ := setNext_spec (i:=i) (B i).head? hd (by omega)
    obtain ⟨h₂,hw₂,hpast₂,hr₂,hlev₂,hlen₂,hlink₂⟩ := setNext_spec (h:=h₁) (i:=i) (some q)
      (by rw [hr₁.data]; exact he) hie
    have hr := hr₁.trans hr₂
    have hqp : q ≠ Chain.endOf h.now.head (A i) := by
      rintro rfl
      apply hfresh i (by omega)
      rcases Chain.endOf_mem h.now.head (A i) with h' | h'
      · rw [h']; simp
      · simp [h']
    have hother : ∀ j, j ≠ i → ∀ a, h₂.now.link j a = h.now.link j a := by
      intro j hj a
      rw [hlink₂,hlink₁,if_neg (by tauto),if_neg (by tauto)]
    have hins : Chain.Linked (h₂.now.link i) h.now.head (A i++q::B i) := by
      refine hc.insert (hnodup i (by omega)) (hfresh i (by omega)) ?_ ?_ ?_
      · rw [hlink₂,if_neg (by tauto),hlink₁,if_pos ⟨rfl,rfl⟩]
      · rw [hlink₂,if_pos ⟨rfl,rfl⟩]
      · intro b hbq hbp
        rw [hlink₂,if_neg (by tauto),hlink₁,if_neg (by tauto)]
    -- the first write touches only `q`, which is not on the bottom chain yet
    have hwalk₁ : Walkable h₁.now T := by
      refine hT.relinked hr₁ (hT.bottom.congr fun a ha => ?_)
      have haq : a ≠ q := by
        rintro rfl
        rw [hAB (by omega)] at ha
        exact hfresh 0 (by omega) ha
      rw [hlink₁,if_neg (by tauto)]
    have hpast : SavedThrough h h₂ [T] := by
      intro s hs
      rw [hpast₂,hpast₁] at hs
      simp only [List.mem_cons] at hs
      rcases hs with rfl | rfl | hs
      · exact Or.inr ⟨T,by simp,hwalk₁⟩
      · exact Or.inr ⟨T,by simp,hT⟩
      · exact Or.inl hs
    rcases Nat.eq_zero_or_pos i with rfl | h0
    · refine ⟨h₂,?_,hr,hlev₂.trans hlev₁,hlen₂.trans hlen₁,?_,?_,hpast⟩
      · rw [linkLoop]
        simp only [Option.bind_eq_bind,hp,hnext,hw₁,hw₂,Option.bind_some,linkLoop]
      · intro j hj
        obtain rfl : j = 0 := by omega
        exact hins
      · exact fun j hj a => hother j (by omega) a
    · have hwalk₂ : Walkable h₂.now T := by
        refine hT.relinked hr (hT.bottom.congr fun a ha => ?_)
        exact hother 0 (by omega) a
      obtain ⟨h',hl,hr',hlev',hlen',hlow,hhigh,hsav⟩ := ih (h:=h₂)
        ⟨d,by rw [hr.data]; exact hd,by omega⟩
        (fun j hj => by rw [hr.head]; exact hu j (by omega))
        (fun j hj => by
          rw [hr.head]
          exact (hchain j (by omega)).congr fun a _ => hother j (by omega) a)
        (fun j hj => by rw [hr.head]; exact hnodup j (by omega))
        (fun j hj => by rw [hr.head]; exact hfresh j (by omega))
        (fun j hj => by rw [hr.head,hr.data]; exact hslot j (by omega))
        hwalk₂ (fun _ => hAB (by omega))
      refine ⟨h',?_,hr.trans hr',hlev'.trans (hlev₂.trans hlev₁),
        hlen'.trans (hlen₂.trans hlen₁),?_,?_,hpast.trans hsav⟩
      · rw [linkLoop]
        simp only [Option.bind_eq_bind,hp,hnext,hw₁,hw₂,Option.bind_some,hl]
      · intro j hj
        rcases Nat.lt_succ_iff_lt_or_eq.mp hj with hj | rfl
        · simpa only [hr.head] using hlow j hj
        · exact hins.congr fun a _ => hhigh j le_rfl a
      · intro j hj a
        rw [hhigh j (by omega),hother j (by omega)]

theorem raiseUpdate_spec (head : Addr) {i n : ℕ} (u : Update) (h : i+n ≤ MAX_LEVEL) :
    ∃ u', raiseUpdate head i n u = some u' ∧
      ∀ j, u' j = if i ≤ j ∧ j < i+n then some head else u j := by
  induction n generalizing i u with
  | zero => exact ⟨u,rfl,fun j => by rw [if_neg (by omega)]⟩
  | succ n ih =>
    have hs : u.set i head = some (Function.update u i (some head)) := if_pos (by omega)
    obtain ⟨u',hr,hu⟩ := ih (i:=i+1) (Function.update u i (some head)) (by omega)
    refine ⟨u',by rw [raiseUpdate,hs]; exact hr,fun j => ?_⟩
    rw [hu j]
    by_cases hj : j = i
    · subst hj
      rw [if_neg (by omega),if_pos (by omega),Function.update_self]
    · rw [Function.update_of_ne hj]
      by_cases hj' : i+1 ≤ j ∧ j < i+1+n
      · rw [if_pos hj',if_pos (by omega)]
      · rw [if_neg hj',if_neg (by omega)]

/-- After the level is raised the whole update vector up to the drawn level is right: above the
old level the chains are empty and the predecessor is the head. -/
theorem raiseLevel_spec {h : Hist} (target : ℕ) {u : Update} {T₁ T₂ : List Tower}
    (hs : Shape h.now (T₁++T₂)) (ht : target ≤ MAX_LEVEL)
    (hu : ∀ j < h.now.level, u j = some (predAt h.now.head T₁ j)) :
    ∃ u' h', raiseLevel h target u = some (u',h') ∧
      (∀ j < target, u' j = some (predAt h.now.head T₁ j)) ∧
      h'.now = {h.now with level := max h.now.level target} ∧
      SavedThrough h h' [T₁++T₂] := by
  unfold raiseLevel
  split_ifs with hlt
  · obtain ⟨u',hr,hu'⟩ := raiseUpdate_spec h.now.head (i:=h.now.level)
      (n:=target-h.now.level) u (by omega)
    refine ⟨u',h.setLevel target,by simp [hr],fun j hj => ?_,?_,.write hs.walkable (by simp)⟩
    · rw [hu' j]
      split_ifs with hj'
      · have hle := hs.maxHeight_le
        rw [maxHeight_append] at hle
        have hnil : chainAt T₁ j = [] := chainAt_eq_nil.mpr (by omega)
        rw [predAt,hnil]
        rfl
      · exact hu j (by omega)
    · rw [Nat.max_eq_right (le_of_lt hlt)]
      rfl
  · refine ⟨u,h,rfl,fun j hj => hu j (by omega),?_,fun s hs' => Or.inl hs'⟩
    rw [Nat.max_eq_left (by omega)]

theorem Shape.relink {m m' : Mem} {T : List Tower} (h : Shape m T) (hr : Relinked m m')
    (hl : m'.link = m.link) (hv : m'.level = m.level) : Shape m' T where
  holds t ht := hr.holds (h.holds t ht)
  head := by rw [hr.data,hr.head]; exact h.head
  chain i hi := by rw [hl,hr.head]; exact h.chain i hi
  addrs := by rw [hr.head]; exact h.addrs
  addrs_lt := by rw [hr.head,hr.nextNode]; exact h.addrs_lt
  ptrs := h.ptrs
  ptrs_lt := by rw [hr.nextStr]; exact h.ptrs_lt
  heights := h.heights
  level_le := by rw [hv]; exact h.level_le
  level := by rw [hv]; exact h.level
  rounds := by rw [hr.nextNode]; exact h.rounds

theorem setLength_relinked (h : Hist) (n : ℤ) : Relinked h.now (h.setLength n).now :=
  ⟨rfl,rfl,rfl,rfl,rfl⟩

theorem Shape.setLength {h : Hist} {T : List Tower} (hs : Shape h.now T) (n : ℤ) :
    Shape (h.setLength n).now T := hs.relink (setLength_relinked h n) rfl rfl

@[simp] theorem setLength_length (h : Hist) (n : ℤ) : (h.setLength n).now.length = n := rfl

@[simp] theorem setLength_past (h : Hist) (n : ℤ) : (h.setLength n).past = h.now::h.past := rfl

theorem Shape.insertTower {m m' : Mem} {T₁ T₂ : List Tower} {t : Tower}
    (h : Shape m (T₁++T₂)) (he : Extends m m') (ht : m'.Holds t)
    (ha : t.addr < m'.nextNode) (hfresh : m.nextNode ≤ t.addr)
    (hp : t.keyPtr < m'.nextStr ∧ t.valPtr < m'.nextStr)
    (hnew : t.keyPtr ∉ allPtrs (T₁++T₂) ∧ t.valPtr ∉ allPtrs (T₁++T₂) ∧ t.keyPtr ≠ t.valPtr)
    (hh : 0 < t.height ∧ t.height ≤ MAX_LEVEL) (hlev : m'.level = max m.level t.height)
    {m'' : Mem} (hr : Relinked m' m'') (hlev' : m''.level = m'.level)
    (hlow : ∀ i < t.height,
      Chain.Linked (m''.link i) m'.head (chainAt T₁ i++t.addr::chainAt T₂ i))
    (hhigh : ∀ i, t.height ≤ i → ∀ a, m''.link i a = m'.link i a) :
    Shape m'' (T₁++t::T₂) where
  holds := by
    intro s hs
    refine hr.holds ?_
    rcases mem_split.mp hs with rfl | hs
    · exact ht
    · exact h.holds_of_extends he s hs
  head := by
    obtain ⟨d,hd,hl⟩ := h.head
    refine ⟨d,?_,hl⟩
    rw [hr.data,hr.head,he.head,he.data (h.addrs_lt _ (by simp))]
    exact hd
  chain i hi := by
    rw [hr.head]
    by_cases hlt : i < t.height
    · simpa [chainAt_cons,hlt] using hlow i hlt
    · have hc := h.chain_of_extends he hi
      have heq : chainAt (T₁++t::T₂) i = chainAt (T₁++T₂) i := by simp [chainAt_cons,hlt]
      rw [heq]
      exact hc.congr fun a _ => hhigh i (not_lt.mp hlt) a
  addrs := by
    have hnd := h.addrs
    have hlt := h.addrs_lt
    have hnot : t.addr ∉ m.head::(T₁++T₂).map Tower.addr :=
      fun hm => absurd (hlt _ hm) (not_lt.mpr hfresh)
    rw [hr.head,he.head]
    exact (addrs_perm _ T₁ T₂ t).nodup_iff.mpr (List.nodup_cons.mpr ⟨hnot,hnd⟩)
  addrs_lt := by
    intro a hm
    rw [hr.nextNode]
    rw [hr.head,he.head,(addrs_perm m.head T₁ T₂ t).mem_iff,List.mem_cons] at hm
    rcases hm with rfl | hm
    · exact ha
    · exact (h.addrs_lt a hm).trans_le he.nextNode
  ptrs := by
    refine (allPtrs_perm T₁ T₂ t).nodup_iff.mpr ?_
    refine List.nodup_cons.mpr ⟨?_,List.nodup_cons.mpr ⟨hnew.2.1,h.ptrs⟩⟩
    simp only [List.mem_cons,not_or]
    exact ⟨hnew.2.2,hnew.1⟩
  ptrs_lt := by
    intro p hm
    rw [hr.nextStr]
    rw [(allPtrs_perm T₁ T₂ t).mem_iff,List.mem_cons,List.mem_cons] at hm
    rcases hm with rfl | rfl | hm
    · exact hp.1
    · exact hp.2
    · exact (h.ptrs_lt p hm).trans_le he.nextStr
  heights := by
    intro s hs
    rcases mem_split.mp hs with rfl | hs
    · exact hh.1
    · exact h.heights s hs
  level_le := by
    rw [hlev',hlev]
    exact max_le h.level_le hh.2
  level := by
    have hl := h.level
    have hle := h.maxHeight_le
    have hmax : maxHeight (T₁++t::T₂) = max (maxHeight (T₁++T₂)) t.height := by
      rw [maxHeight_append,maxHeight_append,maxHeight_cons]
      omega
    rw [if_neg (by simp),hlev',hlev,hmax]
    split_ifs at hl with hT
    · rw [hT,maxHeight_nil]
      omega
    · rw [hl]
  rounds := by
    have hr' := h.rounds
    have hn : m.nextNode < m'.nextNode := hfresh.trans_lt ha
    rw [hr.nextNode]
    simp only [List.length_append,List.length_cons] at hr' ⊢
    exact Nat.lt_of_le_of_lt hr' hn

theorem SavedThrough.mono {h h' : Hist} {Ts Ts' : List (List Tower)} (hs : SavedThrough h h' Ts)
    (hsub : ∀ T ∈ Ts, T ∈ Ts') : SavedThrough h h' Ts' := by
  intro s hm
  rcases hs s hm with hm | ⟨T,hT,hw⟩
  · exact Or.inl hm
  · exact Or.inr ⟨T,hsub T hT,hw⟩

theorem hits_false {m : Mem} {key : Bytes} {T₁ T₂ : List Tower} (hs : Shape m (T₁++T₂))
    (hne : ∀ t ∈ T₂.head?, slKeyCompare t.key key ≠ .eq) :
    m.hits key (T₂.map Tower.addr).head? = some false := by
  cases T₂ with
  | nil => rfl
  | cons t T =>
    have ht := hne t (by simp)
    simp [Mem.hits,(hs.holds t (by simp)).keyOf,ht]

theorem hits_true {m : Mem} {key : Bytes} {T₁ T₂ : List Tower} {t : Tower}
    (hs : Shape m (T₁++t::T₂)) (heq : slKeyCompare t.key key = .eq) :
    m.hits key (some t.addr) = some true := by
  simp [Mem.hits,(hs.holds t (by simp)).keyOf,heq]

theorem notMem_allPtrs_insert {T₁ T₂ : List Tower} {t : Tower} {p : SdsPtr}
    (h : p ∉ allPtrs (T₁++T₂)) (hk : p ≠ t.keyPtr) (hv : p ≠ t.valPtr) :
    p ∉ allPtrs (T₁++t::T₂) := by
  rw [(allPtrs_perm T₁ T₂ t).mem_iff,List.mem_cons,List.mem_cons,not_or,not_or]
  exact ⟨hk,hv,h⟩

/-- `insert_skiplist` where nothing compares equal: one new tower of the drawn height. -/
theorem insertSkiplist_absent {h : Hist} {key v : Bytes} {val : SdsPtr} {T₁ T₂ : List Tower}
    (target : Level) (hs : Shape h.now (T₁++T₂)) (hk : SplitsAt key T₁ T₂)
    (hne : ∀ t ∈ T₂.head?, slKeyCompare t.key key ≠ .eq) (hv : h.now.strs val = some v) :
    ∃ h' t, insertSkiplist h key val target true = some (0,h') ∧
      Shape h'.now (T₁++t::T₂) ∧ t.key = key ∧ t.val = some v ∧ t.height = target ∧
      h'.now.length = int32 (h.now.length+1) ∧ KeepsForeign h h' (T₁++T₂) (T₁++t::T₂) ∧
      SavedThrough h h' [T₁++T₂,T₁++t::T₂] := by
  obtain ⟨u,hd,hu⟩ := descend_top hs hk
  have hhit := hits_false hs hne
  obtain ⟨u₁,h₁,hr₁,hu₁,hnow₁,hsav₁⟩ := raiseLevel_spec target hs target.2.2 hu
  have he₁ : Extends h.now h₁.now := by
    rw [hnow₁]
    exact ⟨by simp,by simp,le_rfl,le_rfl,rfl⟩
  -- the two copies and the node
  let h₂ := (h₁.newStr v).2
  let h₃ := (h₂.newStr key).2
  let h₄ := (h₃.newNode target h₂.now.nextStr h₁.now.nextStr).2
  let t : Tower := ⟨h₃.now.nextNode,h₂.now.nextStr,h₁.now.nextStr,key,some v,target⟩
  have he₂ : Extends h.now h₂.now := he₁.trans (newStr_extends h₁ v)
  have he₃ : Extends h.now h₃.now := he₂.trans (newStr_extends h₂ key)
  have he₄ : Extends h.now h₄.now := he₃.trans (newNode_extends h₃ _ _ _)
  have ht : h₄.now.Holds t := by
    refine ⟨?_,?_,?_⟩
    · simp [Mem.data,h₄,t,Hist.newNode,Hist.write]
    · simp [h₄,h₃,h₂,t,Hist.newNode,Hist.newStr,Hist.write]
    · simp [h₄,h₃,h₂,t,Hist.newNode,Hist.newStr,Hist.write]
  have hfresh : h.now.nextNode ≤ t.addr := he₃.nextNode
  have hnotIn : ∀ j, t.addr ∉ h.now.head::chainAt (T₁++T₂) j := fun j hm =>
    absurd (hs.addrs_lt _ (((chainAt_sublist _ j).cons_cons _).subset hm)) (not_lt.mpr hfresh)
  have hsav₄ : SavedThrough h h₄ [T₁++T₂] :=
    ((hsav₁.trans (.write (hs.walkable_of_extends he₁) (by simp))).trans
      (.write (hs.walkable_of_extends he₂) (by simp))).trans
      (.write (hs.walkable_of_extends he₃) (by simp))
  have h16 : ∀ {j}, j < target.1 → j < MAX_LEVEL := fun hj => hj.trans_le target.2.2
  obtain ⟨h₅,hl₅,hr₅,hlev₅,hlen₅,hlow,hhigh,hsav₅⟩ := linkLoop_spec (q:=t.addr) (u:=u₁)
    (i:=target.1) (h:=h₄) (A:=chainAt T₁) (B:=chainAt T₂) (T:=T₁++T₂)
    ⟨_,ht.data,le_rfl⟩ (fun j hj => by rw [he₄.head]; exact hu₁ j hj)
    (fun j hj => by rw [← chainAt_append]; exact hs.chain_of_extends he₄ (h16 hj))
    (fun j hj => by rw [← chainAt_append,he₄.head]; exact hs.chain_nodup j)
    (fun j hj => by rw [← chainAt_append,he₄.head]; exact hnotIn j)
    (fun j hj => by
      have hm := Chain.endOf_mem h.now.head (chainAt T₁ j)
      have hmem : Chain.endOf h.now.head (chainAt T₁ j) ∈ h.now.head::chainAt (T₁++T₂) j := by
        rw [chainAt_append,List.mem_cons,List.mem_append]
        tauto
      obtain ⟨d,hd,hjd⟩ := hs.slot (h16 hj) hmem
      refine ⟨d,?_,hjd⟩
      rw [he₄.head,he₄.data (hs.addrs_lt _ (((chainAt_sublist _ j).cons_cons _).subset hmem))]
      exact hd)
    (hs.walkable_of_extends he₄)
    (fun _ => by rw [← chainAt_append,chainAt_zero hs.heights])
  have hshape : Shape h₅.now (T₁++t::T₂) := by
    refine hs.insertTower he₄ ht (Nat.lt_succ_self _) hfresh ⟨?_,?_⟩ ⟨?_,?_,?_⟩
      ⟨target.2.1,target.2.2⟩ ?_ hr₅ hlev₅ hlow hhigh
    · exact Nat.lt_succ_self _
    · exact (Nat.lt_succ_self _).trans (Nat.lt_succ_self _)
    · exact fun hm => absurd (hs.ptrs_lt _ hm) (not_lt.mpr he₂.nextStr)
    · exact fun hm => absurd (hs.ptrs_lt _ hm) (not_lt.mpr he₁.nextStr)
    · exact Nat.succ_ne_self _
    · show h₁.now.level = _
      rw [hnow₁]
  have hlen₄ : h₄.now.length = h.now.length := by
    show h₁.now.length = _
    rw [hnow₁]
  refine ⟨h₅.setLength (int32 (h₅.now.length+1)),t,?_,hshape.setLength _,rfl,rfl,rfl,?_,?_,?_⟩
  · have hv₁ : h₁.now.strs val = some v := by rw [hnow₁]; exact hv
    simp only [insertSkiplist,hd,hhit,hr₁,hv₁,Option.bind_eq_bind,Option.bind_some,
      Bool.false_eq_true,if_false]
    exact congrArg (fun o : Option Hist => o.bind fun h =>
      some ((0 : ℤ),h.setLength (int32 (h.now.length+1)))) hl₅
  · rw [setLength_length,hlen₅,hlen₄]
  · intro p hp hpT
    refine ⟨?_,?_,?_⟩
    · show p < h₅.now.nextStr
      rw [hr₅.nextStr]
      exact hp.trans_le he₄.nextStr
    · show h₅.now.strs p = _
      rw [hr₅.strs]
      exact he₄.strs p hp
    · exact notMem_allPtrs_insert hpT (hp.trans_le he₂.nextStr).ne (hp.trans_le he₁.nextStr).ne
  · refine SavedThrough.trans ((hsav₄.trans hsav₅).mono (by simp)) ?_
    exact .write hshape.walkable (by simp)

/-- `insert_skiplist` of an absent key when `malloc` fails: both copies leak, the level may have been
raised, and nothing is linked. -/
theorem insertSkiplist_failed {h : Hist} {key v : Bytes} {val : SdsPtr} {T₁ T₂ : List Tower}
    (target : Level) (hs : Shape h.now (T₁++T₂)) (hk : SplitsAt key T₁ T₂)
    (hne : ∀ t ∈ T₂.head?, slKeyCompare t.key key ≠ .eq) (hv : h.now.strs val = some v) :
    ∃ h', insertSkiplist h key val target false = some (-1,h') ∧ Extends h.now h'.now ∧
      h'.now.level = max h.now.level target ∧ h'.now.length = h.now.length ∧
      SavedThrough h h' [T₁++T₂] := by
  obtain ⟨u,hd,hu⟩ := descend_top hs hk
  have hhit := hits_false hs hne
  obtain ⟨u₁,h₁,hr₁,-,hnow₁,hsav₁⟩ := raiseLevel_spec target hs target.2.2 hu
  have he₁ : Extends h.now h₁.now := by
    rw [hnow₁]
    exact ⟨by simp,by simp,le_rfl,le_rfl,rfl⟩
  have he₂ : Extends h.now (h₁.newStr v).2.now := he₁.trans (newStr_extends h₁ v)
  have hv₁ : h₁.now.strs val = some v := by rw [hnow₁]; exact hv
  refine ⟨((h₁.newStr v).2.newStr key).2,?_,he₂.trans (newStr_extends _ key),?_,?_,?_⟩
  · simp only [insertSkiplist,hd,hhit,hr₁,hv₁,Option.bind_eq_bind,Option.bind_some,
      Bool.false_eq_true,if_false]
  · show h₁.now.level = _
    rw [hnow₁]
  · show h₁.now.length = _
    rw [hnow₁]
  · exact (hsav₁.trans (.write (hs.walkable_of_extends he₁) (by simp))).trans
      (.write (hs.walkable_of_extends he₂) (by simp))

end Tadpole
