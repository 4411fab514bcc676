import Tadpole.SkipList

/-! The shape of a skip list in memory: one list of towers, in bottom order, from which the chain
of every level is read off by height, and what each elementary write does to it. -/
namespace Tadpole

/-- A node as the list sees it. A value whose string was freed is `none`. -/
structure Tower where
  addr : Addr
  keyPtr : SdsPtr
  valPtr : SdsPtr
  key : Bytes
  val : Option Bytes
  height : ℕ

def Tower.ptrs (t : Tower) : List SdsPtr := [t.keyPtr,t.valPtr]

/-- The nodes on level `i`. -/
def chainAt (T : List Tower) (i : ℕ) : List Addr :=
  (T.filter fun t => i < t.height).map Tower.addr

def allPtrs (T : List Tower) : List SdsPtr := T.flatMap Tower.ptrs

def maxHeight (T : List Tower) : ℕ := (T.map Tower.height).foldr max 0

@[simp] theorem chainAt_nil (i : ℕ) : chainAt [] i = [] := rfl

theorem chainAt_cons (t : Tower) (T : List Tower) (i : ℕ) :
    chainAt (t::T) i = if i < t.height then t.addr::chainAt T i else chainAt T i := by
  by_cases h : i < t.height <;> simp [chainAt,h]

@[simp] theorem chainAt_append (T₁ T₂ : List Tower) (i : ℕ) :
    chainAt (T₁++T₂) i = chainAt T₁ i++chainAt T₂ i := by simp [chainAt]

theorem chainAt_zero {T : List Tower} (h : ∀ t ∈ T, 0 < t.height) :
    chainAt T 0 = T.map Tower.addr := by
  rw [chainAt,List.filter_eq_self.mpr]
  exact fun t ht => by simpa using h t ht

theorem mem_chainAt {T : List Tower} {i : ℕ} {a : Addr} :
    a ∈ chainAt T i ↔ ∃ t ∈ T, i < t.height ∧ t.addr = a := by simp [chainAt,and_assoc]

theorem chainAt_sublist (T : List Tower) (i : ℕ) : (chainAt T i).Sublist (T.map Tower.addr) :=
  List.filter_sublist.map _

theorem exists_prefix_chainAt (x : Addr) (T : List Tower) {i j : ℕ} (h : i ≤ j) :
    ∃ l₁ l₂, chainAt T i = l₁++l₂ ∧ Chain.endOf x l₁ = Chain.endOf x (chainAt T j) := by
  induction T generalizing x with
  | nil => exact ⟨[],[],rfl,rfl⟩
  | cons t T ih =>
    rw [chainAt_cons,chainAt_cons]
    by_cases hj : j < t.height
    · obtain ⟨l₁,l₂,hl,he⟩ := ih t.addr
      rw [if_pos hj,if_pos (by omega)]
      exact ⟨t.addr::l₁,l₂,by simp [hl],by simpa using he⟩
    · rw [if_neg hj]
      obtain ⟨l₁,l₂,hl,he⟩ := ih x
      split_ifs with hi
      · cases l₁ with
        | nil => exact ⟨[],_,rfl,he⟩
        | cons a l₁ => exact ⟨t.addr::a::l₁,l₂,by simp [hl],by simpa using he⟩
      · exact ⟨l₁,l₂,hl,he⟩

@[simp] theorem maxHeight_nil : maxHeight [] = 0 := rfl

@[simp] theorem maxHeight_cons (t : Tower) (T : List Tower) :
    maxHeight (t::T) = max t.height (maxHeight T) := rfl

theorem maxHeight_append (T₁ T₂ : List Tower) :
    maxHeight (T₁++T₂) = max (maxHeight T₁) (maxHeight T₂) := by
  induction T₁ with
  | nil => simp
  | cons t T ih => simp [ih,max_assoc]

theorem chainAt_eq_nil {T : List Tower} {i : ℕ} : chainAt T i = [] ↔ maxHeight T ≤ i := by
  induction T with
  | nil => simp
  | cons t T ih =>
    rw [chainAt_cons,maxHeight_cons]
    split_ifs with h
    · simp; omega
    · rw [ih]; omega

theorem mem_split {T₁ T₂ : List Tower} {s t : Tower} : s ∈ T₁++t::T₂ ↔ s = t ∨ s ∈ T₁++T₂ := by
  simp only [List.mem_append,List.mem_cons]
  tauto

theorem allPtrs_perm (T₁ T₂ : List Tower) (t : Tower) :
    (allPtrs (T₁++t::T₂)).Perm (t.keyPtr::t.valPtr::allPtrs (T₁++T₂)) := by
  simp only [allPtrs,List.flatMap_append,List.flatMap_cons,Tower.ptrs]
  exact List.perm_append_comm_assoc (T₁.flatMap Tower.ptrs) [t.keyPtr,t.valPtr] _

theorem addrs_perm (a : Addr) (T₁ T₂ : List Tower) (t : Tower) :
    (a::(T₁++t::T₂).map Tower.addr).Perm (t.addr::a::(T₁++T₂).map Tower.addr) := by
  rw [List.map_append,List.map_cons,List.map_append]
  exact (List.Perm.cons _ List.perm_middle).trans (List.Perm.swap ..)

def Mem.data (m : Mem) (x : Addr) : Option (SdsPtr × SdsPtr × ℕ) :=
  (m.nodes x).map fun n => (n.key,n.val,n.next.length)

structure Mem.Holds (m : Mem) (t : Tower) : Prop where
  data : m.data t.addr = some (t.keyPtr,t.valPtr,t.height)
  key : m.strs t.keyPtr = some t.key
  val : m.strs t.valPtr = t.val

theorem Mem.Holds.keyOf {m : Mem} {t : Tower} (h : m.Holds t) : m.keyOf t.addr = some t.key := by
  obtain ⟨n,hn,hd⟩ := Option.map_eq_some_iff.mp h.data
  simp only [Prod.mk.injEq] at hd
  simp [Mem.keyOf,hn,hd.1,h.key]

theorem Mem.Holds.valOf {m : Mem} {t : Tower} (h : m.Holds t) : m.valOf t.addr = t.val := by
  obtain ⟨n,hn,hd⟩ := Option.map_eq_some_iff.mp h.data
  simp only [Prod.mk.injEq] at hd
  simp [Mem.valOf,hn,hd.2.1,h.val]

theorem Mem.Holds.node {m : Mem} {t : Tower} (h : m.Holds t) :
    ∃ n, m.nodes t.addr = some n ∧ n.key = t.keyPtr ∧ n.val = t.valPtr := by
  obtain ⟨n,hn,hd⟩ := Option.map_eq_some_iff.mp h.data
  simp only [Prod.mk.injEq] at hd
  exact ⟨n,hn,hd.1,hd.2.1⟩

/-- The towers `T` are in memory: every level's chain lists those high enough, the head has all
16 slots, no two towers share a node or a string, and the level is the greatest height. -/
structure Shape (m : Mem) (T : List Tower) : Prop where
  holds : ∀ t ∈ T, m.Holds t
  head : ∃ d, m.data m.head = some d ∧ d.2.2 = MAX_LEVEL
  chain : ∀ i < MAX_LEVEL, Chain.Linked (m.link i) m.head (chainAt T i)
  addrs : (m.head::T.map Tower.addr).Nodup
  addrs_lt : ∀ a ∈ m.head::T.map Tower.addr, a < m.nextNode
  ptrs : (allPtrs T).Nodup
  ptrs_lt : ∀ p ∈ allPtrs T, p < m.nextStr
  heights : ∀ t ∈ T, 0 < t.height
  level_le : m.level ≤ MAX_LEVEL
  level : if T = [] then m.level ≤ 1 else m.level = maxHeight T
  rounds : T.length < m.nextNode

theorem Shape.maxHeight_le {m : Mem} {T : List Tower} (h : Shape m T) : maxHeight T ≤ m.level := by
  have hl := h.level
  split_ifs at hl with hT
  · simp [hT]
  · exact hl.ge

theorem Shape.level_pos {m : Mem} {T₁ T₂ : List Tower} {t : Tower} (h : Shape m (T₁++t::T₂)) : 0 < m.level := by
  have hm := h.maxHeight_le
  have ht := h.heights t (by simp)
  rw [maxHeight_append,maxHeight_cons] at hm
  omega

theorem Shape.own {m : Mem} {T₁ T₂ : List Tower} {t : Tower} (h : Shape m (T₁++t::T₂)) :
    t.keyPtr ≠ t.valPtr ∧ t.keyPtr ∉ allPtrs (T₁++T₂) ∧ t.valPtr ∉ allPtrs (T₁++T₂) ∧
      t.addr ∉ m.head::(T₁++T₂).map Tower.addr := by
  have hnd := (allPtrs_perm T₁ T₂ t).nodup_iff.mp h.ptrs
  simp only [List.nodup_cons,List.mem_cons,not_or] at hnd
  exact ⟨hnd.1.1,hnd.1.2,hnd.2.1,(List.nodup_cons.mp ((addrs_perm _ T₁ T₂ t).nodup_iff.mp h.addrs)).1⟩

theorem Shape.chain_nodup {m : Mem} {T : List Tower} (h : Shape m T) (i : ℕ) :
    (m.head::chainAt T i).Nodup :=
  h.addrs.sublist ((chainAt_sublist T i).cons_cons _)

theorem Shape.chain_length {m : Mem} {T : List Tower} (h : Shape m T) (i : ℕ) :
    (chainAt T i).length < m.rounds := by
  have h₁ := (chainAt_sublist T i).length_le
  have h₂ := h.rounds
  simp only [List.length_map] at h₁
  unfold Mem.rounds
  omega

theorem Shape.bottom {m : Mem} {T : List Tower} (h : Shape m T) :
    Chain.Linked (m.link 0) m.head (T.map Tower.addr) := by
  rw [← chainAt_zero h.heights]
  exact h.chain 0 (by decide)

theorem Shape.bottom_eq {m : Mem} {T : List Tower} (h : Shape m T) :
    m.bottom = some (T.map Tower.addr) := by
  apply Chain.collect_linked h.bottom
  have := h.rounds
  simp only [List.length_map,Mem.rounds]
  omega

theorem Shape.slot {m : Mem} {T : List Tower} (h : Shape m T) {i : ℕ} (hi : i < MAX_LEVEL)
    {a : Addr} (ha : a ∈ m.head::chainAt T i) : ∃ d, m.data a = some d ∧ i < d.2.2 := by
  rcases List.mem_cons.mp ha with rfl | ha
  · obtain ⟨d,hd,hl⟩ := h.head
    exact ⟨d,hd,by omega⟩
  · obtain ⟨t,ht,hlt,rfl⟩ := mem_chainAt.mp ha
    exact ⟨_,(h.holds t ht).data,hlt⟩

theorem createSkiplist_shape : Shape createSkiplist [] where
  holds := by simp
  head := ⟨_,rfl,rfl⟩
  chain i hi := by
    have h16 : i < 16 := hi
    simp [Chain.Linked,Mem.link,createSkiplist,h16]
  addrs := by simp
  addrs_lt := by simp [createSkiplist]
  ptrs := by simp [allPtrs]
  ptrs_lt := by simp [allPtrs]
  heights := by simp
  level_le := by simp [createSkiplist]
  level := by simp [createSkiplist]
  rounds := by simp [createSkiplist]

/-- The bottom chain lists the towers `T`, each key and value as `T` says. -/
structure Walkable (m : Mem) (T : List Tower) : Prop where
  holds : ∀ t ∈ T, m.Holds t
  bottom : Chain.Linked (m.link 0) m.head (T.map Tower.addr)
  rounds : T.length < m.nextNode

theorem Shape.walkable {m : Mem} {T : List Tower} (h : Shape m T) : Walkable m T :=
  ⟨h.holds,h.bottom,h.rounds⟩

/-- Everything allocated in `m` is the same in `m'`. -/
structure Extends (m m' : Mem) : Prop where
  strs : ∀ p < m.nextStr, m'.strs p = m.strs p
  nodes : ∀ a < m.nextNode, m'.nodes a = m.nodes a
  nextStr : m.nextStr ≤ m'.nextStr
  nextNode : m.nextNode ≤ m'.nextNode
  head : m'.head = m.head

theorem Extends.refl (m : Mem) : Extends m m := ⟨by simp,by simp,le_rfl,le_rfl,rfl⟩

theorem Extends.trans {m m' m'' : Mem} (h : Extends m m') (h' : Extends m' m'') :
    Extends m m'' where
  strs p hp := (h'.strs p (hp.trans_le h.nextStr)).trans (h.strs p hp)
  nodes a ha := (h'.nodes a (ha.trans_le h.nextNode)).trans (h.nodes a ha)
  nextStr := h.nextStr.trans h'.nextStr
  nextNode := h.nextNode.trans h'.nextNode
  head := h'.head.trans h.head

theorem Extends.data {m m' : Mem} (h : Extends m m') {a : Addr} (ha : a < m.nextNode) :
    m'.data a = m.data a := by rw [Mem.data,h.nodes a ha,Mem.data]

theorem Extends.link {m m' : Mem} (h : Extends m m') {a : Addr} (ha : a < m.nextNode) (i : ℕ) :
    m'.link i a = m.link i a := by rw [Mem.link,h.nodes a ha,Mem.link]

theorem mem_allPtrs {T : List Tower} {p : SdsPtr} :
    p ∈ allPtrs T ↔ ∃ t ∈ T, p = t.keyPtr ∨ p = t.valPtr := by simp [allPtrs,Tower.ptrs]

theorem Shape.addr_lt {m : Mem} {T : List Tower} (h : Shape m T) {t : Tower} (ht : t ∈ T) :
    t.addr < m.nextNode := h.addrs_lt _ (List.mem_cons_of_mem _ (List.mem_map_of_mem ht))

theorem Shape.holds_of_extends {m m' : Mem} {T : List Tower} (h : Shape m T)
    (he : Extends m m') : ∀ t ∈ T, m'.Holds t := by
  intro t ht
  have hk := h.ptrs_lt t.keyPtr (mem_allPtrs.mpr ⟨t,ht,Or.inl rfl⟩)
  have hv := h.ptrs_lt t.valPtr (mem_allPtrs.mpr ⟨t,ht,Or.inr rfl⟩)
  exact ⟨(he.data (h.addr_lt ht)).trans (h.holds t ht).data,
    (he.strs _ hk).trans (h.holds t ht).key,(he.strs _ hv).trans (h.holds t ht).val⟩

theorem Shape.chain_of_extends {m m' : Mem} {T : List Tower} (h : Shape m T)
    (he : Extends m m') {i : ℕ} (hi : i < MAX_LEVEL) :
    Chain.Linked (m'.link i) m'.head (chainAt T i) := by
  rw [he.head]
  refine (h.chain i hi).congr fun a ha => he.link (h.addrs_lt a ?_) i
  exact ((chainAt_sublist T i).cons_cons m.head).subset ha

theorem Shape.walkable_of_extends {m m' : Mem} {T : List Tower} (h : Shape m T)
    (he : Extends m m') : Walkable m' T where
  holds := h.holds_of_extends he
  bottom := by
    rw [← chainAt_zero h.heights]
    exact h.chain_of_extends he (by decide)
  rounds := h.rounds.trans_le he.nextNode

theorem newStr_extends (h : Hist) (s : Bytes) : Extends h.now (h.newStr s).2.now where
  strs _ hp := Function.update_of_ne (Nat.ne_of_lt hp) _ _
  nodes _ _ := rfl
  nextStr := Nat.le_succ _
  nextNode := le_rfl
  head := rfl

theorem newNode_extends (h : Hist) (n : ℕ) (k v : SdsPtr) :
    Extends h.now (h.newNode n k v).2.now where
  strs _ _ := rfl
  nodes _ ha := Function.update_of_ne (Nat.ne_of_lt ha) _ _
  nextStr := le_rfl
  nextNode := Nat.le_succ _
  head := rfl

/-- Only links, the level and the length differ. -/
structure Relinked (m m' : Mem) : Prop where
  data : m'.data = m.data
  strs : m'.strs = m.strs
  nextStr : m'.nextStr = m.nextStr
  nextNode : m'.nextNode = m.nextNode
  head : m'.head = m.head

theorem Relinked.refl (m : Mem) : Relinked m m := ⟨rfl,rfl,rfl,rfl,rfl⟩

theorem Relinked.trans {m m' m'' : Mem} (h : Relinked m m') (h' : Relinked m' m'') :
    Relinked m m'' :=
  ⟨h'.data.trans h.data,h'.strs.trans h.strs,h'.nextStr.trans h.nextStr,
    h'.nextNode.trans h.nextNode,h'.head.trans h.head⟩

theorem Relinked.holds {m m' : Mem} (h : Relinked m m') {t : Tower} (ht : m.Holds t) :
    m'.Holds t :=
  ⟨by rw [h.data]; exact ht.data,by rw [h.strs]; exact ht.key,by rw [h.strs]; exact ht.val⟩

theorem setNext_spec {h : Hist} {x : Addr} {i : ℕ} {d : SdsPtr × SdsPtr × ℕ} (p : Link)
    (hd : h.now.data x = some d) (hi : i < d.2.2) :
    ∃ h', h.setNext x i p = some h' ∧ h'.past = h.now::h.past ∧ Relinked h.now h'.now ∧
      h'.now.level = h.now.level ∧ h'.now.length = h.now.length ∧
      ∀ j a, h'.now.link j a = if j = i ∧ a = x then some p else h.now.link j a := by
  obtain ⟨n,hn,rfl⟩ := Option.map_eq_some_iff.mp hd
  have hlen : i < n.next.length := hi
  have he : h.setNext x i p = some (h.write {h.now with
      nodes := Function.update h.now.nodes x (some {n with next := n.next.set i (some p)})}) := by
    simp [Hist.setNext,hn,hlen]
  refine ⟨_,he,rfl,?_,rfl,rfl,?_⟩
  · refine ⟨?_,rfl,rfl,rfl,rfl⟩
    funext a
    by_cases ha : a = x
    · subst ha; simp [Mem.data,Hist.write,hn]
    · simp [Mem.data,Hist.write,Function.update_of_ne ha]
  · intro j a
    by_cases ha : a = x
    · subst ha
      by_cases hj : j = i
      · subst hj; simp [Mem.link,Hist.write,hlen]
      · simp [Mem.link,Hist.write,hj,Ne.symm hj,hn]
    · simp [Mem.link,Hist.write,ha]

end Tadpole
