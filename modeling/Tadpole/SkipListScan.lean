import Tadpole.SkipListRuns

/-! Lookups against a plain scan of level 0: which node each of the three descents finds, and what
`replace_skiplist` leaves alone. -/
namespace Tadpole

def Mem.valPtr (m : Mem) (x : Addr) : Option SdsPtr := (m.nodes x).map Node.val

/-- Links, heights, level and length are the same. -/
structure SameLinks (m m' : Mem) : Prop where
  link : m'.link = m.link
  height : m'.height = m.height
  head : m'.head = m.head
  level : m'.level = m.level
  length : m'.length = m.length

theorem SameLinks.trans {m m' m'' : Mem} (h : SameLinks m m') (h' : SameLinks m' m'') : SameLinks m m'' :=
  ⟨h'.link.trans h.link,h'.height.trans h.height,h'.head.trans h.head,h'.level.trans h.level,
    h'.length.trans h.length⟩

theorem newStr_sameLinks (h : Hist) (s : Bytes) : SameLinks h.now (h.newStr s).2.now :=
  ⟨rfl,rfl,rfl,rfl,rfl⟩

theorem freeStr_sameLinks {h h' : Hist} {p : SdsPtr} (hf : h.freeStr p = some h') : SameLinks h.now h'.now := by
  unfold Hist.freeStr at hf
  split at hf
  · cases hf
  · cases hf
    exact ⟨rfl,rfl,rfl,rfl,rfl⟩

theorem setVal_sameLinks {h h' : Hist} {x : Addr} {p : SdsPtr} (hs : h.setVal x p = some h') :
    SameLinks h.now h'.now := by
  unfold Hist.setVal at hs
  split at hs
  · cases hs
  · rename_i n hn
    cases hs
    refine ⟨?_,?_,rfl,rfl,rfl⟩
    · funext i a
      by_cases ha : a = x
      · subst ha; simp [Mem.link,Hist.write,hn]
      · simp [Mem.link,Hist.write,ha]
    · funext a
      by_cases ha : a = x
      · subst ha; simp [Mem.height,Hist.write,hn]
      · simp [Mem.height,Hist.write,ha]

theorem replaceSkiplist_sameLinks {h h' : Hist} {key w : Bytes}
    (hrun : replaceSkiplist h key w = some (0,h')) : SameLinks h.now h'.now := by
  obtain ⟨q,-,hq⟩ := Option.bind_eq_some_iff.mp hrun
  cases q with
  | none => simp at hq
  | some q =>
    obtain ⟨n,-,hn⟩ := Option.bind_eq_some_iff.mp hq
    obtain ⟨h₁,hfree,h₁'⟩ := Option.bind_eq_some_iff.mp hn
    obtain ⟨h₂,hset,h₂'⟩ := Option.bind_eq_some_iff.mp h₁'
    cases h₂'
    exact (freeStr_sameLinks hfree).trans ((newStr_sameLinks h₁ w).trans (setVal_sameLinks hset))

/-- Only the value of `x` is another one, among the nodes of the list `l`. -/
structure ValueSet (m m' : Mem) (l : List Addr) (x : Addr) (w : Bytes) : Prop where
  links : SameLinks m m'
  key : ∀ a ∈ l, m'.keyOf a = m.keyOf a
  value : m'.valOf x = some w
  other : ∀ a ∈ l, a ≠ x → m'.valOf a = m.valOf a

/-- The lookups of a key agree with the scan of level 0. -/
structure LooksUp (h : Hist) (key : Bytes) : Prop where
  unique : ∀ l, h.now.bottom = some l → ∀ a ∈ l, ∀ b ∈ l, h.now.keyOf a = some key →
    h.now.keyOf b = some key → a = b
  search : searchSkiplist h.now key = some ((h.now.nodeOf key).bind h.now.valPtr)
  replace : ∀ w, ∃ r h', replaceSkiplist h key w = some (r,h') ∧ (r = 0 ↔ (h.now.nodeOf key).isSome) ∧
    (h.now.nodeOf key = none → h' = h) ∧ ∀ x ∈ h.now.nodeOf key, ∀ l, h.now.bottom = some l →
      ValueSet h.now h'.now l x w
  delete : ∃ r h', deleteSkiplist h key = some (r,h') ∧ (r = 0 ↔ (h.now.nodeOf key).isSome)

/-- Lookups with the same answers: the value, and the results of a replacement and a deletion. -/
def SameAnswers (h g : Hist) (key : Bytes) : Prop :=
  (searchSkiplist h.now key).map (fun p => p.bind h.now.strs) =
      (searchSkiplist g.now key).map (fun p => p.bind g.now.strs) ∧
    (∀ w, (replaceSkiplist h key w).map Prod.fst = (replaceSkiplist g key w).map Prod.fst) ∧
    (deleteSkiplist h key).map Prod.fst = (deleteSkiplist g key).map Prod.fst

section
variable {h g : Hist} {T S : List Tower} {M : KeyMap} {len : ℕ} {key : Bytes}

theorem Shape.valPtr_eq {m : Mem} (hs : Shape m T) {t : Tower} (ht : t ∈ T) : m.valPtr t.addr = some t.valPtr := by
  obtain ⟨n,hn,-,hv⟩ := (hs.holds t ht).node
  simp [Mem.valPtr,hn,hv]

theorem Represents.unique (hr : Represents h.now T M len) {a b : Addr} (ha : a ∈ T.map Tower.addr)
    (hb : b ∈ T.map Tower.addr) (hka : h.now.keyOf a = some key) (hkb : h.now.keyOf b = some key) : a = b := by
  obtain ⟨s,hs,rfl⟩ := List.mem_map.mp ha
  obtain ⟨t,ht,rfl⟩ := List.mem_map.mp hb
  rw [(hr.shape.holds s hs).keyOf] at hka
  rw [(hr.shape.holds t ht).keyOf] at hkb
  rw [hr.tower_unique hs ht (Option.some.inj (hka.trans hkb.symm))]

theorem Represents.search_eq (hr : Represents h.now T M len) (hk : key.length = len) :
    searchSkiplist h.now key = some ((h.now.nodeOf key).bind h.now.valPtr) := by
  cases hl : M.lookup key with
  | none => rw [hr.searchSkiplist_absent hk hl,hr.nodeOf_eq_none hl,Option.bind_none]
  | some v =>
    obtain ⟨T₁,t,T₂,rfl,htk,hfront,-,hsearch⟩ := hr.searchSkiplist_tower hk hl
    rw [hsearch,hr.shape.nodeOf_split htk hfront,Option.bind_some,hr.shape.valPtr_eq (by simp)]

theorem Represents.valueSet {h' : Hist} {M' : KeyMap} {T₁ T₂ : List Tower} {t t' : Tower} {w : Bytes}
    (hr : Represents h.now (T₁++t::T₂) M len) (hr' : Represents h'.now (T₁++t'::T₂) M' len)
    (hk : t'.key = t.key) (ha : t'.addr = t.addr) (hv : t'.val = some w) (hlinks : SameLinks h.now h'.now) :
    ValueSet h.now h'.now ((T₁++t::T₂).map Tower.addr) t.addr w := by
  have hnew := hr'.shape.holds t' (by simp)
  have hkept : ∀ s ∈ T₁++t::T₂, s ≠ t → h'.now.Holds s := by
    intro s hs hne
    exact hr'.shape.holds s (mem_split.mpr (Or.inr ((mem_split.mp hs).resolve_left hne)))
  refine ⟨hlinks,fun a hm => ?_,?_,fun a hm hne => ?_⟩
  · obtain ⟨s,hs,rfl⟩ := List.mem_map.mp hm
    rw [(hr.shape.holds s hs).keyOf]
    by_cases hst : s = t
    · rw [hst,← ha,hnew.keyOf,hk]
    · exact (hkept s hs hst).keyOf
  · rw [← ha,hnew.valOf,hv]
  · obtain ⟨s,hs,rfl⟩ := List.mem_map.mp hm
    have hst : s ≠ t := by
      rintro rfl
      exact hne rfl
    rw [(hr.shape.holds s hs).valOf,(hkept s hs hst).valOf]

theorem Represents.looksUp (hr : Represents h.now T M len) (hk : key.length = len) : LooksUp h key where
  unique := by
    intro l hl a ha b hb hka hkb
    rw [hr.shape.bottom_eq] at hl
    cases hl
    exact hr.unique ha hb hka hkb
  search := hr.search_eq hk
  replace w := by
    cases hl : M.lookup key with
    | none =>
      rw [hr.nodeOf_eq_none hl]
      exact ⟨-1,h,hr.replaceSkiplist_absent hk hl w,by simp,fun _ => rfl,by simp⟩
    | some v =>
      obtain ⟨h',T₁,t,t',T₂,rfl,htk,hfront,htk',htv',-,hta,hrun,hr',-⟩ := hr.replaceSkiplist_tower hk hl w
      refine ⟨0,h',hrun,by simp [hr.shape.nodeOf_split htk hfront],?_,?_⟩
      · rw [hr.shape.nodeOf_split htk hfront]
        simp
      · intro x hx l hl'
        rw [hr.shape.nodeOf_split htk hfront] at hx
        rw [hr.shape.bottom_eq] at hl'
        cases hx
        cases hl'
        exact hr.valueSet hr' (htk'.trans htk.symm) hta htv' (replaceSkiplist_sameLinks hrun)
  delete := by
    cases hl : M.lookup key with
    | none =>
      rw [hr.nodeOf_eq_none hl]
      exact ⟨-1,h,hr.deleteSkiplist_absent hk hl,by simp⟩
    | some v =>
      obtain ⟨h',T₁,t,T₂,rfl,htk,hfront,hrun,-⟩ := hr.deleteSkiplist_tower hk hl
      exact ⟨0,h',hrun,by simp [hr.shape.nodeOf_split htk hfront]⟩

/-- Two lists that carry the same bindings answer alike, whatever their heights. -/
theorem Represents.sameAnswers (hr : Represents h.now T M len) (hr' : Represents g.now S M len)
    (hk : key.length = len) : SameAnswers h g key := by
  cases hl : M.lookup key with
  | none =>
    refine ⟨?_,fun w => ?_,?_⟩
    · rw [hr.searchSkiplist_absent hk hl,hr'.searchSkiplist_absent hk hl]
      rfl
    · rw [hr.replaceSkiplist_absent hk hl,hr'.replaceSkiplist_absent hk hl]
      rfl
    · rw [hr.deleteSkiplist_absent hk hl,hr'.deleteSkiplist_absent hk hl]
      rfl
  | some v =>
    refine ⟨?_,fun w => ?_,?_⟩
    · obtain ⟨p,hp,hv⟩ := hr.searchSkiplist_present hk hl
      obtain ⟨p',hp',hv'⟩ := hr'.searchSkiplist_present hk hl
      simp only [hp,hp',Option.map_some,Option.bind_some,hv,hv']
    · obtain ⟨h',T',hrun,-⟩ := hr.replaceSkiplist hk hl w
      obtain ⟨g',S',hrun',-⟩ := hr'.replaceSkiplist hk hl w
      rw [hrun,hrun',Option.map_some,Option.map_some]
    · obtain ⟨h',T',hrun,-⟩ := hr.deleteSkiplist hk hl
      obtain ⟨g',S',hrun',-⟩ := hr'.deleteSkiplist hk hl
      rw [hrun,hrun',Option.map_some,Option.map_some]

end

/-- In every list reached over keys of one length, the three lookups of a key of that length agree with
the scan of level 0, and so do not depend on the heights: a list reached another way that reads the
same pairs answers the same. -/
theorem reachOps_looksUp (len : ℕ) (cs : List SlOp) (hcs : ∀ c ∈ cs, c.key.length = len) :
    ∃ h, reachOps cs = some h ∧ ∀ key : Bytes, key.length = len → LooksUp h key ∧
      ∀ ds g, (∀ d ∈ ds, d.key.length = len) → reachOps ds = some g → g.now.pairs = h.now.pairs →
        SameAnswers h g key := by
  obtain ⟨h,T,hreach,hr⟩ := reachOps_represents hcs
  refine ⟨h,hreach,fun key hk => ⟨hr.looksUp hk,fun ds g hds hreach' hsame => ?_⟩⟩
  obtain ⟨g',S,hg,hr'⟩ := reachOps_represents hds
  obtain rfl : g' = g := Option.some.inj (hg.symm.trans hreach')
  have hent : (ds.foldl (fun M d => d.after M) OrderedMap.empty) =
      cs.foldl (fun M c => c.after M) OrderedMap.empty := by
    refine OrderedMap.ext (Option.some.inj ?_)
    rw [← hr'.pairs,← hr.pairs,hsame]
  rw [hent] at hr'
  exact hr.sameAnswers hr' hk

theorem reachOps_looksUp_twoInserts : ∃ h, reachOps twoInserts = some h ∧ LooksUp h (str "a") := by
  obtain ⟨h,hreach,hall⟩ := reachOps_looksUp 1 twoInserts (by decide)
  exact ⟨h,hreach,(hall (str "a") rfl).1⟩

end Tadpole
