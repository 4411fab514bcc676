import Mathlib.Order.Bounds.Basic
import Tadpole.SignalSave

/-! Runs of the three writing functions from the empty list, over keys of one length: what the chains of
all levels look like in every state reached, and which of them one call changes. -/
namespace Tadpole

/-- A call with the strings its caller makes for it, while `malloc` succeeds. -/
inductive SlOp
  | insert (key value : Bytes) (target : Level)
  | delete (key : Bytes)
  | replace (key newVal : Bytes)

namespace SlOp

def key : SlOp → Bytes
  | insert key .. => key
  | delete key => key
  | replace key _ => key

def run (h : Hist) : SlOp → Option (ℤ × Hist)
  | insert key value target => insertSkiplist (h.newStr value).2 key (h.newStr value).1 target true
  | delete key => deleteSkiplist h key
  | replace key newVal => replaceSkiplist h key newVal

def after (M : KeyMap) : SlOp → KeyMap
  | insert key value _ => M.insert key value
  | delete key => M.erase key
  | replace key newVal => if key ∈ M.keys then M.insert key newVal else M

/-- `sl->length` after the call. -/
def counter (n : ℤ) (M : KeyMap) : SlOp → ℤ
  | insert .. => int32 (n+1)
  | delete key => if key ∈ M.keys then int32 (n-1) else n
  | replace .. => n

end SlOp

def runOps : Hist → List SlOp → Option Hist
  | h, [] => some h
  | h, c::cs =>
    match c.run h with
    | none => none
    | some (_,h) => runOps h cs

/-- What is reached from `create_skiplist`. -/
def reachOps (cs : List SlOp) : Option Hist := runOps ⟨createSkiplist,[]⟩ cs

/-- The nodes a loop along `next[i]` visits. -/
def Mem.chain (m : Mem) (i : ℕ) : Option (List Addr) := Chain.collect (m.link i) m.rounds m.head

def Mem.height (m : Mem) (x : Addr) : Option ℕ := (m.nodes x).map fun n => n.next.length

/-- `slKeyCompare(x->key,key)`. -/
def Mem.compare (m : Mem) (key : Bytes) (x : Addr) : Option Ordering :=
  (m.keyOf x).map fun k => slKeyCompare k key

def Mem.nodeOf (m : Mem) (key : Bytes) : Option Addr :=
  (m.bottom.getD []).find? fun x => m.keyOf x = some key

/-- The representation invariant, `ch i` being the chain of level `i`. -/
structure ListInvariant (len : ℕ) (m : Mem) (ch : ℕ → List Addr) : Prop where
  chain : ∀ i < MAX_LEVEL, m.chain i = some (ch i)
  keys : ∀ a ∈ ch 0, ∃ k, m.keyOf a = some k ∧ k.length = len
  ascending : (ch 0).Pairwise fun a b => ∃ k, m.keyOf b = some k ∧ m.compare k a = some .lt
  tall : ∀ i < MAX_LEVEL, ∀ a, a ∈ ch i ↔ a ∈ ch 0 ∧ ∃ n, m.height a = some n ∧ i < n
  sublist : ∀ i, i+1 < MAX_LEVEL → (ch (i+1)).Sublist (ch i)
  dry : ∀ i < MAX_LEVEL, m.level ≤ i → m.link i m.head = some none
  level_le : m.level ≤ MAX_LEVEL
  top : ch 0 ≠ [] → IsGreatest {n | ∃ a ∈ ch 0, m.height a = some n} m.level ∧
    ∃ a, m.link (m.level-1) m.head = some (some a)

/-- The chain `l'` is `l` with the new node `x` in its place. -/
def SortedInto (m : Mem) (key : Bytes) (x : Addr) (l l' : Option (List Addr)) : Prop :=
  ∃ l₁ l₂, l = some (l₁++l₂) ∧ l' = some (l₁++x::l₂) ∧
    (∀ a ∈ l₁, m.compare key a = some .lt) ∧ ∀ a ∈ l₂, m.compare key a = some .gt

/-- What a call that returned `r` did to the chains. -/
def SlOp.Relinks (m : Mem) (r : ℤ) (m' : Mem) : SlOp → Prop
  | insert key _ target =>
    match m.nodeOf key with
    | none => r = 0 ∧ ∃ x, m'.keyOf x = some key ∧ m'.height x = some target ∧
        ∀ i < MAX_LEVEL, if i < target then SortedInto m key x (m.chain i) (m'.chain i)
          else m'.chain i = m.chain i
    | some _ => r = 0 ∧ ∀ i < MAX_LEVEL, m'.chain i = m.chain i
  | delete key =>
    match m.nodeOf key with
    | none => r = -1 ∧ m' = m
    | some x => r = 0 ∧ ∀ i < MAX_LEVEL, m'.chain i = (m.chain i).map fun l => l.filter (· ≠ x)
  | replace key _ =>
    match m.nodeOf key with
    | none => r = -1 ∧ m' = m
    | some _ => r = 0 ∧ ∀ i < MAX_LEVEL, m'.chain i = m.chain i

section
variable {m : Mem} {T : List Tower} {M : KeyMap} {len : ℕ} {key : Bytes}

theorem Shape.chain_eq (h : Shape m T) {i : ℕ} (hi : i < MAX_LEVEL) :
    m.chain i = some (chainAt T i) := Chain.collect_linked (h.chain i hi) (h.chain_length i)

theorem Shape.height_eq (h : Shape m T) {t : Tower} (ht : t ∈ T) : m.height t.addr = some t.height := by
  obtain ⟨n,hn,hd⟩ := Option.map_eq_some_iff.mp (h.holds t ht).data
  rw [Prod.mk.injEq,Prod.mk.injEq] at hd
  simp [Mem.height,hn,hd.2.2]

theorem Shape.compare_eq (h : Shape m T) {t : Tower} (ht : t ∈ T) :
    m.compare key t.addr = some (slKeyCompare t.key key) := by
  simp [Mem.compare,(h.holds t ht).keyOf]

theorem Shape.nodeOf_eq (h : Shape m T) :
    m.nodeOf key = (T.find? fun t => t.key = key).map Tower.addr := by
  have hfind : ∀ S : List Tower, (∀ t ∈ S, t ∈ T) →
      (S.map Tower.addr).find? (fun x => m.keyOf x = some key) =
        (S.find? fun t => t.key = key).map Tower.addr := by
    intro S hS
    induction S with
    | nil => rfl
    | cons t S ih =>
      have hk := (h.holds t (hS t (by simp))).keyOf
      have hrest := ih fun s hs => hS s (by simp [hs])
      by_cases ht : t.key = key <;> simp [hk,ht,hrest]
  rw [Mem.nodeOf,h.bottom_eq]
  exact hfind T fun _ ht => ht

theorem chainAt_succ_sublist (T : List Tower) (i : ℕ) :
    (chainAt T (i+1)).Sublist (chainAt T i) := by
  refine List.Sublist.map _ (List.monotone_filter_right T fun t ht => ?_)
  simp only [decide_eq_true_eq] at ht ⊢
  omega

theorem maxHeight_mem (hT : T ≠ []) : ∃ t ∈ T, t.height = maxHeight T := by
  induction T with
  | nil => exact absurd rfl hT
  | cons t T ih =>
    by_cases hT' : T = []
    · exact ⟨t,by simp,by simp [hT']⟩
    · obtain ⟨s,hs,hm⟩ := ih hT'
      rw [maxHeight_cons]
      rcases le_total (maxHeight T) t.height with hle | hle
      · exact ⟨t,by simp,(max_eq_left hle).symm⟩
      · exact ⟨s,by simp [hs],by rw [max_eq_right hle,hm]⟩

theorem height_le_maxHeight {t : Tower} (ht : t ∈ T) : t.height ≤ maxHeight T := by
  induction T with
  | nil => simp at ht
  | cons s T ih =>
    rw [maxHeight_cons]
    rcases List.mem_cons.mp ht with rfl | ht
    · exact le_max_left ..
    · exact (ih ht).trans (le_max_right ..)

theorem Shape.level_eq (h : Shape m T) (hT : T ≠ []) : m.level = maxHeight T := by
  have hl := h.level
  rwa [if_neg hT] at hl

theorem Shape.mem_chainAt_iff (h : Shape m T) {i : ℕ} {a : Addr} :
    a ∈ chainAt T i ↔ a ∈ chainAt T 0 ∧ ∃ n, m.height a = some n ∧ i < n := by
  simp only [mem_chainAt]
  constructor
  · rintro ⟨t,ht,hi,rfl⟩
    exact ⟨⟨t,ht,h.heights t ht,rfl⟩,_,h.height_eq ht,hi⟩
  · rintro ⟨⟨t,ht,-,rfl⟩,n,hn,hi⟩
    rw [h.height_eq ht] at hn
    cases hn
    exact ⟨t,ht,hi,rfl⟩

theorem Represents.ascending (hr : Represents m T M len) :
    T.Pairwise fun s t => slKeyCompare s.key t.key = .lt := by
  have hasc : (T.map Tower.key).Pairwise (· < ·) := by
    rw [hr.keys_eq]
    exact List.pairwise_map.mpr M.ascending
  refine (List.pairwise_map.mp hasc).imp_of_mem fun {s t} hs ht hlt => ?_
  obtain ⟨e,he,hes,-⟩ := hr.tower_key hs
  obtain ⟨f,hf,hft,-⟩ := hr.tower_key ht
  exact (slKeyCompare_lt (by rw [← hes,← hft,hr.keyLen e he,hr.keyLen f hf])).mpr hlt

theorem Represents.tower_unique (hr : Represents m T M len) {s t : Tower} (hs : s ∈ T) (ht : t ∈ T)
    (hk : s.key = t.key) : s = t := by
  have hnodup : (T.map Tower.key).Nodup := by
    rw [hr.keys_eq]
    exact (List.pairwise_map.mpr M.ascending).imp fun hlt => ne_of_lt hlt
  exact List.inj_on_of_nodup_map hnodup hs ht hk

/-- The invariant, read off the towers. -/
theorem Represents.listInvariant (hr : Represents m T M len) : ListInvariant len m (chainAt T) where
  chain _ hi := hr.shape.chain_eq hi
  keys := by
    intro a ha
    obtain ⟨t,ht,-,rfl⟩ := mem_chainAt.mp ha
    obtain ⟨e,he,hek,-⟩ := hr.tower_key ht
    exact ⟨t.key,(hr.shape.holds t ht).keyOf,by rw [← hek]; exact hr.keyLen e he⟩
  ascending := by
    rw [chainAt_zero hr.shape.heights]
    refine List.pairwise_map.mpr (hr.ascending.imp_of_mem fun {s t} hs ht hlt => ?_)
    exact ⟨t.key,(hr.shape.holds t ht).keyOf,by rw [hr.shape.compare_eq hs,hlt]⟩
  tall _ _ _ := hr.shape.mem_chainAt_iff
  sublist i _ := chainAt_succ_sublist T i
  dry i hi hle := by
    rw [(hr.shape.chain i hi).next_eq,chainAt_eq_nil.mpr (hr.shape.maxHeight_le.trans hle),List.head?_nil]
  level_le := hr.shape.level_le
  top hne := by
    have hT : T ≠ [] := by
      rintro rfl
      exact hne rfl
    have hlev := hr.shape.level_eq hT
    obtain ⟨t,ht,hmax⟩ := maxHeight_mem hT
    have hpos := hr.shape.heights t ht
    have h16 := hr.shape.level_le
    refine ⟨⟨⟨t.addr,?_,?_⟩,?_⟩,?_⟩
    · exact mem_chainAt.mpr ⟨t,ht,hpos,rfl⟩
    · rw [hr.shape.height_eq ht,hmax,hlev]
    · rintro n ⟨a,ha,hn⟩
      obtain ⟨s,hs,-,rfl⟩ := mem_chainAt.mp ha
      rw [hr.shape.height_eq hs] at hn
      cases hn
      rw [hlev]
      exact height_le_maxHeight hs
    · have hnil : chainAt T (m.level-1) ≠ [] := fun h => by
        have := chainAt_eq_nil.mp h
        omega
      obtain ⟨a,l,hal⟩ := List.exists_cons_of_ne_nil hnil
      refine ⟨a,?_⟩
      rw [(hr.shape.chain (m.level-1) (by omega)).next_eq,hal,List.head?_cons]

theorem Represents.nodeOf_eq_none (hr : Represents m T M len) (hn : M.lookup key = none) :
    m.nodeOf key = none := by
  rw [hr.shape.nodeOf_eq,Option.map_eq_none_iff,List.find?_eq_none]
  intro t ht hk
  obtain ⟨e,he,hek,-⟩ := hr.tower_key ht
  exact OrderedMap.lookup_eq_none.mp hn (OrderedMap.mem_keys.mpr ⟨e,he,hek.trans (of_decide_eq_true hk)⟩)

theorem Shape.nodeOf_split {T₁ T₂ : List Tower} {t : Tower} (h : Shape m (T₁++t::T₂)) (hk : t.key = key)
    (hne : ∀ s ∈ T₁, s.key ≠ key) : m.nodeOf key = some t.addr := by
  have hnone : T₁.find? (fun s => s.key = key) = none := by
    rw [List.find?_eq_none]
    exact fun s hs => by simpa using hne s hs
  rw [h.nodeOf_eq,List.find?_append,hnone,Option.none_or,List.find?_cons_of_pos (by simpa using hk)]
  rfl

theorem Shape.chain_filter {T₁ T₂ : List Tower} {t : Tower} (h : Shape m (T₁++t::T₂)) (i : ℕ) :
    chainAt (T₁++T₂) i = (chainAt (T₁++t::T₂) i).filter (· ≠ t.addr) := by
  have hother : ∀ S : List Tower, (∀ s ∈ S, s ∈ T₁++T₂) →
      (chainAt S i).filter (· ≠ t.addr) = chainAt S i := by
    intro S hS
    rw [List.filter_eq_self]
    intro a ha
    obtain ⟨s,hs,-,rfl⟩ := mem_chainAt.mp ha
    have hnot := h.own.2.2.2
    simp only [ne_eq,decide_eq_true_eq]
    intro he
    exact hnot (List.mem_cons_of_mem _ (he ▸ List.mem_map_of_mem (hS s hs)))
  rw [chainAt_append,chainAt_append,List.filter_append,hother T₁ fun s hs => by simp [hs],chainAt_cons]
  have h₂ := hother T₂ fun s hs => by simp [hs]
  split_ifs with hi
  · rw [List.filter_cons_of_neg (by simp),h₂]
  · rw [h₂]

end

section
variable {h : Hist} {T : List Tower} {M : KeyMap} {len : ℕ}

theorem Represents.newStr (hr : Represents h.now T M len) (s : Bytes) :
    Represents (h.newStr s).2.now T M len := ⟨hr.shape.newStr s,hr.content,hr.keyLen⟩

theorem newStr_strs (h : Hist) (s : Bytes) : (h.newStr s).2.now.strs (h.newStr s).1 = some s :=
  Function.update_self ..

/-- The call goes through, keeps the towers in order and does to the chains and the counter what it
should. -/
def Steps (h : Hist) (M : KeyMap) (len : ℕ) (c : SlOp) : Prop :=
  ∃ r h' T', c.run h = some (r,h') ∧ Represents h'.now T' (c.after M) len ∧
    h'.now.length = c.counter h.now.length M ∧ c.Relinks h.now r h'.now

theorem mem_keys_of_lookup {M : KeyMap} {key v : Bytes} (hv : M.lookup key = some v) : key ∈ M.keys :=
  OrderedMap.mem_keys.mpr ⟨_,OrderedMap.lookup_eq_some.mp hv,rfl⟩

theorem Represents.steps_insert_absent (hr : Represents h.now T M len) {key : Bytes} (hk : key.length = len)
    (hn : M.lookup key = none) (value : Bytes) (target : Level) : Steps h M len (.insert key value target) := by
  obtain ⟨h',T₁,T₂,t,rfl,hsplit,hne,hrun,hr',htk,hth,hlen,-⟩ :=
    (hr.newStr value).insertSkiplist_tower hk hn (newStr_strs h value) target
  refine ⟨0,h',_,hrun,hr',hlen,?_⟩
  have hkey : h'.now.keyOf t.addr = some key := htk ▸ (hr'.shape.holds t (by simp)).keyOf
  have hheight : h'.now.height t.addr = some target.1 := hth ▸ hr'.shape.height_eq (by simp)
  simp only [SlOp.Relinks,hr.nodeOf_eq_none hn,true_and]
  refine ⟨t.addr,hkey,hheight,fun i hi => ?_⟩
  rw [hr.shape.chain_eq hi,hr'.shape.chain_eq hi,chainAt_append,chainAt_append,chainAt_cons,hth]
  split_ifs with hlt
  · refine ⟨_,_,rfl,rfl,fun a ha => ?_,fun a ha => ?_⟩
    · obtain ⟨s,hs,-,rfl⟩ := mem_chainAt.mp ha
      rw [hr.shape.compare_eq (by simp [hs]),hsplit.below s hs]
    · obtain ⟨s,hs,-,rfl⟩ := mem_chainAt.mp ha
      have hnlt := hsplit.above s hs
      have hneq := hne s hs
      rw [hr.shape.compare_eq (by simp [hs])]
      cases hc : slKeyCompare s.key key with
      | lt => exact absurd hc hnlt
      | eq => exact absurd hc hneq
      | gt => rfl
  · rfl

theorem Represents.steps_insert_present (hr : Represents h.now T M len) {key v : Bytes}
    (hk : key.length = len) (hv : M.lookup key = some v) (value : Bytes) (target : Level) :
    Steps h M len (.insert key value target) := by
  obtain ⟨h',T₁,t,T₂,rfl,htk,hfront,hrun,hr',hlen,-⟩ := (hr.newStr value).insertSkiplist_overwrite_tower
    hk hv (newStr_strs h value) hr.shape.nextStr_notMem (Nat.lt_succ_self _) target true
  refine ⟨0,h',_,hrun,hr',hlen,?_⟩
  simp only [SlOp.Relinks,hr.shape.nodeOf_split htk hfront,true_and]
  intro i hi
  rw [hr.shape.chain_eq hi,hr'.shape.chain_eq hi]
  simp only [chainAt_append,chainAt_cons]

theorem Represents.steps_delete (hr : Represents h.now T M len) {key : Bytes} (hk : key.length = len) :
    Steps h M len (.delete key) := by
  cases hl : M.lookup key with
  | none =>
    refine ⟨-1,h,T,hr.deleteSkiplist_absent hk hl,?_,?_,?_⟩
    · rw [SlOp.after,OrderedMap.erase_absent hl]
      exact hr
    · rw [SlOp.counter,if_neg (OrderedMap.lookup_eq_none.mp hl)]
    · simp only [SlOp.Relinks,hr.nodeOf_eq_none hl,and_self]
  | some v =>
    obtain ⟨h',T₁,t,T₂,rfl,htk,hfront,hrun,hr',hlen,-⟩ := hr.deleteSkiplist_tower hk hl
    refine ⟨0,h',_,hrun,hr',?_,?_⟩
    · rw [SlOp.counter,if_pos (mem_keys_of_lookup hl),hlen]
    · simp only [SlOp.Relinks,hr.shape.nodeOf_split htk hfront,true_and]
      intro i hi
      rw [hr.shape.chain_eq hi,hr'.shape.chain_eq hi,Option.map_some,hr.shape.chain_filter]

theorem Represents.steps_replace (hr : Represents h.now T M len) {key : Bytes} (hk : key.length = len)
    (newVal : Bytes) : Steps h M len (.replace key newVal) := by
  cases hl : M.lookup key with
  | none =>
    refine ⟨-1,h,T,hr.replaceSkiplist_absent hk hl newVal,?_,rfl,?_⟩
    · rw [SlOp.after,if_neg (OrderedMap.lookup_eq_none.mp hl)]
      exact hr
    · simp only [SlOp.Relinks,hr.nodeOf_eq_none hl,and_self]
  | some v =>
    obtain ⟨h',T₁,t,t',T₂,rfl,htk,hfront,-,-,hth,hta,hrun,hr',hlen,-⟩ :=
      hr.replaceSkiplist_tower hk hl newVal
    refine ⟨0,h',T₁++t'::T₂,hrun,?_,hlen,?_⟩
    · rw [SlOp.after,if_pos (mem_keys_of_lookup hl)]
      exact hr'
    · simp only [SlOp.Relinks,hr.shape.nodeOf_split htk hfront,true_and]
      intro i hi
      rw [hr.shape.chain_eq hi,hr'.shape.chain_eq hi]
      simp only [chainAt_append,chainAt_cons,hta,hth]

theorem Represents.steps (hr : Represents h.now T M len) {c : SlOp} (hk : c.key.length = len) :
    Steps h M len c := by
  cases c with
  | insert key value target =>
    cases hl : M.lookup key with
    | none => exact hr.steps_insert_absent hk hl value target
    | some v => exact hr.steps_insert_present hk hl value target
  | delete key => exact hr.steps_delete hk
  | replace key newVal => exact hr.steps_replace hk newVal

theorem Represents.runOps (hr : Represents h.now T M len) {cs : List SlOp}
    (hcs : ∀ c ∈ cs, c.key.length = len) :
    ∃ h' T', Tadpole.runOps h cs = some h' ∧
      Represents h'.now T' (cs.foldl (fun M c => c.after M) M) len := by
  induction cs generalizing h T M with
  | nil => exact ⟨h,T,rfl,hr⟩
  | cons c cs ih =>
    obtain ⟨r,h₁,T₁,hrun,hr₁,-⟩ := hr.steps (hcs c (by simp))
    obtain ⟨h',T',hruns,hr'⟩ := ih hr₁ fun d hd => hcs d (by simp [hd])
    exact ⟨h',T',by rw [Tadpole.runOps,hrun]; exact hruns,hr'⟩

end

theorem reachOps_represents {len : ℕ} {cs : List SlOp} (hcs : ∀ c ∈ cs, c.key.length = len) :
    ∃ h T, reachOps cs = some h ∧
      Represents h.now T (cs.foldl (fun M c => c.after M) OrderedMap.empty) len :=
  (createSkiplist_represents len).runOps (h:=⟨createSkiplist,[]⟩) hcs

/-- Every run over keys of one length goes through and ends with the invariant; every call and every
lookup from there goes through, and a call relinks as it should. -/
theorem reachOps_listInvariant (len : ℕ) (cs : List SlOp) (hcs : ∀ c ∈ cs, c.key.length = len) :
    ∃ h ch, reachOps cs = some h ∧ ListInvariant len h.now ch ∧
      (∀ c : SlOp, c.key.length = len → ∃ r h', c.run h = some (r,h') ∧ c.Relinks h.now r h'.now) ∧
      (∀ key : Bytes, key.length = len → ∃ p, searchSkiplist h.now key = some p) ∧
      (ch 0 ≠ [] → ∃ k, findMaxSkiplist h.now = some k) := by
  obtain ⟨h,T,hreach,hr⟩ := reachOps_represents hcs
  refine ⟨h,chainAt T,hreach,hr.listInvariant,fun c hc => ?_,fun key hk => ?_,fun hne => ?_⟩
  · obtain ⟨r,h',-,hrun,-,-,hrel⟩ := hr.steps hc
    exact ⟨r,h',hrun,hrel⟩
  · cases hl : (cs.foldl (fun M c => c.after M) OrderedMap.empty).lookup key with
    | none => exact ⟨_,hr.searchSkiplist_absent hk hl⟩
    | some v =>
      obtain ⟨p,hp,-⟩ := hr.searchSkiplist_present hk hl
      exact ⟨_,hp⟩
  · obtain ⟨T',t,rfl⟩ := (List.eq_nil_or_concat' T).resolve_left fun h => hne (by rw [h]; rfl)
    exact ⟨t.key,findMaxSkiplist_last hr.shape⟩

def twoInserts : List SlOp :=
  [.insert (str "b") (str "1") (genRandomLevel 2),.insert (str "a") (str "2") (genRandomLevel 0)]

theorem reachOps_listInvariant_twoInserts : ∃ h ch, reachOps twoInserts = some h ∧ ListInvariant 1 h.now ch := by
  obtain ⟨h,ch,hreach,hinv,-⟩ := reachOps_listInvariant 1 twoInserts (by decide)
  exact ⟨h,ch,hreach,hinv⟩

end Tadpole
