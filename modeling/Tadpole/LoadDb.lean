import Tadpole.SaveDb

/-! `loadDb` of db.c: what a file does to an empty store. A record is split at its spaces and goes to
the dict and the list unchecked; an insertion that hits a node leaves it a value that is freed with
the record. -/
namespace Tadpole

/-- The buffer one `getline` fills: the line with its newline, a NUL, and what else lies in it. -/
structure Read where
  line : Bytes
  slack : Bytes

def Read.buffer (r : Read) : Bytes := r.line++[NUL]++r.slack

/-- The capacity `getline` reports. -/
def Read.len (r : Read) : ℕ := r.buffer.length

/-- `sdsnewlen(line,len-2)`, split at the spaces. -/
def Read.kvs (r : Read) : Option (List Bytes) :=
  let tmp := r.buffer.take (r.len-2)
  sdssplitlen tmp (int32 tmp.length) SPACE

/-- The body of the loop once there are two tokens, from their allocation to their free. -/
def loadRecord (s : Server) (key val : Bytes) (level : Level) : Option Server := do
  let (p,h) := (⟨s.mem,[]⟩ : Hist).newStr val
  let (_,h) ← insertSkiplist h key p level true
  let h ← h.freeStr p
  some {s with dict := insert key s.dict, mem := h.now}

theorem loadRecord_eq (s : Server) (key val : Bytes) (level : Level) :
    loadRecord s key val level = (do
      let (_,h) ← insertSkiplist ((⟨s.mem,[]⟩ : Hist).newStr val).2 key s.mem.nextStr level true
      let h ← h.freeStr s.mem.nextStr
      some {s with dict := insert key s.dict, mem := h.now}) := rfl

/-- `loadDb` ends the process or leaves a store. -/
inductive Loaded
  | exit
  | store (s : Server)

/-- The loop, with the level each insertion would draw. Without tokens `count` is not set, which is
undefined behaviour. -/
def loadDb (s : Server) : List (Read × Level) → Option Loaded
  | [] => some (.store s)
  | (r,level)::rs => do
    match ← r.kvs with
    | [key,val] =>
      let s ← loadRecord s key val level
      loadDb s rs
    | _ => some .exit

/-- The nodes by key; a freed value is `none`. -/
abbrev NodeMap := OrderedMap Bytes (Option Bytes)

/-- The node an insertion of the key hits: that of the key, or the least one where the key has
another length than the keys in the list. -/
def hitNode (N : NodeMap) (key : Bytes) : Option Bytes :=
  match N.least with
  | none => none
  | some k => if k.length ≠ key.length then some k else if key ∈ N.keys then some key else none

/-- The nodes after these records, unless a node is hit twice and its value freed twice. -/
def nodesAfter (N : NodeMap) : List (Bytes × Bytes) → Option NodeMap
  | [] => some N
  | (key,val)::es =>
    match hitNode N key with
    | none => nodesAfter (N.insert key (some val)) es
    | some k => if N.lookup k = some none then none else nodesAfter (N.insert k none) es

/-- The list bears the nodes, and the dict has the keys of the records so far. -/
structure Bears (s : Server) (N : NodeMap) (T : List Tower) (es : List (Bytes × Bytes)) : Prop where
  shape : Shape s.mem T
  content : T.map Tower.content = N.entries
  keyLen : ∀ e ∈ N.entries, ∀ k ∈ N.least, e.1.length = k.length
  length : s.mem.length = int32 es.length
  dict : s.dict = (es.map Prod.fst).toFinset

theorem initServer_bears (fl : Option FixedLength) : Bears (initServer fl) OrderedMap.empty [] [] where
  shape := createSkiplist_shape
  content := rfl
  keyLen := by simp
  length := rfl
  dict := rfl

section
variable {s : Server} {N : NodeMap} {T : List Tower} {es : List (Bytes × Bytes)} {key val : Bytes}

theorem least_mem {k : Bytes} (h : N.least = some k) : ∃ e ∈ N.entries, e.1 = k := by
  obtain ⟨e,he,rfl⟩ := Option.map_eq_some_iff.mp h
  exact ⟨e,List.mem_of_mem_head? he,rfl⟩

theorem Bears.split_node (h : Bears s N T es) {k : Bytes} {w : Option Bytes} (hk : N.lookup k = some w) :
    ∃ T₁ t T₂, T = T₁++t::T₂ ∧ t.key = k ∧ t.val = w ∧
      (∀ t' ∈ T₁, slKeyCompare t'.key k = .lt) ∧ (∀ t' ∈ T₂, slKeyCompare t'.key k = .gt) ∧
      (N.least = some k → T₁ = []) ∧
      ∀ t' w', t'.content = (k,w') → (T₁++t'::T₂).map Tower.content = (N.insert k w').entries := by
  have hmem : (k,w) ∈ N.entries := OrderedMap.lookup_eq_some.mp hk
  have hlen : ∀ e ∈ N.entries, e.1.length = k.length := by
    obtain ⟨e₀,l,hl⟩ := List.exists_cons_of_ne_nil (List.ne_nil_of_mem hmem)
    have hleast : e₀.1 ∈ N.least := by simp [OrderedMap.least,hl]
    exact fun e he => (h.keyLen e he _ hleast).trans (h.keyLen _ hmem _ hleast).symm
  obtain ⟨a,b,c,T₁,T₂,T₃,hs,rfl,h₁,h₂,h₃,ha,hc,hb,h1,hlt,-,hgt⟩ :=
    content_split (f:=id) (fun _ => rfl) (by rw [h.content,List.map_id]) hlen rfl
  rw [OrderedMap.split_present hs ha hc hb h1 hk] at h₂
  obtain ⟨t,rfl⟩ : ∃ t, T₂ = [t] := by
    have := congrArg List.length h₂
    simpa [List.length_eq_one_iff] using this
  simp only [List.map_cons,List.map_nil,List.cons.injEq,and_true,Tower.content,id_eq,Prod.mk.injEq] at h₂
  refine ⟨T₁,t,T₃,rfl,h₂.1,h₂.2,hlt,fun t' ht' => (hgt t' ht').1,fun hleast => ?_,fun t' w' ht' => ?_⟩
  · obtain ⟨e,he,hek⟩ := Option.map_eq_some_iff.mp hleast
    rw [hs] at he
    cases a with
    | nil => simpa using h₁
    | cons e' a =>
      obtain rfl : e' = e := by simpa using he
      exact absurd hek (ha e' (by simp)).ne
  · rw [OrderedMap.insert_split hs ha hc hb h1 w',List.map_append,List.map_cons,h₁,h₃,ht']
    simp

theorem Bears.split_hit (h : Bears s N T es) {k : Bytes} (hk : hitNode N key = some k) :
    ∃ T₁ t T₂, T = T₁++t::T₂ ∧ SplitsAt key T₁ (t::T₂) ∧ slKeyCompare t.key key = .eq ∧
      t.key = k ∧ N.lookup k = some t.val ∧
      ∀ t' w, t'.content = (k,w) → (T₁++t'::T₂).map Tower.content = (N.insert k w).entries := by
  unfold hitNode at hk
  split at hk
  · cases hk
  · rename_i l hl
    split_ifs at hk with hlen hin
    · obtain rfl := Option.some.inj hk
      obtain ⟨e,he,hel⟩ := least_mem hl
      have hw : N.lookup l = some e.2 := OrderedMap.lookup_eq_some.mpr (hel ▸ he)
      obtain ⟨T₁,t,T₂,rfl,htk,htv,-,-,hfirst,hins⟩ := h.split_node hw
      obtain rfl := hfirst hl
      -- every key compares as equal to one of another length
      have hall : ∀ t' ∈ t::T₂, slKeyCompare t'.key key = .eq := by
        intro t' ht'
        have hm : t'.content ∈ N.entries := by
          rw [← h.content]
          exact List.mem_map_of_mem ht'
        refine slKeyCompare_of_ne ?_
        rw [show t'.key.length = l.length from h.keyLen _ hm l hl]
        exact hlen
      refine ⟨[],t,T₂,rfl,⟨by simp,fun t' ht' => ?_⟩,hall t (by simp),htk,by rw [hw,htv],hins⟩
      rw [hall t' ht']
      decide
    · obtain rfl := Option.some.inj hk
      obtain ⟨w,hw⟩ := Option.ne_none_iff_exists'.mp
        (fun hn => OrderedMap.lookup_eq_none.mp hn hin : N.lookup key ≠ none)
      obtain ⟨T₁,t,T₂,rfl,htk,htv,hlt,hgt,-,hins⟩ := h.split_node hw
      have heq : slKeyCompare t.key key = .eq := (slKeyCompare_eq (by rw [htk])).mpr htk
      refine ⟨T₁,t,T₂,rfl,⟨hlt,fun t' ht' => ?_⟩,heq,htk,by rw [hw,htv],hins⟩
      rcases List.mem_cons.mp ht' with rfl | ht'
      · rw [heq]
        decide
      · rw [hgt t' ht']
        decide

theorem Bears.split_miss (h : Bears s N T es) (hk : hitNode N key = none) :
    ∃ T₁ T₂, T = T₁++T₂ ∧ SplitsAt key T₁ T₂ ∧ (∀ t ∈ T₂, slKeyCompare t.key key ≠ .eq) ∧
      N.lookup key = none ∧ (∀ e ∈ N.entries, e.1.length = key.length) ∧
      ∀ t w, t.content = (key,w) → (T₁++t::T₂).map Tower.content = (N.insert key w).entries := by
  have hlen : (∀ e ∈ N.entries, e.1.length = key.length) ∧ N.lookup key = none := by
    unfold hitNode at hk
    split at hk
    · rename_i hl
      have hnil : N.entries = [] := by simpa [OrderedMap.least] using hl
      exact ⟨by simp [hnil],by simp [OrderedMap.lookup,hnil]⟩
    · rename_i l hl
      split_ifs at hk with hlen hin
      exact ⟨fun e he => (h.keyLen e he l hl).trans (not_not.mp hlen),OrderedMap.lookup_eq_none.mpr hin⟩
  obtain ⟨a,b,c,T₁,T₂,T₃,hs,rfl,h₁,h₂,h₃,ha,hc,hb,h1,hlt,-,hgt⟩ :=
    content_split (f:=id) (fun _ => rfl) (by rw [h.content,List.map_id]) hlen.1 rfl
  obtain rfl : T₂ = [] := by simpa [OrderedMap.split_absent hs ha hc hb hlen.2] using h₂
  refine ⟨T₁,T₃,by simp,⟨hlt,?_⟩,?_,hlen.2,hlen.1,?_⟩
  · intro t ht
    rw [(hgt t ht).1]
    decide
  · intro t ht
    rw [(hgt t ht).1]
    decide
  · intro t w ht
    rw [OrderedMap.insert_split hs ha hc hb h1 w,List.map_append,List.map_cons,h₁,h₃,ht]
    simp

theorem keyLen_of_all {n : ℕ} (h : ∀ e ∈ N.entries, e.1.length = n) :
    ∀ e ∈ N.entries, ∀ k ∈ N.least, e.1.length = k.length := by
  intro e he k hk
  obtain ⟨e',he',rfl⟩ := least_mem hk
  rw [h e he,h e' he']

theorem length_step {n : ℤ} (h : n = int32 es.length) (e : Bytes × Bytes) :
    int32 (n+1) = int32 (es++[e]).length := by
  rw [h,int32_step,List.length_append]
  rfl

theorem dict_step {d : Finset Bytes} (h : d = (es.map Prod.fst).toFinset) (e : Bytes × Bytes) :
    insert e.1 d = ((es++[e]).map Prod.fst).toFinset := by
  subst h
  ext k
  simp only [List.mem_toFinset,Finset.mem_insert,List.map_append,List.mem_append,List.map_singleton,
    List.mem_singleton]
  exact or_comm

theorem Bears.record_miss (h : Bears s N T es) (hk : hitNode N key = none) (val : Bytes) (level : Level) :
    ∃ s' T', loadRecord s key val level = some s' ∧
      Bears s' (N.insert key (some val)) T' (es++[(key,val)]) := by
  obtain ⟨T₁,T₂,rfl,hs,hne,-,hlen,hins⟩ := h.split_miss hk
  let h₁ : Hist := ((⟨s.mem,[]⟩ : Hist).newStr val).2
  have hs₁ : Shape h₁.now (T₁++T₂) := h.shape.newStr (h:=⟨s.mem,[]⟩) val
  have hp₁ : h₁.now.strs s.mem.nextStr = some val := Function.update_self ..
  obtain ⟨h₂,t,hi,hs₂,htk,htv,-,hcount,hkeep,-⟩ := insertSkiplist_absent level hs₁ hs
    (fun t ht => hne t (List.mem_of_mem_head? ht)) hp₁
  obtain ⟨-,hstr,hnot⟩ := hkeep s.mem.nextStr (Nat.lt_succ_self _) h.shape.nextStr_notMem
  obtain ⟨h₃,hf,hs₃,hlen₃⟩ := freeForeign_spec hs₂ hnot (hstr.trans hp₁)
  refine ⟨{s with dict := insert key s.dict, mem := h₃.now},T₁++t::T₂,?_,hs₃,?_,?_,?_,?_⟩
  · rw [loadRecord_eq]
    exact Option.bind_eq_some_iff.mpr ⟨_,hi,Option.bind_eq_some_iff.mpr ⟨_,hf,rfl⟩⟩
  · exact hins t (some val) (by simp [Tower.content,htk,htv])
  · refine keyLen_of_all (n:=key.length) fun e he => ?_
    rcases OrderedMap.mem_insertList he with rfl | he
    · rfl
    · exact hlen e he
  · rw [hlen₃,hcount]
    exact length_step h.length (key,val)
  · exact dict_step h.dict (key,val)

/-- A record that hits a node leaves it without a value, and counts it again. -/
theorem Bears.record_hit (h : Bears s N T es) {k v : Bytes} (hk : hitNode N key = some k)
    (hv : N.lookup k = some (some v)) (val : Bytes) (level : Level) :
    ∃ s' T', loadRecord s key val level = some s' ∧ Bears s' (N.insert k none) T' (es++[(key,val)]) := by
  obtain ⟨T₁,t,T₂,rfl,hs,heq,htk,htv,hins⟩ := h.split_hit hk
  let h₁ : Hist := ((⟨s.mem,[]⟩ : Hist).newStr val).2
  have hs₁ : Shape h₁.now (T₁++t::T₂) := h.shape.newStr (h:=⟨s.mem,[]⟩) val
  have hp₁ : h₁.now.strs s.mem.nextStr = some val := Function.update_self ..
  have hold : t.val = some v := Option.some.inj (htv.symm.trans hv)
  obtain ⟨h₂,hi,hs₂,hcount,-⟩ := insertSkiplist_present level true hs₁ hs heq hold
    h.shape.nextStr_notMem (Nat.lt_succ_self _)
  obtain ⟨h₃,hf,-,hs₃,hlen₃,-⟩ := freeVal_spec (v:=val) hs₂ hp₁
  refine ⟨{s with dict := insert key s.dict, mem := h₃.now},_,?_,hs₃,?_,?_,?_,?_⟩
  · rw [loadRecord_eq]
    exact Option.bind_eq_some_iff.mpr ⟨_,hi,Option.bind_eq_some_iff.mpr ⟨_,hf,rfl⟩⟩
  · exact hins _ none (by simp [Tower.content,htk])
  · obtain ⟨e₀,l,hl⟩ := List.exists_cons_of_ne_nil
      (List.ne_nil_of_mem (OrderedMap.lookup_eq_some.mp hv))
    have hleast : e₀.1 ∈ N.least := by simp [OrderedMap.least,hl]
    refine keyLen_of_all (n:=e₀.1.length) fun e he => ?_
    rcases OrderedMap.mem_insertList he with rfl | he
    · exact h.keyLen _ (OrderedMap.lookup_eq_some.mp hv) _ hleast
    · exact h.keyLen e he _ hleast
  · rw [hlen₃,hcount]
    exact length_step h.length (key,val)
  · exact dict_step h.dict (key,val)

/-- A record that hits a node without a value frees it again. -/
theorem Bears.record_dead (h : Bears s N T es) {k : Bytes} (hk : hitNode N key = some k)
    (hv : N.lookup k = some none) (val : Bytes) (level : Level) : loadRecord s key val level = none := by
  obtain ⟨T₁,t,T₂,rfl,hs,heq,htk,htv,-⟩ := h.split_hit hk
  let h₁ : Hist := ((⟨s.mem,[]⟩ : Hist).newStr val).2
  have hs₁ : Shape h₁.now (T₁++t::T₂) := h.shape.newStr (h:=⟨s.mem,[]⟩) val
  have hi := insertSkiplist_dead s.mem.nextStr level true hs₁ hs heq
    (Option.some.inj (htv.symm.trans hv))
  rw [loadRecord_eq,hi]
  rfl

/-- The loop over records that all have two fields. -/
theorem Bears.loadDb_append (h : Bears s N T es) {rs : List (Read × Level)} {fs : List (Bytes × Bytes)}
    (hrs : rs.map (fun r => r.1.kvs) = fs.map fun e => some [e.1,e.2]) (rest : List (Read × Level)) :
    (nodesAfter N fs = none → loadDb s (rs++rest) = none) ∧
      ∀ N', nodesAfter N fs = some N' → ∃ s' T', loadDb s (rs++rest) = loadDb s' rest ∧
        Bears s' N' T' (es++fs) := by
  induction rs generalizing s N T es fs with
  | nil =>
    obtain rfl : fs = [] := by simpa using hrs.symm
    refine ⟨fun hn => by simp [nodesAfter] at hn,fun N' hN => ?_⟩
    obtain rfl := Option.some.inj hN
    exact ⟨s,T,rfl,by simpa using h⟩
  | cons r rs ih =>
    obtain ⟨⟨key,val⟩,fs,rfl⟩ : ∃ e fs', fs = e::fs' := by
      cases fs with
      | nil => simp at hrs
      | cons e fs => exact ⟨e,fs,rfl⟩
    obtain ⟨r,level⟩ := r
    simp only [List.map_cons,List.cons.injEq] at hrs
    obtain ⟨hr,hrs⟩ := hrs
    have hstep : loadDb s ((r,level)::rs++rest) =
        (loadRecord s key val level).bind fun s => loadDb s (rs++rest) := by
      rw [List.cons_append,loadDb,hr]
      rfl
    rw [hstep,nodesAfter]
    have happ : es++(key,val)::fs = es++[(key,val)]++fs := by simp
    cases hk : hitNode N key with
    | none =>
      obtain ⟨s₁,T₁,hrec,hs₁⟩ := h.record_miss hk val level
      rw [hrec,Option.bind_some,happ]
      exact ih hs₁ hrs
    | some k =>
      obtain ⟨T₁,t,T₂,-,-,-,-,hw,-⟩ := h.split_hit hk
      simp only []
      cases hv : t.val with
      | none =>
        rw [hv] at hw
        rw [if_pos hw,h.record_dead hk hw val level]
        exact ⟨fun _ => rfl,nofun⟩
      | some v =>
        rw [hv] at hw
        obtain ⟨s₁,T₁,hrec,hs₁⟩ := h.record_hit hk hw val level
        rw [if_neg (by simp [hw]),hrec,Option.bind_some,happ]
        exact ih hs₁ hrs

end

end Tadpole
