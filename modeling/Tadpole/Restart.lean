import Tadpole.LoadInvariant

/-! Save and load again: which getline buffers give the store back. -/
namespace Tadpole

/-- The lines `getline` finds in a file: each has its newline, but for a rest at the end. -/
def fileLines (cur : Bytes) : Bytes → List Bytes
  | [] => if cur = [] then [] else [cur]
  | b::s => if b = LF then (cur++[b])::fileLines [] s else fileLines (cur++[b]) s

def Plain (s : Bytes) : Prop := SPACE ∉ s ∧ LF ∉ s ∧ NUL ∉ s

def Call.Storing : Call → Prop
  | .put key value => Plain key ∧ Plain value
  | .delete _ => True
  | _ => False

def reach (s : Server) : List (Call × Level) → Option Server
  | [] => some s
  | (c,level)::cs => do
    let (s,_) ← c.run s ⟨level,true⟩
    reach s cs

/-- The reads give a fresh store the same pairs, counter and keys. -/
def Reloads (s : Server) (rs : List (Read × Level)) : Prop :=
  ∃ es s', s.mem.pairs = some es ∧ loadDb (initServer s.fl) rs = some (.store s') ∧
    s'.mem.pairs = some es ∧ s'.mem.length = s.mem.length ∧ s'.dict = (es.map Prod.fst).toFinset

theorem fileLines_line {s : Bytes} (h : LF ∉ s) (cur t : Bytes) :
    fileLines cur (s++LF::t) = (cur++s++[LF])::fileLines [] t := by
  induction s generalizing cur with
  | nil => simp [fileLines]
  | cons b s ih =>
    simp only [List.mem_cons,not_or] at h
    rw [List.cons_append,fileLines,if_neg (Ne.symm h.1),ih h.2]
    simp

theorem printRecord_plain {e : Bytes × Bytes} (hk : Plain e.1) (hv : Plain e.2) :
    printRecord e = e.1++SPACE::(e.2++[LF]) := by
  rw [printRecord_eq hk.2.2 hv.2.2]
  simp

theorem fileLines_records {es : List (Bytes × Bytes)} (h : ∀ e ∈ es, Plain e.1 ∧ Plain e.2) :
    fileLines [] (es.flatMap printRecord) = es.map printRecord := by
  induction es with
  | nil => rfl
  | cons e es ih =>
    obtain ⟨hk,hv⟩ := h e (by simp)
    have hclean : LF ∉ e.1++SPACE::e.2 := by
      simp only [List.mem_append,List.mem_cons,not_or]
      exact ⟨hk.2.1,by decide,hv.2.1⟩
    have hline : printRecord e++es.flatMap printRecord =
        (e.1++SPACE::e.2)++LF::es.flatMap printRecord := by
      rw [printRecord_plain hk hv]
      simp
    rw [List.flatMap_cons,List.map_cons,hline,fileLines_line hclean,ih fun e he => h e (by simp [he]),
      printRecord_plain hk hv]
    simp

theorem tmpFile_success (es : List (Bytes × Bytes)) : tmpFile .success es = es.flatMap printRecord := by
  have h : ∀ i, printLoop .success i es = es.flatMap printRecord := by
    induction es with
    | nil => exact fun _ => rfl
    | cons e es ih =>
      intro i
      rw [printLoop,ih (i+1)]
      rfl
  exact h 0

/-- A record comes back as it was exactly when the capacity passes the fit by a multiple of 2^32:
the `int` that counts the bytes to split is then the length of the line. -/
theorem Read.kvs_record {r : Read} {k v : Bytes} (hline : r.line = k++SPACE::(v++[LF])) (hk : SPACE ∉ k)
    (hv : SPACE ∉ v) (hlen : r.line.length < 2147483648) :
    (4294967296 ∣ r.slack.length → r.kvs = some [k,v]) ∧
      ∀ k' v', r.kvs = some [k',v'] → k' = k ∧ (v' = v → 4294967296 ∣ r.slack.length) := by
  have hbuf : r.buffer = (k++SPACE::v)++LF::NUL::r.slack := by
    rw [Read.buffer,hline]
    simp
  have hll : r.line.length = (k++SPACE::v).length+1 := by
    rw [hline]
    simp
    omega
  have hlen2 : r.len-2 = (k++SPACE::v).length+r.slack.length := by
    rw [Read.len,hbuf,List.length_append,List.length_cons,List.length_cons]
    omega
  have htmp : (r.buffer.take (r.len-2)).length = (k++SPACE::v).length+r.slack.length := by
    rw [List.length_take,hlen2,hbuf]
    simp only [List.length_append,List.length_cons]
    omega
  have hpos : 0 < (k++SPACE::v).length := by simp
  rw [Read.kvs]
  simp only [htmp]
  constructor
  · intro hdvd
    have hn : int32 ((k++SPACE::v).length+r.slack.length : ℕ) = ((k++SPACE::v).length : ℤ) := by
      unfold int32
      omega
    rw [hn,sdssplitlen,if_neg (by omega),if_neg (by omega),Int.toNat_natCast,List.take_take,hlen2,
      min_eq_left (by omega),hbuf,List.take_left,splitByte_append hk,splitByte_of_notMem hv]
    simp
  · intro k' v' h
    rw [sdssplitlen] at h
    split_ifs at h with h₁ h₂
    · simp at h
    · obtain ⟨t,ht,hcut,hk',hv'⟩ := splitByte_two (Option.some.inj h)
      obtain rfl : t = k' := by simpa using ht
      rw [List.take_take] at hcut
      have hwhole := List.take_append_drop
        (min (int32 ((k++SPACE::v).length+r.slack.length : ℕ)).toNat (r.len-2)) r.buffer
      rw [hcut] at hwhole
      have hfront : k++SPACE::(v++LF::NUL::r.slack) = t++SPACE::(v'++r.buffer.drop
          (min (int32 ((k++SPACE::v).length+r.slack.length : ℕ)).toNat (r.len-2))) := by
        calc k++SPACE::(v++LF::NUL::r.slack) = r.buffer := by rw [hbuf]; simp
          _ = t++SPACE::v'++_ := hwhole.symm
          _ = _ := by simp
      obtain rfl : k = t := front_inj hk hk' hfront
      refine ⟨rfl,?_⟩
      rintro rfl
      have hn := congrArg List.length hcut
      rw [List.length_take,← Read.len] at hn
      unfold int32 at *
      omega

def PlainMap (M : KeyMap) : Prop := ∀ e ∈ M.entries, Plain e.1 ∧ Plain e.2

theorem PlainMap.refStep {M : KeyMap} (h : PlainMap M) (fl : FixedLength) {c : Call} (hc : c.Storing) :
    PlainMap (Tadpole.refStep fl M c).1 := by
  intro e he
  rcases mem_refStep he with he | ⟨rfl,-,-⟩
  · exact h e he
  · exact ⟨hc.1,hc.2⟩

section
variable {s : Server} {fl : FixedLength} {M : KeyMap} {T : List Tower}

theorem Stores.storing (h : Stores s fl M T) {c : Call} (hc : c.Storing) (hargs : c.ArgsOk) (level : Level) :
    ∃ s' out T', c.run s ⟨level,true⟩ = some (s',out) ∧ Stores s' fl (refStep fl M c).1 T' := by
  cases c with
  | put key value =>
    obtain ⟨s',out,T',hrun,-,hs'⟩ := h.put key value level (hargs key (by simp [Call.args]))
      (hargs value (by simp [Call.args]))
    exact ⟨s',out,T',hrun,hs'⟩
  | delete key =>
    obtain ⟨s',out,T',hrun,-,hs'⟩ := h.delete key
    exact ⟨s',out,T',hrun,hs'⟩
  | get key => cases hc
  | scan start stop => cases hc
  | info => cases hc

theorem Stores.reach (h : Stores s fl M T) (hM : PlainMap M) {cs : List (Call × Level)}
    (hcs : ∀ c ∈ cs, c.1.Storing ∧ c.1.ArgsOk) {s' : Server} (hreach : Tadpole.reach s cs = some s') :
    ∃ M' T', Stores s' fl M' T' ∧ PlainMap M' := by
  induction cs generalizing s M T with
  | nil =>
    obtain rfl := Option.some.inj hreach
    exact ⟨M,T,h,hM⟩
  | cons c cs ih =>
    obtain ⟨c,level⟩ := c
    obtain ⟨hc,hargs⟩ := hcs (c,level) (by simp)
    obtain ⟨s₁,out,T₁,hrun,hs₁⟩ := h.storing hc hargs level
    rw [Tadpole.reach,hrun] at hreach
    exact ih hs₁ (hM.refStep fl hc) (fun c hc => hcs c (by simp [hc])) hreach

theorem Stores.line (h : Stores s fl M T) (hM : PlainMap M) {e : Bytes × Bytes} (he : e ∈ M.entries) :
    printRecord e = e.1++SPACE::(e.2++[LF]) ∧ (printRecord e).length < 2147483648 := by
  have hline := printRecord_plain (hM e he).1 (hM e he).2
  have hk : e.1.length ≤ 536870912 := (h.keeps.small e he).1
  have hv : e.2.length ≤ 536870912 := (h.keeps.small e he).2
  refine ⟨hline,?_⟩
  rw [hline]
  simp only [List.length_append,List.length_cons,List.length_nil]
  omega

theorem records_of_loadDb {rs : List (Read × Level)} {s s' : Server} (h : loadDb s rs = some (.store s')) :
    ∃ fs : List (Bytes × Bytes), rs.map (fun r => r.1.kvs) = fs.map fun e => some [e.1,e.2] := by
  induction rs generalizing s with
  | nil => exact ⟨[],rfl⟩
  | cons r rs ih =>
    obtain ⟨r,level⟩ := r
    obtain ⟨kvs,hkvs,h⟩ := Option.bind_eq_some_iff.mp h
    split at h
    · rename_i key val
      obtain ⟨s₁,-,h⟩ := Option.bind_eq_some_iff.mp h
      obtain ⟨fs,hfs⟩ := ih h
      exact ⟨(key,val)::fs,by simp [hkvs,hfs]⟩
    · cases h

theorem Stores.kvs_lines (h : Stores s fl M T) (hM : PlainMap M) {es : List (Bytes × Bytes)}
    (hes : ∀ e ∈ es, e ∈ M.entries) {rs : List (Read × Level)}
    (hrs : rs.map (fun r => r.1.line) = es.map printRecord) :
    ((∀ r ∈ rs, 4294967296 ∣ r.1.slack.length) →
      rs.map (fun r => r.1.kvs) = es.map fun e => some [e.1,e.2]) ∧
    ∀ fs : List (Bytes × Bytes), (rs.map (fun r => r.1.kvs) = fs.map fun e => some [e.1,e.2]) →
      (∀ f ∈ fs, f ∈ M.entries) → ∀ r ∈ rs, 4294967296 ∣ r.1.slack.length := by
  induction rs generalizing es with
  | nil =>
    obtain rfl : es = [] := by simpa using hrs.symm
    exact ⟨fun _ => rfl,fun _ _ _ => by simp⟩
  | cons r rs ih =>
    cases es with
    | nil => simp at hrs
    | cons e es =>
      simp only [List.map_cons,List.cons.injEq] at hrs
      have he : e ∈ M.entries := hes e (by simp)
      obtain ⟨hline,hlen⟩ := h.line hM he
      obtain ⟨hfit,hback⟩ := Read.kvs_record (hrs.1.trans hline) (hM e he).1.1 (hM e he).2.1
        (by rw [hrs.1]; exact hlen)
      obtain ⟨ih₁,ih₂⟩ := ih (fun e he => hes e (by simp [he])) hrs.2
      refine ⟨fun hall => ?_,fun fs hfs hmem => ?_⟩
      · rw [List.map_cons,List.map_cons,hfit (hall r (by simp)),ih₁ fun r hr => hall r (by simp [hr])]
      · cases fs with
        | nil => simp at hfs
        | cons f fs =>
          simp only [List.map_cons,List.cons.injEq] at hfs
          obtain ⟨hk,hv⟩ := hback f.1 f.2 hfs.1
          -- the key read is the stored one, so the value read can only be the stored one
          have hf : f ∈ M.entries := hmem f (by simp)
          have hval : f.2 = e.2 := by
            have h₁ := OrderedMap.lookup_eq_some.mpr (show (f.1,f.2) ∈ M.entries from hf)
            have h₂ := OrderedMap.lookup_eq_some.mpr (show (e.1,e.2) ∈ M.entries from he)
            rw [hk] at h₁
            exact Option.some.inj (h₁.symm.trans h₂)
          have hrest := ih₂ fs hfs.2 fun f hf => hmem f (by simp [hf])
          exact List.forall_mem_cons.mpr ⟨hv hval,hrest⟩

/-- What a store with the map `M` becomes when it is saved and loaded. -/
theorem Stores.reloads (h : Stores s fl M T) (hM : PlainMap M) {rs : List (Read × Level)}
    (hrs : rs.map (fun r => r.1.line) = M.entries.map printRecord) :
    Reloads s rs ↔ ∀ r ∈ rs, 4294967296 ∣ r.1.slack.length := by
  have hpairs : s.mem.pairs = some M.entries := h.keeps.list.pairs
  have hempty : ∀ e ∈ (OrderedMap.empty : NodeMap).entries, e.1.length = fl.keyLen := by simp
  obtain ⟨hfit,hback⟩ := h.kvs_lines hM (fun _ he => he) hrs
  constructor
  · rintro ⟨es,s',hes,hload,hes',-,-⟩
    obtain rfl : M.entries = es := Option.some.inj (hpairs.symm.trans hes)
    obtain ⟨fs,hfs⟩ := records_of_loadDb hload
    obtain ⟨hnone,hsome⟩ := (initServer_bears s.fl).loadDb_append hfs []
    rw [List.append_nil] at hnone hsome
    refine hback fs hfs fun f hf => ?_
    cases hN : nodesAfter OrderedMap.empty fs with
    | none => exact absurd (hload.symm.trans (hnone hN)) (by simp)
    | some N =>
      obtain ⟨s₁,T₁,hs₁,hb⟩ := hsome N hN
      obtain rfl : s' = s₁ := by simpa [loadDb] using hload.symm.trans hs₁
      have hent := (hb.pairs M.entries).mp hes'
      have hno : NoHit OrderedMap.empty fs := noHit_of_live hN fun e he => by
        rw [hent] at he
        obtain ⟨e',-,rfl⟩ := List.mem_map.mp he
        simp [live]
      obtain ⟨N',hN',-,hmem⟩ := hno.nodesAfter
      obtain rfl : N = N' := Option.some.inj (hN.symm.trans hN')
      have hm : live f ∈ N.entries := (hmem _).mpr (Or.inr (List.mem_map_of_mem hf))
      rwa [hent,List.mem_map_of_injective live_injective] at hm
  · intro hall
    have hno : NoHit OrderedMap.empty M.entries := by
      refine (noHit_iff hempty fun e he => h.keeps.list.keyLen e he).mpr ⟨?_,by simp [OrderedMap.keys]⟩
      exact (List.pairwise_map.mpr M.ascending).imp ne_of_lt
    obtain ⟨N,hN,-,hmem⟩ := hno.nodesAfter
    obtain ⟨-,hsome⟩ := (initServer_bears s.fl).loadDb_append (hfit hall) []
    obtain ⟨s',T',hload,hb⟩ := hsome N hN
    rw [List.append_nil] at hload
    have hN' : N.entries = M.entries.map live := by
      let M' : NodeMap := ⟨M.entries.map live,
        (List.pairwise_map (f:=live) (R:=fun a b => a.1 < b.1)).mpr M.ascending⟩
      have he : N = M' := OrderedMap.ext_mem fun e => by rw [hmem]; simp [M']
      rw [he]
    refine ⟨M.entries,s',hpairs,hload,(hb.pairs _).mpr hN',?_,hb.dict⟩
    rw [hb.length,h.length]
    rfl

end

/-- Saving a store reached by PUT and DELETE of plain texts and loading the file into a fresh store
gives the same map, counter and keys exactly when the capacity of every read passes the length of
its line plus one by a multiple of 2^32. -/
theorem reloads_iff (fl : FixedLength) (cs : List (Call × Level))
    (hcs : ∀ c ∈ cs, c.1.Storing ∧ c.1.ArgsOk) (s : Server)
    (hreach : reach (initServer (some fl)) cs = some s) (old : Option Bytes) (file : Bytes)
    (hsave : saveDb s.mem .success old = some (some file)) (rs : List (Read × Level))
    (hrs : rs.map (fun r => r.1.line) = fileLines [] file) :
    Reloads s rs ↔ ∀ r ∈ rs, 4294967296 ∣ r.1.slack.length := by
  obtain ⟨M,T,hs,hM⟩ := (initServer_stores fl).reach (by simp [PlainMap]) hcs hreach
  have hfile : file = M.entries.flatMap printRecord := by
    rw [saveDb,hs.keeps.list.pairs] at hsave
    rw [← tmpFile_success]
    exact (Option.some.inj (Option.some.inj hsave)).symm
  rw [hfile,fileLines_records hM] at hrs
  exact hs.reloads hM hrs

theorem onePut (level : Level) : ∃ s T,
    reach (initServer (some ⟨1,1⟩)) [(.put (str "a") (str "1"),level)] = some s ∧
      Stores s ⟨1,1⟩ (OrderedMap.empty.insert (str "a") (str "1")) T ∧
      saveDb s.mem .success none = some (some (str "a 1\n")) := by
  obtain ⟨s,out,T,hrun,-,hs⟩ := (initServer_stores ⟨1,1⟩).put (str "a") (str "1") level
    (by decide) (by decide)
  refine ⟨s,T,by rw [reach,hrun]; rfl,hs,?_⟩
  rw [saveDb,hs.keeps.list.pairs]
  rfl

theorem onePut_storing (level : Level) :
    ∀ c ∈ [((.put (str "a") (str "1") : Call),level)], c.1.Storing ∧ c.1.ArgsOk := by
  have h1 : 1 ≤ MAX_ARG := by decide
  have hlen : (str "a").length = 1 ∧ (str "1").length = 1 := ⟨rfl,rfl⟩
  simp only [List.forall_mem_cons,List.not_mem_nil,false_imp_iff,implies_true,and_true]
  refine ⟨⟨⟨by decide,by decide,by decide⟩,by decide,by decide,by decide⟩,?_⟩
  simp [Call.ArgsOk,Call.args,hlen,h1]

theorem reloads_exact_fit : ∃ s,
    reach (initServer (some ⟨1,1⟩)) [(.put (str "a") (str "1"),genRandomLevel 0)] = some s ∧
      Reloads s [(⟨str "a 1\n",[]⟩,genRandomLevel 0)] := by
  obtain ⟨s,T,hreach,-,hsave⟩ := onePut (genRandomLevel 0)
  refine ⟨s,hreach,(reloads_iff ⟨1,1⟩ _ (onePut_storing (genRandomLevel 0)) s hreach none _ hsave _ ?_).mpr ?_⟩
  · rfl
  · simp

/-- A buffer of 120 bytes: the value comes back with the newline and what lies behind it. -/
theorem capacity_120_not_reloads : ∃ s,
    reach (initServer (some ⟨1,1⟩)) [(.put (str "a") (str "1"),⟨1,by decide⟩)] = some s ∧
      saveDb s.mem .success none = some (some (str "a 1\n")) ∧
      (⟨str "a 1\n",List.replicate 115 0⟩ : Read).len = 120 ∧
      ¬ Reloads s [(⟨str "a 1\n",List.replicate 115 0⟩,⟨1,by decide⟩)] := by
  obtain ⟨s,T,hreach,hs,hsave⟩ := onePut ⟨1,by decide⟩
  refine ⟨s,hreach,hsave,by decide,?_⟩
  have hplain : PlainMap (OrderedMap.empty.insert (str "a") (str "1")) := by
    intro e he
    obtain rfl := List.mem_singleton.mp he
    exact ⟨⟨by decide,by decide,by decide⟩,by decide,by decide,by decide⟩
  rw [hs.reloads hplain rfl]
  intro h
  have := h _ List.mem_cons_self
  rw [List.length_replicate] at this
  omega

end Tadpole
