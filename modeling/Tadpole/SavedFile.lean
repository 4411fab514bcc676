import Tadpole.Restart

/-! The file of the fixed-length mode. Its records all have one width, so that it says what the store holds
even where separators are part of keys and values, and the order of the keys makes it the only one. -/
namespace Tadpole

def Call.NulFree : Call → Prop
  | .put key value => NUL ∉ key ∧ NUL ∉ value
  | .delete _ => True
  | _ => False

/-- A pair as PUT stores it. -/
structure FixedPair (fl : FixedLength) (e : Bytes × Bytes) : Prop where
  key : e.1.length = fl.keyLen
  value : e.2.length = fl.valLen
  keyNul : NUL ∉ e.1
  valueNul : NUL ∉ e.2

/-- The file lists these pairs in strictly ascending order of their keys, one record each, and they are what
is on the bottom chain and in the dict. -/
structure Lists (fl : FixedLength) (s : Server) (file : Bytes) (es : List (Bytes × Bytes)) : Prop where
  file : file = encoding es
  ascending : es.Pairwise fun a b => a.1 < b.1
  pairs : s.mem.pairs = some es
  dict : ∀ key, key ∈ s.dict ↔ key ∈ es.map Prod.fst
  fixed : ∀ e ∈ es, FixedPair fl e

theorem flatMap_injOn {A B : Type*} {f : A → List B} {P : A → Prop} {w : ℕ} (hw : 0 < w)
    (hlen : ∀ a, P a → (f a).length = w) (hinj : ∀ a b, P a → P b → f a = f b → a = b) {l l' : List A}
    (hl : ∀ a ∈ l, P a) (hl' : ∀ a ∈ l', P a) (h : l.flatMap f = l'.flatMap f) : l = l' := by
  induction l generalizing l' with
  | nil =>
    cases l' with
    | nil => rfl
    | cons b l' =>
      have hb := hlen b (hl' b (by simp))
      have hnil := congrArg List.length h
      rw [List.flatMap_nil,List.flatMap_cons,List.length_nil,List.length_append] at hnil
      omega
  | cons a l ih =>
    have ha := hlen a (hl a (by simp))
    cases l' with
    | nil =>
      have hnil := congrArg List.length h
      rw [List.flatMap_nil,List.flatMap_cons,List.length_nil,List.length_append] at hnil
      omega
    | cons b l' =>
      have hb := hlen b (hl' b (by simp))
      rw [List.flatMap_cons,List.flatMap_cons] at h
      obtain ⟨hhead,htail⟩ := List.append_inj h (ha.trans hb.symm)
      rw [hinj a b (hl a (by simp)) (hl' b (by simp)) hhead,
        ih (fun x hx => hl x (by simp [hx])) (fun x hx => hl' x (by simp [hx])) htail]

variable {fl : FixedLength}

theorem FixedPair.record {e : Bytes × Bytes} (he : FixedPair fl e) :
    printRecord e = e.1++[SPACE]++e.2++[LF] ∧ (e.1++[SPACE]++e.2++[LF]).length = fl.keyLen+fl.valLen+2 := by
  refine ⟨printRecord_eq he.keyNul he.valueNul,?_⟩
  have hk := he.key
  have hv := he.value
  simp only [List.length_append,List.length_cons,List.length_nil]
  omega

theorem encoding_injOn {es es' : List (Bytes × Bytes)} (hes : ∀ e ∈ es, FixedPair fl e)
    (hes' : ∀ e ∈ es', FixedPair fl e) (h : encoding es = encoding es') : es = es' := by
  refine flatMap_injOn (Nat.succ_pos _) (fun e he => he.record.2) (fun e f he hf hef => ?_) hes hes' h
  rw [List.append_assoc,List.append_assoc,List.append_assoc,List.append_assoc] at hef
  obtain ⟨hkey,hrest⟩ := List.append_inj hef (he.key.trans hf.key.symm)
  obtain ⟨-,hrest⟩ := List.append_inj hrest rfl
  exact Prod.ext hkey (List.append_inj hrest (he.value.trans hf.value.symm)).1

theorem encoding_eq_records {es : List (Bytes × Bytes)} (hes : ∀ e ∈ es, FixedPair fl e) :
    es.flatMap printRecord = encoding es := by
  rw [encoding,List.flatMap_def,List.flatMap_def,List.map_congr_left fun e he => (hes e he).record.1]

variable {s : Server} {M : KeyMap} {T : List Tower}

theorem Mirrors.nulFree (h : Mirrors s M T fl.keyLen) (hm : s.fl = some fl) {c : Call} (hc : c.NulFree)
    (level : Level) : ∃ s' out T', c.run s ⟨level,true⟩ = some (s',out) ∧
      Mirrors s' (refStep fl M c).1 T' fl.keyLen ∧ s'.fl = some fl := by
  cases c with
  | put key value =>
    obtain ⟨s',out,T',hrun,-,hs',hm',-⟩ := h.put_fixed hm key value level
    exact ⟨s',out,T',hrun,hs',hm'⟩
  | delete key =>
    obtain ⟨s',out,T',hrun,-,hs',hm',-⟩ := h.delete_fixed hm key
    exact ⟨s',out,T',hrun,hs',hm'⟩
  | get key => cases hc
  | scan start stop => cases hc
  | info => cases hc

theorem fixedPair_refStep (hM : ∀ e ∈ M.entries, FixedPair fl e) {c : Call} (hc : c.NulFree) :
    ∀ e ∈ (refStep fl M c).1.entries, FixedPair fl e := by
  intro e he
  rcases mem_refStep he with he | ⟨rfl,hkey,hvalue⟩
  · exact hM e he
  · exact ⟨hkey,hvalue,hc.1,hc.2⟩

/-- PUT and DELETE always reach a store, and it holds pairs of the fixed lengths. -/
theorem Mirrors.reach (h : Mirrors s M T fl.keyLen) (hm : s.fl = some fl) (hM : ∀ e ∈ M.entries, FixedPair fl e)
    {cs : List (Call × Level)} (hcs : ∀ c ∈ cs, c.1.NulFree) :
    ∃ s' M' T', Tadpole.reach s cs = some s' ∧ Mirrors s' M' T' fl.keyLen ∧ ∀ e ∈ M'.entries, FixedPair fl e := by
  induction cs generalizing s M T with
  | nil => exact ⟨s,M,T,rfl,h,hM⟩
  | cons c cs ih =>
    obtain ⟨c,level⟩ := c
    have hc : c.NulFree := hcs (c,level) (by simp)
    obtain ⟨s₁,out,T₁,hrun,hs₁,hm₁⟩ := h.nulFree hm hc level
    rw [Tadpole.reach,hrun]
    exact ih hs₁ hm₁ (fixedPair_refStep hM hc) fun c hc => hcs c (by simp [hc])

/-- Whatever is put and deleted, there is a store behind it and a file of it. -/
theorem reach_saves (fl : FixedLength) {cs : List (Call × Level)} (hcs : ∀ c ∈ cs, c.1.NulFree) (old : Option Bytes) :
    ∃ s file, reach (initServer (some fl)) cs = some s ∧ saveDb s.mem .success old = some (some file) := by
  obtain ⟨s,M,T,hreach,hs,-⟩ := (initServer_keeps (some fl) fl.keyLen).mirrors.reach rfl (by simp) hcs
  refine ⟨s,tmpFile .success M.entries,hreach,?_⟩
  rw [saveDb,hs.list.pairs]
  rfl

/-- What `saveDb` writes of a reachable store. -/
theorem saveDb_lists {cs : List (Call × Level)} (hcs : ∀ c ∈ cs, c.1.NulFree)
    (hreach : reach (initServer (some fl)) cs = some s) {old : Option Bytes} {file : Bytes}
    (hsave : saveDb s.mem .success old = some (some file)) : ∃ es, Lists fl s file es := by
  obtain ⟨s₀,M,T,hreach₀,hs,hM⟩ := (initServer_keeps (some fl) fl.keyLen).mirrors.reach rfl (by simp) hcs
  obtain rfl : s₀ = s := Option.some.inj (hreach₀.symm.trans hreach)
  rw [saveDb,hs.list.pairs] at hsave
  have hfile : tmpFile .success M.entries = file := Option.some.inj (Option.some.inj hsave)
  rw [tmpFile_success,encoding_eq_records hM] at hfile
  refine ⟨M.entries,hfile.symm,M.ascending,hs.list.pairs,fun key => ?_,hM⟩
  rw [hs.dict,OrderedMap.mem_keys,List.mem_map]

/-- In the fixed-length mode the file lists the keys of the store in ascending order, and two stores that
write the same file hold the same map. -/
theorem savedFile_determines (fl : FixedLength) (cs cs' : List (Call × Level)) (hcs : ∀ c ∈ cs, c.1.NulFree)
    (hcs' : ∀ c ∈ cs', c.1.NulFree) (s s' : Server) (hreach : reach (initServer (some fl)) cs = some s)
    (hreach' : reach (initServer (some fl)) cs' = some s') (old old' : Option Bytes) (file file' : Bytes)
    (hsave : saveDb s.mem .success old = some (some file)) (hsave' : saveDb s'.mem .success old' = some (some file')) :
    (∃ es, Lists fl s file es) ∧ (∃ es, Lists fl s' file' es) ∧
      (file = file' → s.mem.pairs = s'.mem.pairs ∧ s.dict = s'.dict) := by
  obtain ⟨es,hes⟩ := saveDb_lists hcs hreach hsave
  obtain ⟨es',hes'⟩ := saveDb_lists hcs' hreach' hsave'
  refine ⟨⟨es,hes⟩,⟨es',hes'⟩,fun hfile => ?_⟩
  have hsame : es = es' := by
    refine encoding_injOn hes.fixed hes'.fixed ?_
    rw [← hes.file,← hes'.file,hfile]
  subst hsame
  exact ⟨hes.pairs.trans hes'.pairs.symm,Finset.ext fun key => (hes.dict key).trans (hes'.dict key).symm⟩

/-- One pair is stored with two different levels, and the files are the same. -/
theorem savedFile_onePut : ∃ s s', reach (initServer (some ⟨1,1⟩)) [(.put (str "a") (str "1"),genRandomLevel 0)] = some s ∧
    reach (initServer (some ⟨1,1⟩)) [(.put (str "a") (str "1"),⟨2,by decide⟩)] = some s' ∧
      saveDb s.mem .success none = some (some (str "a 1\n")) ∧ saveDb s'.mem .success none = some (some (str "a 1\n")) ∧
      (∃ es, Lists ⟨1,1⟩ s (str "a 1\n") es) ∧ s.mem.pairs = s'.mem.pairs ∧ s.dict = s'.dict := by
  obtain ⟨s,T,hreach,-,hsave⟩ := onePut (genRandomLevel 0)
  obtain ⟨s',T',hreach',-,hsave'⟩ := onePut ⟨2,by decide⟩
  have hfree : ∀ level : Level, ∀ c ∈ [((.put (str "a") (str "1") : Call),level)], c.1.NulFree := by
    intro level c hc
    obtain rfl := List.mem_singleton.mp hc
    exact ⟨by decide,by decide⟩
  obtain ⟨hlists,-,hsame⟩ := savedFile_determines ⟨1,1⟩ _ _ (hfree _) (hfree _) s s' hreach hreach' none none _ _ hsave hsave'
  exact ⟨s,s',hreach,hreach',hsave,hsave',hlists,hsame rfl⟩

end Tadpole
