import Tadpole.Store

/-! Variable-length mode. While all stored keys have one length the store is the ordered map; the
first key of another length overwrites the first node's value with a string that is then freed. -/
namespace Tadpole

/-- The map after a call without fixed lengths. -/
def varStep (M : KeyMap) : Call → KeyMap
  | .put key value => M.insert key value
  | .delete key => M.erase key
  | _ => M

/-- Every GET would answer as the map. -/
def AnswersAs (s : Server) (M : KeyMap) : Prop :=
  ∀ key, ∃ out, getCommand s key = some out ∧
    Reply.Matches out.bytes ((M.lookup key).elim .nil .bulk)

/-- In every state of the run every GET would answer as the map. -/
def RunAnswers (s : Server) (M : KeyMap) : List (Call × Level) → Prop
  | [] => AnswersAs s M
  | (c,level)::cs => AnswersAs s M ∧
    ∃ s' out, c.run s ⟨level,true⟩ = some (s',out) ∧ RunAnswers s' (varStep M c) cs

def SameLength (M : KeyMap) : Call → Prop
  | .put key _ => key ∈ M.keys ∨ ∀ key' ∈ M.keys, key'.length = key.length
  | _ => True

def RunSameLength (M : KeyMap) : List Call → Prop
  | [] => True
  | c::cs => SameLength M c ∧ RunSameLength (varStep M c) cs

def Call.Keyed : Call → Prop
  | scan .. => False
  | info => False
  | _ => True

theorem lengthError_var {s : Server} (h : s.fl = none) (legal : FixedLength → Bool)
    (text : FixedLength → List Bytes) : s.lengthError legal text = none := by
  rw [Server.lengthError,h]

section
variable {s : Server} {M : KeyMap} {T : List Tower} {len : ℕ}

theorem Keeps.answersAs (h : Keeps s M T len) (hm : s.fl = none) : AnswersAs s M :=
  fun _ => by
    obtain ⟨out,hget,hsends⟩ := h.getCommand _ (lengthError_var hm _ _)
    exact ⟨out,hget,hsends.matches⟩

theorem Keeps.other_len (h : Keeps s M T len) {len' : ℕ} (hl : ∀ k ∈ M.keys, k.length = len') :
    Keeps s M T len' where
  list := ⟨h.list.shape,h.list.content,fun e he => hl e.1 (OrderedMap.mem_keys.mpr ⟨e,he,rfl⟩)⟩
  dict := h.dict
  small := h.small

/-- A call that brings no key of another length keeps the store in step with the map. -/
theorem Keeps.run (h : Keeps s M T len) (hm : s.fl = none) {c : Call} (hc : c.Keyed)
    (hargs : c.ArgsOk) (hsame : SameLength M c) (level : Level) :
    ∃ s' out T' len', c.run s ⟨level,true⟩ = some (s',out) ∧
      Keeps s' (varStep M c) T' len' ∧ s'.fl = none := by
  cases c with
  | get key =>
    obtain ⟨out,hout,-⟩ := h.getCommand key (lengthError_var hm _ _)
    exact ⟨s,out,T,len,by simp [Call.run,hout],h,hm⟩
  | put key value =>
    have hk : key.length ≤ MAX_ARG := hargs key (by simp [Call.args])
    have hv : value.length ≤ MAX_ARG := hargs value (by simp [Call.args])
    have hlen : ∀ k ∈ M.keys, k.length = key.length := by
      rcases hsame with hin | hall
      · have hone : ∀ k ∈ M.keys, k.length = len := by
          intro k hk
          obtain ⟨e,he,rfl⟩ := OrderedMap.mem_keys.mp hk
          exact h.list.keyLen e he
        exact fun k hk => (hone k hk).trans (hone key hin).symm
      · exact hall
    obtain ⟨s',T',hrun,hs',hfl,-⟩ :=
      (h.other_len hlen).put level (lengthError_var hm _ _) rfl hk hv
    exact ⟨s',_,T',_,hrun,hs',hfl.trans hm⟩
  | delete key =>
    obtain ⟨s',T',hrun,hs',hfl,-⟩ := h.deleteCommand key (lengthError_var hm _ _)
    exact ⟨s',_,T',len,hrun,hs',hfl.trans hm⟩
  | scan start stop => exact hc.elim
  | info => exact hc.elim

/-- A PUT of a key of another length: the first node compares equal, takes the argument's string, and
loses it to `resetClient`. -/
theorem Keeps.put_first_node {t : Tower} (h : Keeps s M (t::T) len) (hm : s.fl = none) {key : Bytes}
    (hlen : key.length ≠ len) (hin : key ∉ s.dict) (value : Bytes) (level : Level) :
    ∃ m, (Call.put key value).run s ⟨level,true⟩ = some (⟨s.fl,insert key s.dict,m⟩,[.addReply OK]) ∧
      Shape m ({t with valPtr := s.mem.nextStr, val := none}::T) ∧ m.strs s.mem.nextStr = none := by
  have hall : ∀ t' ∈ t::T, slKeyCompare t'.key key = .eq := fun t' ht' =>
    slKeyCompare_of_ne (by rw [h.list.key_length t' ht']; exact hlen.symm)
  obtain ⟨e,-,-,hval⟩ := h.list.tower_key (t:=t) (by simp)
  let m : Mem := ((⟨s.mem,[]⟩ : Hist).newStr value).2.now
  have hshape : Shape m ([]++t::T) := h.list.shape.newStr (h:=⟨s.mem,[]⟩) value
  have hsplit : SplitsAt key [] (t::T) :=
    ⟨by simp,fun t' ht' => by rw [hall t' ht']; decide⟩
  obtain ⟨h₁,hins,hshape₁,-,-,-,-⟩ := insertSkiplist_present (h:=⟨m,[]⟩) level true
    hshape hsplit (hall t (by simp)) hval h.list.shape.nextStr_notMem (Nat.lt_succ_self s.mem.nextStr)
  have hstr : m.strs s.mem.nextStr = some value := Function.update_self ..
  obtain ⟨h₂,hf,-,hshape₂,-,-,-,hdead,-⟩ := freeVal_spec (h:=⟨h₁.now,[]⟩) hshape₁ hstr
  have hput : Tadpole.putCommand ⟨s.fl,s.dict,m⟩ key value s.mem.nextStr ⟨level,true⟩ =
      some (⟨s.fl,insert key s.dict,h₁.now⟩,[.addReply OK]) := by
    rw [Tadpole.putCommand,show Server.kvError ⟨s.fl,s.dict,m⟩ key value = none from lengthError_var hm _ _]
    simp only []
    rw [if_neg hin,hins]
    rfl
  exact ⟨h₂.now,Call.run_put hput hf,hshape₂,hdead⟩

theorem Keeps.first_splits {t : Tower} (h : Keeps s M (t::T) len) :
    t.key ∈ M.keys ∧ (∀ t' ∈ t::T, slKeyCompare t'.key t.key ≠ .lt) ∧
      ∀ t' ∈ T, slKeyCompare t.key t'.key ≠ .eq := by
  obtain ⟨⟨k,v⟩,he,hek,-⟩ := h.list.tower_key (t:=t) (by simp)
  have hk : M.lookup t.key = some v := OrderedMap.lookup_eq_some.mpr (hek ▸ he)
  refine ⟨OrderedMap.mem_keys.mpr ⟨_,he,hek⟩,?_⟩
  obtain ⟨T₁,t₁,T₂,hT,hkey,-,hs,hne,-,-⟩ := h.list.split_present (h.length_of_present hk) hk
  cases T₁ with
  | nil =>
    obtain ⟨rfl,rfl⟩ := List.cons.inj hT
    exact ⟨hs.above,hne⟩
  | cons a l =>
    obtain ⟨rfl,-⟩ := List.cons.inj hT
    have := hs.below t (by simp)
    rw [(slKeyCompare_eq rfl).mpr rfl] at this
    cases this

/-- A GET of the key of a node whose value was freed reads the freed string. -/
theorem getCommand_dead {t : Tower} (hm : s.fl = none) (hshape : Shape s.mem (t::T)) (hdead : s.mem.strs t.valPtr = none)
    (hin : t.key ∈ s.dict) (hfirst : ∀ t' ∈ t::T, slKeyCompare t'.key t.key ≠ .lt)
    (hne : ∀ t' ∈ T, slKeyCompare t.key t'.key ≠ .eq) : getCommand s t.key = none := by
  have hsplit : SplitsAt t.key [] (t::T) := ⟨by simp,hfirst⟩
  have hshape' : Shape s.mem ([]++t::T) := hshape
  have hsearch : searchSkiplist s.mem t.key = some (some t.valPtr) :=
    searchSkiplist_present hshape' hsplit ((slKeyCompare_eq rfl).mpr rfl) hne
  rw [getCommand,show s.keyError t.key = none from lengthError_var hm _ _]
  simp only []
  rw [if_neg (not_not.mpr hin),foundReply,hsearch]
  simp only [Option.bind_eq_bind,Option.bind_some,hdead,Option.bind_none]

/-- Behind that PUT the store does not answer as the map. -/
theorem Keeps.put_other_length (h : Keeps s M T len) (hm : s.fl = none) {key value : Bytes}
    (hnew : ¬ SameLength M (.put key value)) (level : Level) {s' : Server} {out : Output}
    (hrun : (Call.put key value).run s ⟨level,true⟩ = some (s',out)) :
    ¬ AnswersAs s' (varStep M (.put key value)) := by
  simp only [SameLength,not_or,not_forall] at hnew
  obtain ⟨habs,k',hk',hne'⟩ := hnew
  -- every stored key has the other length, and the list is not empty
  obtain ⟨e',he',rfl⟩ := OrderedMap.mem_keys.mp hk'
  have hlen : key.length ≠ len := fun he => hne' (by rw [he]; exact h.list.keyLen e' he')
  obtain ⟨t,T,rfl⟩ : ∃ t T', T = t::T' := by
    cases T with
    | nil =>
      have hc := congrArg List.length h.list.content
      have : M.entries = [] := by simpa using hc.symm
      simp [this] at he'
    | cons t T => exact ⟨t,T,rfl⟩
  obtain ⟨m,hput,hshape,hdead⟩ := h.put_first_node hm hlen (by rw [h.dict]; exact habs) value level
  obtain ⟨hin,hfirst,hne⟩ := h.first_splits
  rw [hput] at hrun
  obtain ⟨rfl,-⟩ : ⟨s.fl,insert key s.dict,m⟩ = s' ∧ [Out.addReply OK] = out := by simpa using hrun
  intro hans
  obtain ⟨out',hget,-⟩ := hans t.key
  have hmem : t.key ∈ insert key s.dict := Finset.mem_insert_of_mem (by rw [h.dict]; exact hin)
  have hnone : Tadpole.getCommand ⟨s.fl,insert key s.dict,m⟩ t.key = none :=
    getCommand_dead (s:=⟨s.fl,insert key s.dict,m⟩) (t:={t with valPtr := s.mem.nextStr, val := none}) hm hshape hdead hmem
      (List.forall_mem_cons.mpr ⟨hfirst t (by simp),fun t' ht' => hfirst t' (by simp [ht'])⟩) hne
  rw [hnone] at hget
  cases hget

theorem Keeps.runAnswers (h : Keeps s M T len) (hm : s.fl = none) {cs : List (Call × Level)}
    (hc : ∀ c ∈ cs, c.1.Keyed ∧ c.1.ArgsOk) :
    RunAnswers s M cs ↔ RunSameLength M (cs.map Prod.fst) := by
  induction cs generalizing s M T len with
  | nil => exact iff_of_true (h.answersAs hm) trivial
  | cons c cs ih =>
    obtain ⟨c,level⟩ := c
    obtain ⟨hkeyed,hargs⟩ := hc (c,level) (by simp)
    have hcs : ∀ c' ∈ cs, c'.1.Keyed ∧ c'.1.ArgsOk := fun c' h' => hc c' (by simp [h'])
    simp only [RunAnswers,List.map_cons,RunSameLength]
    by_cases hsame : SameLength M c
    · obtain ⟨s',out,T',len',hrun,hs',hm'⟩ := h.run hm hkeyed hargs hsame level
      rw [hrun,← ih hs' hm' hcs]
      constructor
      · rintro ⟨-,s'',out',he,hrest⟩
        obtain ⟨rfl,-⟩ := Prod.mk.inj (Option.some.inj he)
        exact ⟨hsame,hrest⟩
      · rintro ⟨-,hrest⟩
        exact ⟨h.answersAs hm,s',out,rfl,hrest⟩
    · refine iff_of_false ?_ fun hr => hsame hr.1
      rintro ⟨-,s',out,hrun,hrest⟩
      cases c with
      | put key value =>
        have hans : AnswersAs s' (varStep M (.put key value)) := by
          cases cs with
          | nil => exact hrest
          | cons c' cs => exact hrest.1
        exact h.put_other_length hm hsame level hrun hans
      | get key => exact hsame trivial
      | delete key => exact hsame trivial
      | scan start stop => exact hsame trivial
      | info => exact hsame trivial

end

/-- Without fixed lengths, every state of a run answers every GET as the map exactly when no PUT
brings an absent key while a key of another length is stored. -/
theorem runAnswers_iff (cs : List (Call × Level)) (hc : ∀ c ∈ cs, c.1.Keyed ∧ c.1.ArgsOk) :
    RunAnswers (initServer none) OrderedMap.empty cs ↔
      RunSameLength OrderedMap.empty (cs.map Prod.fst) :=
  (initServer_keeps none 0).runAnswers rfl hc

theorem runAnswers_one_length : RunAnswers (initServer none) OrderedMap.empty
    [(.put (str "a") (str "1"),genRandomLevel 0),(.put (str "b") (str "22"),genRandomLevel 0),
      (.delete (str "a"),genRandomLevel 0)] :=
  (runAnswers_iff _ (by
    have h1 : 1 ≤ MAX_ARG := by decide
    have h2 : 2 ≤ MAX_ARG := by decide
    simp [Call.Keyed,Call.ArgsOk,Call.args,str,h1,h2])).mpr
    ⟨Or.inr (by simp),Or.inr (by simp [varStep,OrderedMap.insert,OrderedMap.insertList,str]),trivial,
      trivial⟩

/-- PUT a 1, then PUT bb 2: a GET of `a` reads the freed argument of the second PUT. -/
theorem put_bb_not_runAnswers : ¬ RunAnswers (initServer none) OrderedMap.empty
    [(.put (str "a") (str "1"),genRandomLevel 0),(.put (str "bb") (str "2"),genRandomLevel 0)] := by
  have h1 : 1 ≤ MAX_ARG := by decide
  have h2 : 2 ≤ MAX_ARG := by decide
  rw [(initServer_keeps none 0).runAnswers rfl (by simp [Call.Keyed,Call.ArgsOk,Call.args,str,h1,h2])]
  rintro ⟨-,hsame,-⟩
  revert hsame
  simp [SameLength,varStep,OrderedMap.insert,OrderedMap.insertList,str]

end Tadpole
