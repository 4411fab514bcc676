import Tadpole.SkipListRuns

/-! The counter `sl->length` against the nodes of level 0, over runs from the empty list. -/
namespace Tadpole

/-- The counter is the number of nodes, and so 0 exactly when the head has no successor. -/
def CountsNodes (m : Mem) : Prop :=
  ∃ l, m.chain 0 = some l ∧ m.length = l.length ∧ (m.length = 0 ↔ m.link 0 m.head = some none)

/-- The counter is right before every call of the run and behind the last. -/
def CountsThrough (h : Hist) : List SlOp → Prop
  | [] => CountsNodes h.now
  | c::cs => CountsNodes h.now ∧ ∃ r h', c.run h = some (r,h') ∧ CountsThrough h' cs

def SlOp.InsertsNew (m : Mem) : SlOp → Prop
  | insert key .. => m.nodeOf key = none ∧ ∀ l, m.chain 0 = some l → l.length < 2147483647
  | _ => True

def InsertsNewThrough (h : Hist) : List SlOp → Prop
  | [] => True
  | c::cs => c.InsertsNew h.now ∧ ∀ r h', c.run h = some (r,h') → InsertsNewThrough h' cs

section
variable {h : Hist} {T : List Tower} {M : KeyMap} {len : ℕ} {c : SlOp}

theorem Represents.nodeOf_eq_none_iff {m : Mem} (hr : Represents m T M len) {key : Bytes}
    (hk : key.length = len) : m.nodeOf key = none ↔ M.lookup key = none := by
  cases hl : M.lookup key with
  | none => exact iff_of_true (hr.nodeOf_eq_none hl) rfl
  | some v =>
    obtain ⟨T₁,t,T₂,rfl,htk,hfront,-⟩ := hr.searchSkiplist_tower hk hl
    simp [hr.shape.nodeOf_split htk hfront]

theorem Represents.countsNodes_iff {m : Mem} (hr : Represents m T M len) :
    CountsNodes m ↔ m.length = M.size := by
  have hchain : m.chain 0 = some (T.map Tower.addr) := hr.shape.bottom_eq
  have hsize : (T.map Tower.addr).length = M.size := by rw [List.length_map,hr.length_eq]
  constructor
  · rintro ⟨l,hl,hlen,-⟩
    rw [hchain] at hl
    cases hl
    rw [hlen,hsize]
  · intro hlen
    refine ⟨_,hchain,by rw [hlen,hsize],?_⟩
    rw [hlen,hr.shape.bottom.next_eq,← hsize]
    cases T <;> simp
    omega

theorem Represents.insertsNew_iff {m : Mem} (hr : Represents m T M len) {key value : Bytes} {target : Level}
    (hk : key.length = len) :
    (SlOp.insert key value target).InsertsNew m ↔ M.lookup key = none ∧ M.size < 2147483647 := by
  have hchain : m.chain 0 = some (T.map Tower.addr) := hr.shape.bottom_eq
  have hsize : (T.map Tower.addr).length = M.size := by rw [List.length_map,hr.length_eq]
  simp only [SlOp.InsertsNew,hr.nodeOf_eq_none_iff hk,hchain,Option.some.injEq,forall_eq',hsize]

theorem SlOp.counter_lt (c : SlOp) (M : KeyMap) {n : ℤ} (hn : n < 2147483648) :
    c.counter n M < 2147483648 := by
  have hlt : ∀ k : ℤ, int32 k < 2147483648 := fun k => by
    unfold int32
    omega
  cases c with
  | insert key value target => exact hlt _
  | delete key =>
    rw [SlOp.counter]
    split_ifs
    · exact hlt _
    · exact hn
  | replace key newVal => exact hn

/-- Step lemma: a right counter stays right exactly when the call is no insertion that overwrites or
overflows. -/
theorem Represents.counter_iff (hr : Represents h.now T M len) (hk : c.key.length = len)
    (hsmall : (M.size : ℤ) < 2147483648) :
    c.counter M.size M = (c.after M).size ↔ c.InsertsNew h.now := by
  cases c with
  | insert key value target =>
    have hkl : key.length = len := hk
    rw [hr.insertsNew_iff hkl,SlOp.counter,SlOp.after]
    cases hl : M.lookup key with
    | none =>
      rw [OrderedMap.size_insert_absent value hl]
      unfold int32
      simp only [true_and]
      omega
    | some v =>
      rw [OrderedMap.size_insert_present value hl]
      unfold int32
      simp only [reduceCtorEq,false_and,iff_false]
      omega
  | delete key =>
    refine iff_of_true ?_ trivial
    rw [SlOp.counter,SlOp.after]
    cases hl : M.lookup key with
    | none => rw [if_neg (OrderedMap.lookup_eq_none.mp hl),OrderedMap.erase_absent hl]
    | some v =>
      have hsize := OrderedMap.size_erase hl
      rw [if_pos (mem_keys_of_lookup hl),int32_of_bounds (by omega) (by omega)]
      omega
  | replace key newVal =>
    refine iff_of_true ?_ trivial
    rw [SlOp.counter,SlOp.after]
    split_ifs with hmem
    · obtain ⟨v,hv⟩ := Option.ne_none_iff_exists'.mp fun hn => OrderedMap.lookup_eq_none.mp hn hmem
      rw [OrderedMap.size_insert_present newVal hv]
    · rfl

theorem Represents.countsThrough (hr : Represents h.now T M len) (hlen : h.now.length = M.size)
    (hsmall : (M.size : ℤ) < 2147483648) {cs : List SlOp} (hcs : ∀ c ∈ cs, c.key.length = len) :
    CountsThrough h cs ↔ InsertsNewThrough h cs := by
  have hcount : CountsNodes h.now := hr.countsNodes_iff.mpr hlen
  induction cs generalizing h T M with
  | nil => exact iff_of_true hcount trivial
  | cons c cs ih =>
    have hk := hcs c (by simp)
    obtain ⟨r,h₁,T₁,hrun,hr₁,hlen₁,-⟩ := hr.steps hk
    rw [hlen] at hlen₁
    have hstep := hr.counter_iff hk hsmall
    have hleft : CountsThrough h (c::cs) ↔ CountsThrough h₁ cs := by
      simp only [CountsThrough,hcount,hrun,true_and,Option.some.injEq,Prod.mk.injEq]
      constructor
      · rintro ⟨_,_,⟨-,rfl⟩,ht⟩
        exact ht
      · exact fun ht => ⟨r,h₁,⟨rfl,rfl⟩,ht⟩
    have hright : InsertsNewThrough h (c::cs) ↔ c.InsertsNew h.now ∧ InsertsNewThrough h₁ cs := by
      simp only [InsertsNewThrough,hrun,Option.some.injEq,Prod.mk.injEq,and_imp]
      exact and_congr_right fun _ => ⟨fun ht => ht r h₁ rfl rfl,fun ht _ _ _ he => he ▸ ht⟩
    rw [hleft,hright,← hstep]
    by_cases heq : c.counter M.size M = (c.after M).size
    · have hlt : ((c.after M).size : ℤ) < 2147483648 := heq ▸ c.counter_lt M hsmall
      have hlen₁' := hlen₁.trans heq
      have hrest := ih hr₁ hlen₁' hlt (fun d hd => hcs d (by simp [hd])) (hr₁.countsNodes_iff.mpr hlen₁')
      exact hrest.trans (and_iff_right heq).symm
    · refine iff_of_false (fun ht => heq ?_) fun ht => heq ht.1
      have hnow : CountsNodes h₁.now := by
        cases cs with
        | nil => exact ht
        | cons d ds => exact ht.1
      exact hlen₁.symm.trans (hr₁.countsNodes_iff.mp hnow)

end

/-- Over keys of one length the counter is right in every state of a run exactly when each insertion
of the run finds its key absent and fewer than 2^31-1 nodes. -/
theorem countsThrough_iff (len : ℕ) {cs : List SlOp} (hcs : ∀ c ∈ cs, c.key.length = len) :
    CountsThrough ⟨createSkiplist,[]⟩ cs ↔ InsertsNewThrough ⟨createSkiplist,[]⟩ cs :=
  (createSkiplist_represents len).countsThrough (h:=⟨createSkiplist,[]⟩) rfl (by decide) hcs

theorem countsThrough_insert :
    CountsThrough ⟨createSkiplist,[]⟩ [.insert (str "a") (str "1") (genRandomLevel 0)] :=
  (countsThrough_iff 1 (by decide)).mpr
    ⟨((createSkiplist_represents 1).insertsNew_iff rfl).mpr ⟨rfl,by decide⟩,fun _ _ _ => trivial⟩

/-- The second insertion of a key counts a node that is not there. -/
theorem insert_twice_not_countsThrough :
    ¬ CountsThrough ⟨createSkiplist,[]⟩ [.insert (str "a") (str "1") (genRandomLevel 0),
      .insert (str "a") (str "2") (genRandomLevel 0)] := by
  let h : Hist := ⟨createSkiplist,[]⟩
  have hr : Represents h.now [] OrderedMap.empty 1 := createSkiplist_represents 1
  rw [hr.countsThrough rfl (by decide) (by decide)]
  rintro ⟨-,hnext⟩
  obtain ⟨r,h₁,T₁,hrun,hr₁,-⟩ :=
    hr.steps (c:=.insert (str "a") (str "1") (genRandomLevel 0)) (rfl : (str "a").length = 1)
  have hnew := (hnext r h₁ hrun).1
  rw [hr₁.insertsNew_iff rfl,SlOp.after,OrderedMap.lookup_insert_self] at hnew
  cases hnew.1

end Tadpole
