import Tadpole.SkipListMap

/-! A signal runs `exit`, hence `saveDb`, between two elementary writes of the call under way: what
the saver's walk along the bottom chain reads in every memory the call goes through. -/
namespace Tadpole

/-- The keys and values `saveDb` prints for these nodes; reading a freed string is `none`. -/
def Mem.readPairs (m : Mem) : List Addr → Option (List (Bytes × Bytes))
  | [] => some []
  | x::l => do
    let k ← m.keyOf x
    let v ← m.valOf x
    let r ← m.readPairs l
    some ((k,v)::r)

/-- What `saveDb` reads along the bottom chain. -/
def Mem.pairs (m : Mem) : Option (List (Bytes × Bytes)) := m.bottom.bind m.readPairs

theorem readPairs_live {m : Mem} {T : List Tower} {es : List (Bytes × Bytes)}
    (h : ∀ t ∈ T, m.Holds t) (hc : T.map Tower.content = es.map live) :
    m.readPairs (T.map Tower.addr) = some es := by
  induction T generalizing es with
  | nil =>
    obtain rfl : es = [] := by simpa using hc.symm
    rfl
  | cons t T ih =>
    cases es with
    | nil => simp at hc
    | cons e es =>
      simp only [List.map_cons,List.cons.injEq,Tower.content,live,Prod.mk.injEq] at hc
      have hk := (h t (by simp)).keyOf
      have hv := (h t (by simp)).valOf
      have hrest := ih (fun s hs => h s (by simp [hs])) hc.2
      simp [Mem.readPairs,hk,hv,hrest,hc.1]

theorem readPairs_dead {m : Mem} {T : List Tower} (h : ∀ t ∈ T, m.Holds t)
    (hd : ∃ t ∈ T, t.val = none) : m.readPairs (T.map Tower.addr) = none := by
  induction T with
  | nil => simp at hd
  | cons t T ih =>
    have hk := (h t (by simp)).keyOf
    have hv := (h t (by simp)).valOf
    by_cases ht : t.val = none
    · simp [Mem.readPairs,hk,hv,ht]
    · have hrest := ih (fun s hs => h s (by simp [hs])) (by
        obtain ⟨s,hs,hsv⟩ := hd
        rcases List.mem_cons.mp hs with rfl | hs
        · exact absurd hsv ht
        · exact ⟨s,hs,hsv⟩)
      simp [Mem.readPairs,hk,hv,hrest]

theorem Walkable.bottom_eq {m : Mem} {T : List Tower} (h : Walkable m T) :
    m.bottom = some (T.map Tower.addr) := by
  apply Chain.collect_linked h.bottom
  have := h.rounds
  simp only [List.length_map,Mem.rounds]
  omega

theorem Walkable.pairs_live {m : Mem} {T : List Tower} {es : List (Bytes × Bytes)}
    (h : Walkable m T) (hc : T.map Tower.content = es.map live) : m.pairs = some es := by
  rw [Mem.pairs,h.bottom_eq,Option.bind_some,readPairs_live h.holds hc]

theorem Walkable.pairs_dead {m : Mem} {T : List Tower} (h : Walkable m T)
    (hd : ∃ t ∈ T, t.val = none) : m.pairs = none := by
  rw [Mem.pairs,h.bottom_eq,Option.bind_some,readPairs_dead h.holds hd]

theorem Represents.pairs {m : Mem} {T : List Tower} {M : KeyMap} {len : ℕ}
    (h : Represents m T M len) : m.pairs = some M.entries :=
  h.shape.walkable.pairs_live h.content

/-- A call of one of the three functions that write to the list. -/
inductive SlCall
  | insert (key : Bytes) (val : SdsPtr) (target : Level) (malloc : Bool)
  | delete (key : Bytes)
  | replace (key newVal : Bytes)

namespace SlCall

def key : SlCall → Bytes
  | insert key .. => key
  | delete key => key
  | replace key _ => key

def run (h : Hist) : SlCall → Option (ℤ × Hist)
  | insert key val target malloc => insertSkiplist h key val target malloc
  | delete key => deleteSkiplist h key
  | replace key newVal => replaceSkiplist h key newVal

/-- The store after the call, `m` telling what the caller's string holds. -/
def after (m : Mem) (M : KeyMap) : SlCall → KeyMap
  | insert key val _ malloc =>
    match m.strs val with
    | none => M
    | some v => if malloc ∨ key ∈ M.keys then M.insert key v else M
  | delete key => M.erase key
  | replace key newVal => if key ∈ M.keys then M.insert key newVal else M

/-- The caller's string is alive and belongs to no node. -/
def ArgOk (m : Mem) (T : List Tower) : SlCall → Prop
  | insert _ val _ _ => (∃ v, m.strs val = some v) ∧ val ∉ allPtrs T ∧ val < m.nextStr
  | _ => True

def Overwrites (M : KeyMap) : SlCall → Prop
  | insert key .. => key ∈ M.keys
  | delete _ => False
  | replace key _ => key ∈ M.keys

end SlCall

/-- In every memory the call goes through, the saver reads the store before or the store after. -/
def SavesConsistently (m : Mem) (M : KeyMap) (c : SlCall) : Prop :=
  ∃ r h', c.run ⟨m,[]⟩ = some (r,h') ∧ ∀ s ∈ h'.now::h'.past,
    s.pairs = some M.entries ∨ s.pairs = some (c.after m M).entries

section
variable {m : Mem} {T : List Tower} {M : KeyMap} {len : ℕ}

theorem savesConsistently_of_savedThrough {c : SlCall} {r : ℤ} {h' : Hist} {T' : List Tower}
    (hr : Represents m T M len) (hrun : c.run ⟨m,[]⟩ = some (r,h'))
    (hnow : Walkable h'.now T') (hcont : T'.map Tower.content = (c.after m M).entries.map live)
    (hsav : SavedThrough ⟨m,[]⟩ h' [T,T']) : SavesConsistently m M c := by
  refine ⟨r,h',hrun,fun s hs => ?_⟩
  rcases List.mem_cons.mp hs with rfl | hs
  · exact Or.inr (hnow.pairs_live hcont)
  · rcases hsav s hs with hs | ⟨S,hS,hw⟩
    · simp at hs
    · simp only [List.mem_cons,List.not_mem_nil,or_false] at hS
      rcases hS with rfl | rfl
      · exact Or.inl (hw.pairs_live hr.content)
      · exact Or.inr (hw.pairs_live hcont)

theorem not_savesConsistently_of_dead {c : SlCall} {r : ℤ} {h' : Hist}
    (hrun : c.run ⟨m,[]⟩ = some (r,h'))
    (hdead : ∃ s ∈ h'.past, ∃ D, Walkable s D ∧ ∃ t ∈ D, t.val = none) :
    ¬ SavesConsistently m M c := by
  rintro ⟨r',h'',hrun',hall⟩
  obtain ⟨-,rfl⟩ : r = r' ∧ h' = h'' := by simpa using hrun.symm.trans hrun'
  obtain ⟨s,hs,D,hw,hD⟩ := hdead
  have hnone := hw.pairs_dead hD
  have := hall s (List.mem_cons_of_mem _ hs)
  simp [hnone] at this

theorem savesConsistently_unchanged {c : SlCall} {r : ℤ} (hr : Represents m T M len)
    (hrun : c.run ⟨m,[]⟩ = some (r,⟨m,[]⟩)) : SavesConsistently m M c := by
  refine ⟨r,⟨m,[]⟩,hrun,fun s hs => Or.inl ?_⟩
  obtain rfl : s = m := by simpa using hs
  exact hr.pairs

/-- A call of the three is consistent for the saver at every point exactly when it does not
overwrite a present key: the old value is freed before the node gets the new one. -/
theorem savesConsistently_iff {c : SlCall} (hr : Represents m T M len) (hk : c.key.length = len)
    (harg : c.ArgOk m T) : SavesConsistently m M c ↔ ¬ c.Overwrites M := by
  let h : Hist := ⟨m,[]⟩
  have hrh : Represents h.now T M len := hr
  cases c with
  | insert key val target malloc =>
    obtain ⟨⟨v,hv⟩,hforeign,hlt⟩ := harg
    have hvh : h.now.strs val = some v := hv
    have hkl : key.length = len := hk
    show _ ↔ key ∉ M.keys
    rw [← OrderedMap.lookup_eq_none]
    cases hl : M.lookup key with
    | some w =>
      obtain ⟨h',T',hrun,-,-,hdead⟩ :=
        hrh.insertSkiplist_overwrite hk hl hvh hforeign hlt target malloc
      simpa using not_savesConsistently_of_dead (c:=.insert key val target malloc) hrun hdead
    | none =>
      have hmem : key ∉ M.keys := OrderedMap.lookup_eq_none.mp hl
      refine iff_of_true ?_ rfl
      cases malloc with
      | true =>
        obtain ⟨h',T',hrun,hrep,-,-,hsav⟩ := hrh.insertSkiplist hkl hl hvh target
        refine savesConsistently_of_savedThrough hr hrun hrep.shape.walkable ?_ hsav
        simpa [SlCall.after,hv] using hrep.content
      | false =>
        obtain ⟨h',hrun,hext,-,-,hsav⟩ := hrh.insertSkiplist_failed hk hl hvh target
        refine savesConsistently_of_savedThrough hr hrun (hr.shape.walkable_of_extends hext) ?_
          (hsav.mono (by simp))
        simpa [SlCall.after,hv,hmem] using hr.content
  | delete key =>
    refine iff_of_true ?_ (by simp [SlCall.Overwrites])
    cases hl : M.lookup key with
    | none => exact savesConsistently_unchanged hr (hrh.deleteSkiplist_absent hk hl)
    | some w =>
      obtain ⟨h',T',hrun,hrep,-,-,hsav⟩ := hrh.deleteSkiplist hk hl
      exact savesConsistently_of_savedThrough hr hrun hrep.shape.walkable hrep.content hsav
  | replace key newVal =>
    show _ ↔ key ∉ M.keys
    rw [← OrderedMap.lookup_eq_none]
    cases hl : M.lookup key with
    | none =>
      exact iff_of_true (savesConsistently_unchanged hr (hrh.replaceSkiplist_absent hk hl newVal)) rfl
    | some w =>
      obtain ⟨h',T',hrun,-,-,-,hdead⟩ := hrh.replaceSkiplist hk hl newVal
      simpa using not_savesConsistently_of_dead (c:=.replace key newVal) hrun hdead

end

def withArg (v : Bytes) : Mem := ((⟨createSkiplist,[]⟩ : Hist).newStr v).2.now

theorem withArg_represents (v : Bytes) (len : ℕ) :
    Represents (withArg v) [] OrderedMap.empty len where
  shape := createSkiplist_shape.newStr (h:=⟨createSkiplist,[]⟩) v
  content := rfl
  keyLen := by simp

theorem savesConsistently_first_key :
    SavesConsistently (withArg (str "1")) OrderedMap.empty (.insert (str "a") 1 (genRandomLevel 0) true) :=
  (savesConsistently_iff (c:=.insert (str "a") 1 (genRandomLevel 0) true) (withArg_represents (str "1") 1) rfl
    ⟨⟨str "1",rfl⟩,by simp [allPtrs],by decide⟩).mpr (by simp [SlCall.Overwrites])

/-- After one `insert_skiplist` of a key, replacing its value opens a window in which the saver
reads the freed value. -/
theorem replace_not_savesConsistently : ∃ m T M,
    Represents m T M 1 ∧ M.entries = [(str "a",str "1")] ∧
      ¬ SavesConsistently m M (.replace (str "a") (str "2")) := by
  let h : Hist := ⟨withArg (str "1"),[]⟩
  have hr : Represents h.now [] OrderedMap.empty 1 := withArg_represents (str "1") 1
  have hv : h.now.strs 1 = some (str "1") := rfl
  obtain ⟨h₁,T₁,-,hr₁,-⟩ := hr.insertSkiplist (rfl : (str "a").length = 1) rfl hv ⟨1,by decide⟩
  let h₂ : Hist := ⟨h₁.now,[]⟩
  have hr₂ : Represents h₂.now T₁ (OrderedMap.empty.insert (str "a") (str "1")) 1 := hr₁
  obtain ⟨h₃,T₃,hrun,-,-,-,hdead⟩ := hr₂.replaceSkiplist (rfl : (str "a").length = 1)
    (OrderedMap.lookup_insert_self _ _ _) (str "2")
  exact ⟨h₁.now,T₁,_,hr₁,rfl,
    not_savesConsistently_of_dead (c:=.replace (str "a") (str "2")) hrun hdead⟩

end Tadpole
