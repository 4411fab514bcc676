import Tadpole.Dict

/-! What holds of the two tables in every state, and what a lookup and each update do to the entries. -/
namespace Tadpole

variable {K V : Type}

def DictType.Lawful (type : DictType K) (P : K → Prop) : Prop :=
  ∀ a b, P a → P b → (type.keyCompare a b = true ↔ a = b)

/-- A table is not allocated, or it has a power of two of buckets, few enough for an `int`. -/
structure Dictht.Sound (type : DictType K) (ht : Dictht K V) : Prop where
  shape : ht = dictReset ∨ ∃ m, ht.size = 2^(m+2) ∧ ht.sizemask = 2^(m+2)-1 ∧ m+2 ≤ 31
  length : ht.table.length = ht.size
  used : ht.used = ht.table.flatten.length
  placed : Buckets.Placed (fun e => type.index ht e.1) ht.table

/-- Every key lies once in the two tables, and there are two of them exactly while entries are moved;
the buckets before `rehashidx` are done. -/
structure Dict.Sound (type : DictType K) (P : K → Prop) (d : Dict K V) : Prop where
  ht0 : d.ht0.Sound type
  ht1 : d.ht1.Sound type
  keys : ∀ e ∈ d.entries, P e.1
  nodup : (d.entries.map Prod.fst).Nodup
  idle : d.rehashidx = none → d.ht1 = dictReset
  busy : ∀ i ∈ d.rehashidx, 0 < d.ht0.size ∧ 0 < d.ht1.size ∧ ∀ j < i, d.ht0.table[j]? = some []

theorem dictReset_sound (type : DictType K) : (dictReset : Dictht K V).Sound type :=
  ⟨Or.inl rfl,rfl,rfl,by simp [Buckets.Placed,dictReset]⟩

theorem dictCreate_sound (type : DictType K) (P : K → Prop) : (dictCreate : Dict K V).Sound type P where
  ht0 := dictReset_sound type
  ht1 := dictReset_sound type
  keys := by simp [Dict.entries,dictCreate,dictReset]
  nodup := by simp [Dict.entries,dictCreate,dictReset]
  idle _ := rfl
  busy i hi := by cases hi

section
variable {type : DictType K} {P : K → Prop}

namespace Dictht
variable {ht ht' : Dictht K V}

theorem Sound.index_lt (h : ht.Sound type) (hs : 0 < ht.size) (key : K) :
    type.index ht key < ht.table.length := by
  rcases h.shape with rfl | ⟨m,hm,hmask,-⟩
  · cases hs
  · rw [h.length,hm,DictType.index,hmask,Nat.and_two_pow_sub_one_eq_mod]
    exact Nat.mod_lt _ (Nat.two_pow_pos _)

theorem Sound.size_le (h : ht.Sound type) : ht.size ≤ 2147483648 := by
  rcases h.shape with rfl | ⟨m,hm,-,hle⟩
  · exact Nat.zero_le _
  · rw [hm]
    exact Nat.pow_le_pow_right (by decide) hle

theorem Sound.int32_index (h : ht.Sound type) (hs : 0 < ht.size) (key : K) :
    int32 (type.index ht key) = type.index ht key := by
  have h₁ := h.index_lt hs key
  have h₂ := h.size_le
  rw [h.length] at h₁
  exact int32_nat (by omega)

theorem Sound.chain (h : ht.Sound type) (hs : 0 < ht.size) (key : K) :
    ∃ c rest, ht.table[type.index ht key]? = some c ∧ ht.table.flatten.Perm (c++rest) ∧
      ∀ c', (ht.table.set (type.index ht key) c').flatten.Perm (c'++rest) := by
  have hc := List.getElem?_eq_getElem (h.index_lt hs key)
  obtain ⟨rest,h₁,h₂⟩ := Buckets.flatten_set hc
  exact ⟨_,rest,hc,h₁,h₂⟩

theorem Sound.set (h : ht.Sound type) {i n : ℕ} {c : List (K × V)}
    (hc : ∀ e ∈ c, type.index ht e.1 = i) (hn : n = (ht.table.set i c).flatten.length) (hs : 0 < ht.size) :
    Sound type {ht with table := ht.table.set i c, used := n} where
  shape := by
    rcases h.shape with rfl | hm
    · cases hs
    · exact Or.inr hm
  length := by
    rw [List.length_set]
    exact h.length
  used := hn
  placed := h.placed.set hc

theorem find_eq_some {key : K} {r : Option (K × V)} (h : ht.find type key = some r) :
    ∃ c, ht.table[type.index ht key]? = some c ∧ c.find? (fun e => type.keyCompare key e.1) = r := by
  simpa [Dictht.find,Option.bind_eq_some_iff] using h

theorem Sound.find (h : ht.Sound type) (hs : 0 < ht.size) (hl : type.Lawful P)
    (hk : ∀ e ∈ ht.table.flatten, P e.1) {key : K} (hp : P key) :
    ∃ r, ht.find type key = some r ∧ (∀ e, r = some e → e ∈ ht.table.flatten ∧ e.1 = key) ∧
      (r = none → ∀ e ∈ ht.table.flatten, e.1 ≠ key) := by
  obtain ⟨c,rest,hc,hperm,-⟩ := h.chain hs key
  have hin : ∀ e ∈ c, e ∈ ht.table.flatten := fun e he =>
    hperm.mem_iff.mpr (List.mem_append_left _ he)
  refine ⟨c.find? fun e => type.keyCompare key e.1,by simp [Dictht.find,hc],fun e he => ?_,fun hnone e he hek => ?_⟩
  · have hmem := hin e (List.mem_of_find?_eq_some he)
    have hcmp := List.find?_some he
    exact ⟨hmem,((hl key e.1 hp (hk e hmem)).mp hcmp).symm⟩
  · subst hek
    have hec : e ∈ c := (h.placed.mem_flatten hc).mp he
    have hne := List.find?_eq_none.mp hnone e hec
    exact hne ((hl e.1 e.1 hp hp).mpr rfl)

theorem Sound.push (h : ht.Sound type) (hs : 0 < ht.size) (key : K) (val : V) :
    ∃ ht', ht.push (type.index ht key) (key,val) = some ht' ∧ ht'.Sound type ∧
      ht'.table.flatten.Perm ((key,val)::ht.table.flatten) ∧ ht'.size = ht.size ∧
      ht'.used = ht.used+1 := by
  obtain ⟨c,rest,hc,hperm,hset⟩ := h.chain hs key
  have hall := (hset ((key,val)::c)).trans (hperm.symm.cons (key,val))
  refine ⟨_,by simp [Dictht.push,hc],h.set ?_ ?_ hs,hall,rfl,rfl⟩
  · intro e he
    rcases List.mem_cons.mp he with rfl | he
    · rfl
    · exact h.placed _ _ hc e he
  · rw [hall.length_eq,List.length_cons,h.used]

theorem changeFirst_perm {key : K} {e : K × V} {c : List (K × V)} (f : K × V → List (K × V))
    (h : c.find? (fun e => type.keyCompare key e.1) = some e) :
    ∃ l, c.Perm (e::l) ∧ (changeFirst type key f c).Perm (f e++l) := by
  induction c with
  | nil => cases h
  | cons a c ih =>
    rw [List.find?_cons] at h
    by_cases ha : type.keyCompare key a.1
    · obtain rfl : a = e := by simpa [ha] using h
      exact ⟨c,List.Perm.refl _,by simp [changeFirst,ha]⟩
    · simp only [ha] at h
      obtain ⟨l,h₁,h₂⟩ := ih h
      refine ⟨a::l,(h₁.cons a).trans (List.Perm.swap e a l),?_⟩
      rw [changeFirst,if_neg ha]
      exact (h₂.cons a).trans List.perm_middle.symm

theorem Sound.change (h : ht.Sound type) (hs : 0 < ht.size) {key : K} {e : K × V}
    (hf : ht.find type key = some (some e)) (f : K × V → List (K × V)) (hfk : ∀ a ∈ f e, a.1 = key) :
    ∃ ht' l, ht.change type key f = some ht' ∧ ht.table.flatten.Perm (e::l) ∧
      ht'.table.flatten.Perm (f e++l) ∧ ht'.size = ht.size ∧ ht'.used = ht.used ∧
      ∀ n, n = (f e++l).length → Sound type {ht' with used := n} := by
  obtain ⟨c,hc,hfind⟩ := find_eq_some hf
  obtain ⟨l,h₁,h₂⟩ := changeFirst_perm f hfind
  obtain ⟨rest,hperm,hset⟩ := Buckets.flatten_set hc
  have hall := (hset (changeFirst type key f c)).trans ((h₂.append_right rest).trans (by rw [List.append_assoc]))
  refine ⟨{ht with table := ht.table.set (type.index ht key) (changeFirst type key f c)},l++rest,
    by simp [Dictht.change,hc],hperm.trans (h₁.append_right rest),hall,rfl,rfl,fun n hn => ?_⟩
  refine h.set (fun a ha => ?_) (hn.trans hall.length_eq.symm) hs
  rcases List.mem_append.mp (h₂.mem_iff.mp ha) with ha | ha
  · rw [hfk a ha]
  · exact h.placed _ _ hc a (h₁.mem_iff.mpr (List.mem_cons_of_mem _ ha))

/-- A whole chain goes over to the second table. -/
theorem moveChain_spec (c : List (K × V)) (ht0 : Dictht K V) {ht1 : Dictht K V} (h : ht1.Sound type)
    (hs : 0 < ht1.size) :
    ∃ ht1', moveChain type c ht0 ht1 = some ({ht0 with used := ht0.used-c.length},ht1') ∧
      ht1'.Sound type ∧ ht1'.table.flatten.Perm (c++ht1.table.flatten) ∧ ht1'.size = ht1.size ∧
      ht1'.used = ht1.used+c.length := by
  induction c generalizing ht0 ht1 with
  | nil => exact ⟨ht1,rfl,h,List.Perm.refl _,rfl,rfl⟩
  | cons e c ih =>
    obtain ⟨ht1',hpush,hsound,hperm,hsize,hused⟩ := h.push hs e.1 e.2
    obtain ⟨ht1'',hmove,hsound',hperm',hsize',hused'⟩ :=
      ih {ht0 with used := ht0.used-1} hsound (by omega)
    refine ⟨ht1'',?_,hsound',?_,hsize'.trans hsize,?_⟩
    · simp only [moveChain,hpush,Option.bind_eq_bind,Option.bind_some,hmove,List.length_cons]
      congr 3
      omega
    · exact hperm'.trans ((hperm.append_left c).trans List.perm_middle)
    · rw [hused',hused,List.length_cons]
      omega

end Dictht

theorem skipEmpty_eq {t : List (List (K × V))} (h : ∃ c ∈ t, c ≠ []) :
    ∃ n c, skipEmpty t = some n ∧ t[n]? = some c ∧ c ≠ [] ∧ ∀ j < n, t[j]? = some [] := by
  induction t with
  | nil => simp at h
  | cons a t ih =>
    cases a with
    | cons e a => exact ⟨0,_,rfl,rfl,by simp,by simp⟩
    | nil =>
      obtain ⟨n,c,h₁,h₂,h₃,h₄⟩ := ih (by simpa using h)
      refine ⟨n+1,c,by simp [skipEmpty,h₁],h₂,h₃,fun j hj => ?_⟩
      cases j with
      | zero => rfl
      | succ j => exact h₄ j (by omega)

/-- What one round of rehashing does: it empties a bucket of the first table, or it ends the rehashing. -/
inductive RehashRound : Dict K V → Dict K V → Prop
  | bucket {d d' : Dict K V} {i i' : ℕ} (before : d.rehashidx = some i) (behind : d'.rehashidx = some i')
      (lt : i < i') (le : i' ≤ d.ht0.size) (size0 : d'.ht0.size = d.ht0.size)
      (size1 : d'.ht1.size = d.ht1.size) (entries : d'.entries.Perm d.entries)
      (iterators : d'.iterators = d.iterators) : RehashRound d d'
  | finish {d : Dict K V} (rehashing : d.isRehashing) (used : d.ht0.used = 0) : RehashRound d (finishRehash d)

namespace Dict
variable {d d' : Dict K V}

theorem Sound.dictSize (h : d.Sound type P) : d.dictSize = d.entries.length := by
  rw [Dict.dictSize,entries,List.length_append,h.ht0.used,h.ht1.used]

theorem Sound.not_rehashing (h : d.Sound type P) (hs : d.ht0.size = 0) : d.rehashidx = none := by
  cases hi : d.rehashidx with
  | none => rfl
  | some i =>
    have := (h.busy i hi).1
    omega

theorem Sound.entries_nil (h : d.Sound type P) (hs : d.ht0.size = 0) : d.entries = [] := by
  have h₀ : d.ht0.table = [] := List.length_eq_zero_iff.mp (h.ht0.length.trans hs)
  rw [entries,h₀,h.idle (h.not_rehashing hs)]
  rfl

theorem isRehashing_iff : d.isRehashing ↔ ∃ i, d.rehashidx = some i := Option.isSome_iff_exists

theorem Sound.finish (h : d.Sound type P) (hr : d.isRehashing) (hu : d.ht0.used = 0) :
    (finishRehash d).Sound type P ∧ (finishRehash d).entries = d.entries ∧ 0 < (finishRehash d).ht0.size := by
  obtain ⟨i,hi⟩ := isRehashing_iff.mp hr
  have h₀ : d.ht0.table.flatten = [] := List.length_eq_zero_iff.mp (h.ht0.used.symm.trans hu)
  have he : (finishRehash d).entries = d.entries := by
    simp [entries,finishRehash,h₀,dictReset]
  exact ⟨{
    ht0 := h.ht1
    ht1 := dictReset_sound type
    keys := he ▸ h.keys
    nodup := he ▸ h.nodup
    idle := fun _ => rfl
    busy := by simp [finishRehash] },he,(h.busy i hi).2.1⟩

theorem Sound.rehashBucket (h : d.Sound type P) {i : ℕ} (hi : d.rehashidx = some i) (hu : d.ht0.used ≠ 0) :
    ∃ d', rehashBucket type d i = some d' ∧ d'.Sound type P ∧ RehashRound d d' := by
  obtain ⟨hs₀,hs₁,hdone⟩ := h.busy i hi
  have hne : d.ht0.table.flatten ≠ [] := fun he => hu (by rw [h.ht0.used,he]; rfl)
  obtain ⟨j,c,hij,hj,hcne⟩ := Buckets.exists_nonempty hne hdone
  have hjlt : j < d.ht0.size := h.ht0.length ▸ (List.getElem?_eq_some_iff.mp hj).1
  have hrest : ∃ c ∈ d.ht0.table.drop i, c ≠ [] := by
    refine ⟨c,List.mem_of_getElem? (i := j-i) ?_,hcne⟩
    rw [List.getElem?_drop]
    rwa [show i+(j-i) = j by omega]
  obtain ⟨n,c',hskip,hn,-,hfirst⟩ := skipEmpty_eq hrest
  rw [List.getElem?_drop] at hn
  have hnlt : i+n < d.ht0.size := h.ht0.length ▸ (List.getElem?_eq_some_iff.mp hn).1
  obtain ⟨ht1,hmove,hsound₁,hperm₁,hsize₁,-⟩ := Dictht.moveChain_spec c' d.ht0 h.ht1 hs₁
  obtain ⟨rest,hperm₀,hset₀⟩ := Buckets.flatten_set hn
  have hflat : (d.ht0.table.set (i+n) []).flatten.Perm rest := by simpa using hset₀ []
  have hlen := hperm₀.length_eq
  rw [List.length_append] at hlen
  have hentries : ((d.ht0.table.set (i+n) []).flatten++ht1.table.flatten).Perm d.entries := by
    refine (hflat.append hperm₁).trans ?_
    refine List.Perm.trans ?_ (hperm₀.symm.append_right _)
    rw [← List.append_assoc]
    exact List.perm_append_comm.append_right _
  refine ⟨{d with
    ht0 := {d.ht0 with table := d.ht0.table.set (i+n) [], used := d.ht0.used-c'.length}
    ht1 := ht1
    rehashidx := some (i+n+1)},?_,?_,?_⟩
  · simp only [Tadpole.rehashBucket,if_neg (show ¬ d.ht0.size ≤ i by omega),hskip,hn,hmove,
      Option.bind_eq_bind,Option.bind_some]
  · exact {
      ht0 := h.ht0.set (by simp) (by rw [hflat.length_eq,h.ht0.used]; omega) hs₀
      ht1 := hsound₁
      keys := fun e he => h.keys e (hentries.mem_iff.mp he)
      nodup := (hentries.map Prod.fst).nodup_iff.mpr h.nodup
      idle := by simp
      busy := by
        intro k hk
        obtain rfl : i+n+1 = k := by simpa using hk
        refine ⟨hs₀,hsize₁ ▸ hs₁,fun j hj => ?_⟩
        by_cases hjn : j = i+n
        · subst hjn
          rw [List.getElem?_set_self (by rw [h.ht0.length]; exact hnlt)]
        · rw [List.getElem?_set_ne (by omega)]
          by_cases hji : j < i
          · exact hdone j hji
          · have := hfirst (j-i) (by omega)
            rw [List.getElem?_drop] at this
            rwa [show i+(j-i) = j by omega] at this }
  · exact .bucket hi rfl (by omega) (by omega) rfl hsize₁ hentries rfl

/-- A round keeps the entries, the iterators and the first table. -/
theorem Sound.round (h : d.Sound type P) (hr : RehashRound d d') :
    d'.entries.Perm d.entries ∧ d'.iterators = d.iterators ∧ 0 < d'.ht0.size := by
  cases hr with
  | bucket before behind lt le size0 size1 entries iterators =>
    exact ⟨entries,iterators,size0 ▸ (h.busy _ before).1⟩
  | finish rehashing used =>
    obtain ⟨-,he,hs⟩ := h.finish rehashing used
    exact ⟨he ▸ List.Perm.refl _,rfl,hs⟩

theorem Sound.dictRehash_one (h : d.Sound type P) (hr : d.isRehashing) :
    ∃ d' more, dictRehash type d 1 = some (d',more) ∧ d'.Sound type P ∧ RehashRound d d' := by
  obtain ⟨i,hi⟩ := isRehashing_iff.mp hr
  by_cases hu : d.ht0.used = 0
  · exact ⟨finishRehash d,false,by simp [dictRehash,hi,hu],(h.finish hr hu).1,.finish hr hu⟩
  · obtain ⟨d',hd',hsound,hround⟩ := h.rehashBucket hi hu
    exact ⟨d',d'.isRehashing,by simp [dictRehash,hi,hu,hd'],hsound,hround⟩

/-- With no iterator about, a call during rehashing makes one round and otherwise none. -/
theorem Sound.stepIfRehashing (h : d.Sound type P) :
    ∃ d', stepIfRehashing type d = some d' ∧ d'.Sound type P ∧
      if d.isRehashing ∧ d.iterators = 0 then RehashRound d d' else d' = d := by
  by_cases hr : d.isRehashing
  · by_cases hit : d.iterators = 0
    · obtain ⟨d',more,hd',hsound,hround⟩ := h.dictRehash_one hr
      exact ⟨d',by simp [Tadpole.stepIfRehashing,hr,dictRehashStep,hit,hd'],hsound,by rwa [if_pos ⟨hr,hit⟩]⟩
    · exact ⟨d,by simp [Tadpole.stepIfRehashing,hr,dictRehashStep,hit],h,by rw [if_neg (by simp [hit])]⟩
  · exact ⟨d,by simp [Tadpole.stepIfRehashing,hr],h,by rw [if_neg (by simp [hr])]⟩

theorem Sound.step_keeps (h : d.Sound type P) (hs : 0 < d.ht0.size) :
    ∃ d', Tadpole.stepIfRehashing type d = some d' ∧ d'.Sound type P ∧ d'.entries.Perm d.entries ∧
      d'.iterators = d.iterators ∧ 0 < d'.ht0.size ∧
      if d.isRehashing ∧ d.iterators = 0 then RehashRound d d' else d' = d := by
  obtain ⟨d',hd',hsound,hcase⟩ := h.stepIfRehashing
  refine ⟨d',hd',hsound,?_⟩
  by_cases hb : d.isRehashing ∧ d.iterators = 0
  · rw [if_pos hb] at hcase
    obtain ⟨h₁,h₂,h₃⟩ := h.round hcase
    exact ⟨h₁,h₂,h₃,by rwa [if_pos hb]⟩
  · rw [if_neg hb] at hcase
    subst hcase
    exact ⟨List.Perm.refl _,rfl,hs,by rw [if_neg hb]⟩

theorem Sound.find (h : d.Sound type P) (hs : 0 < d.ht0.size) (hl : type.Lawful P) {key : K} (hp : P key) :
    ∃ r, d.find type key = some r ∧ ∀ e, r = some e ↔ e ∈ d.entries ∧ e.1 = key := by
  obtain ⟨r₀,hr₀,hsome₀,hnone₀⟩ := h.ht0.find hs hl (fun e he => h.keys e (List.mem_append_left _ he)) hp
  have huniq : ∀ e a, e ∈ d.entries → e.1 = key → a ∈ d.entries → a.1 = key → e = a := fun e a he hek ha hak =>
    List.inj_on_of_nodup_map h.nodup he ha (hek.trans hak.symm)
  cases hr₀e : r₀ with
  | some e₀ =>
    obtain ⟨hmem,hkey⟩ := hsome₀ e₀ hr₀e
    have hin : e₀ ∈ d.entries := List.mem_append_left _ hmem
    refine ⟨some e₀,by simp [Dict.find,hr₀,hr₀e],fun e => ⟨fun he => ?_,fun he => ?_⟩⟩
    · obtain rfl := Option.some.inj he
      exact ⟨hin,hkey⟩
    · rw [huniq e e₀ he.1 he.2 hin hkey]
  | none =>
    have hno := hnone₀ hr₀e
    by_cases hr : d.isRehashing
    · obtain ⟨i,hi⟩ := isRehashing_iff.mp hr
      obtain ⟨r₁,hr₁,hsome₁,hnone₁⟩ := h.ht1.find (h.busy i hi).2.1 hl
        (fun e he => h.keys e (List.mem_append_right _ he)) hp
      refine ⟨r₁,by simp [Dict.find,hr₀,hr₀e,hr,hr₁],fun e => ⟨fun he => ?_,fun he => ?_⟩⟩
      · obtain ⟨hmem,hkey⟩ := hsome₁ e he
        exact ⟨List.mem_append_right _ hmem,hkey⟩
      · cases hr₁e : r₁ with
        | some e₁ =>
          obtain ⟨hmem,hkey⟩ := hsome₁ e₁ hr₁e
          rw [huniq e e₁ he.1 he.2 (List.mem_append_right _ hmem) hkey]
        | none =>
          rcases List.mem_append.mp he.1 with hm | hm
          · exact absurd he.2 (hno e hm)
          · exact absurd he.2 (hnone₁ hr₁e e hm)
    · have hi : d.rehashidx = none := by
        cases hri : d.rehashidx with
        | none => rfl
        | some i => exact absurd (isRehashing_iff.mpr ⟨i,hri⟩) hr
      refine ⟨none,by simp [Dict.find,hr₀,hr₀e,hr],fun e => ⟨fun he => (by cases he),fun he => ?_⟩⟩
      have hm := he.1
      rw [entries,h.idle hi] at hm
      exact absurd he.2 (hno e (by simpa [dictReset] using hm))

theorem Sound.dictFind (h : d.Sound type P) (hl : type.Lawful P) {key : K} (hp : P key) :
    ∃ d' r, dictFind type d key = some (d',r) ∧ d'.Sound type P ∧ d'.entries.Perm d.entries ∧
      d'.iterators = d.iterators ∧ (∀ e, r = some e ↔ e ∈ d.entries ∧ e.1 = key) ∧
      if d.isRehashing ∧ d.iterators = 0 then RehashRound d d' else d' = d := by
  by_cases hs : d.ht0.size = 0
  · refine ⟨d,none,by simp [Tadpole.dictFind,hs],h,List.Perm.refl _,rfl,?_,?_⟩
    · simp [h.entries_nil hs]
    · rw [if_neg (by simp [isRehashing,h.not_rehashing hs])]
  · obtain ⟨d',hd',hsound,hperm,hit,hs',hcase⟩ := h.step_keeps (Nat.pos_of_ne_zero hs)
    obtain ⟨r,hr,hspec⟩ := hsound.find hs' hl hp
    refine ⟨d',r,by simp [Tadpole.dictFind,hs,hd',hr],hsound,hperm,hit,fun e => ?_,hcase⟩
    rw [hspec e,hperm.mem_iff]

end Dict

end

end Tadpole
