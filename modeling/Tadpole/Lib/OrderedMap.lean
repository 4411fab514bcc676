import Mathlib.Data.Finset.Basic
import Mathlib.Data.List.Basic
import Mathlib.Order.Basic

/-! Finite maps ordered by their keys: strictly ascending lists of bindings, so that two maps
with the same bindings are the same list, and an interval of keys is a sublist. -/
namespace OrderedMap

variable {K V : Type} [LinearOrder K]

def Ascending (l : List (K × V)) : Prop := l.Pairwise fun a b => a.1 < b.1

def insertList (k : K) (v : V) : List (K × V) → List (K × V)
  | [] => [(k,v)]
  | e::l => if k < e.1 then (k,v)::e::l else if k = e.1 then (k,v)::l else e::insertList k v l

/-- Everything below `a`, the key itself, everything above: insertion replaces the middle. -/
theorem insertList_split {k : K} {v : V} {a b m : List (K × V)} (ha : ∀ e ∈ a, e.1 < k)
    (hb : ∀ e ∈ b, k < e.1) (hm : ∀ e ∈ m, e.1 = k) (hl : m.length ≤ 1) :
    insertList k v (a++(m++b)) = a++(k,v)::b := by
  induction a with
  | nil =>
    match m with
    | [] =>
      cases b with
      | nil => rfl
      | cons e b => simp [insertList,hb e (by simp)]
    | [e] => simp [insertList,hm e (by simp)]
  | cons e a ih =>
    have he := ha e (by simp)
    have hr := ih fun e' h' => ha e' (by simp [h'])
    simp [insertList,he.not_gt,he.ne',hr]

theorem mem_insertList {k : K} {v : V} {l : List (K × V)} {e : K × V}
    (h : e ∈ insertList k v l) : e = (k,v) ∨ e ∈ l := by
  induction l with
  | nil => simpa [insertList] using h
  | cons a l ih =>
    simp only [insertList] at h
    split_ifs at h <;> simp only [List.mem_cons] at h ⊢ <;> tauto

theorem Ascending.insertList {k : K} {v : V} {l : List (K × V)} (h : Ascending l) :
    Ascending (insertList k v l) := by
  induction l with
  | nil => simp [OrderedMap.insertList,Ascending]
  | cons e l ih =>
    obtain ⟨he,hl⟩ := List.pairwise_cons.mp h
    simp only [OrderedMap.insertList]
    split_ifs with h₁ h₂
    · refine List.pairwise_cons.mpr ⟨fun b hb => ?_,h⟩
      rcases List.mem_cons.mp hb with rfl | hb
      · exact h₁
      · exact h₁.trans (he b hb)
    · exact List.pairwise_cons.mpr ⟨fun b hb => h₂ ▸ he b hb,hl⟩
    · refine List.pairwise_cons.mpr ⟨fun b hb => ?_,ih hl⟩
      rcases mem_insertList hb with rfl | hb
      · exact lt_of_le_of_ne (not_lt.mp h₁) (Ne.symm h₂)
      · exact he b hb

end OrderedMap

/-- A finite map, its bindings strictly ascending by key. -/
@[ext] structure OrderedMap (K V : Type) [LinearOrder K] where
  entries : List (K × V)
  ascending : OrderedMap.Ascending entries

namespace OrderedMap

variable {K V : Type} [LinearOrder K]

def empty : OrderedMap K V := ⟨[],List.Pairwise.nil⟩

@[simp] theorem empty_entries : (empty : OrderedMap K V).entries = [] := rfl

def insert (M : OrderedMap K V) (k : K) (v : V) : OrderedMap K V :=
  ⟨insertList k v M.entries,M.ascending.insertList⟩

def erase (M : OrderedMap K V) (k : K) : OrderedMap K V :=
  ⟨M.entries.filter (fun e => e.1 ≠ k),M.ascending.filter _⟩

def lookup (M : OrderedMap K V) (k : K) : Option V :=
  (M.entries.find? (fun e => e.1 = k)).map Prod.snd

/-- The keys of a list from `a` to `b`, both included. -/
def between (a b : K) (l : List K) : List K := l.filter fun k => a ≤ k ∧ k ≤ b

@[simp] theorem between_nil (a b : K) : between a b [] = [] := rfl

theorem between_cons (a b k : K) (l : List K) :
    between a b (k::l) = if a ≤ k ∧ k ≤ b then k::between a b l else between a b l := by
  by_cases h : a ≤ k ∧ k ≤ b <;> simp [between,h]

/-- The keys from `a` to `b`, both included, ascending. -/
def range (M : OrderedMap K V) (a b : K) : List K := between a b (M.entries.map Prod.fst)

def size (M : OrderedMap K V) : ℕ := M.entries.length

def keys (M : OrderedMap K V) : Finset K := (M.entries.map Prod.fst).toFinset

def least (M : OrderedMap K V) : Option K := M.entries.head?.map Prod.fst

def greatest (M : OrderedMap K V) : Option K := M.entries.getLast?.map Prod.fst

@[simp] theorem mem_keys {M : OrderedMap K V} {k : K} :
    k ∈ M.keys ↔ ∃ e ∈ M.entries, e.1 = k := by simp [keys]

theorem mem_range {M : OrderedMap K V} {a b k : K} :
    k ∈ M.range a b ↔ k ∈ M.keys ∧ a ≤ k ∧ k ≤ b := by simp [range,between]

/-- Looking a key up where the bindings split around it. -/
theorem find?_split {k : K} {a b m : List (K × V)} (ha : ∀ e ∈ a, e.1 < k)
    (hb : ∀ e ∈ b, k < e.1) (hm : ∀ e ∈ m, e.1 = k) :
    (a++(m++b)).find? (fun e => e.1 = k) = m.head? := by
  have h₁ : a.find? (fun e => e.1 = k) = none := by
    simp only [List.find?_eq_none]
    exact fun e he => by simpa using (ha e he).ne
  have h₂ : b.find? (fun e => e.1 = k) = none := by
    simp only [List.find?_eq_none]
    exact fun e he => by simpa using (hb e he).ne'
  cases m with
  | nil => simp [List.find?_append,h₁,h₂]
  | cons e m => simp [List.find?_append,h₁,hm e (by simp)]

theorem filter_split {k : K} {a b m : List (K × V)} (ha : ∀ e ∈ a, e.1 < k)
    (hb : ∀ e ∈ b, k < e.1) (hm : ∀ e ∈ m, e.1 = k) :
    (a++(m++b)).filter (fun e => e.1 ≠ k) = a++b := by
  have h₁ : a.filter (fun e => e.1 ≠ k) = a := by
    rw [List.filter_eq_self]
    exact fun e he => by simpa using (ha e he).ne
  have h₂ : m.filter (fun e => e.1 ≠ k) = [] := by
    rw [List.filter_eq_nil_iff]
    exact fun e he => by simpa using hm e he
  have h₃ : b.filter (fun e => e.1 ≠ k) = b := by
    rw [List.filter_eq_self]
    exact fun e he => by simpa using (hb e he).ne'
  rw [List.filter_append,List.filter_append,h₁,h₂,h₃,List.nil_append]

/-- Every key splits the bindings into those below, at most one at it, and those above. -/
theorem exists_split (M : OrderedMap K V) (k : K) : ∃ a m b,
    M.entries = a++(m++b) ∧ (∀ e ∈ a, e.1 < k) ∧ (∀ e ∈ b, k < e.1) ∧
      (∀ e ∈ m, e.1 = k) ∧ m.length ≤ 1 := by
  obtain ⟨l,hl⟩ := M
  induction l with
  | nil => exact ⟨[],[],[],by simp⟩
  | cons e l ih =>
    obtain ⟨he,hl'⟩ := List.pairwise_cons.mp hl
    rcases lt_trichotomy e.1 k with h | h | h
    · obtain ⟨a,m,b,hs,ha,hb,hm,h1⟩ := ih hl'
      refine ⟨e::a,m,b,by simpa using hs,?_,hb,hm,h1⟩
      exact List.forall_mem_cons.mpr ⟨h,ha⟩
    · refine ⟨[],[e],l,by simp,by simp,?_,by simpa using h,by simp⟩
      exact fun e' he' => h ▸ he e' he'
    · refine ⟨[],[],e::l,by simp,by simp,?_,by simp,by simp⟩
      exact List.forall_mem_cons.mpr ⟨h,fun e' he' => h.trans (he e' he')⟩

theorem lookup_eq_some {M : OrderedMap K V} {k : K} {v : V} :
    M.lookup k = some v ↔ (k,v) ∈ M.entries := by
  obtain ⟨a,m,b,hs,ha,hb,hm,h1⟩ := M.exists_split k
  rw [lookup,hs,find?_split ha hb hm]
  have hnm : ∀ e ∈ a++b, e.1 ≠ k := by
    intro e he
    rcases List.mem_append.mp he with he | he
    · exact (ha e he).ne
    · exact (hb e he).ne'
  match m with
  | [] =>
    have := fun h => hnm (k,v) h rfl
    simp at this ⊢; tauto
  | [(k',v')] =>
    obtain rfl : k' = k := hm (k',v') (by simp)
    have := fun h => hnm (k',v) h rfl
    simp at this ⊢
    constructor
    · rintro rfl; simp
    · rintro (h | h | h)
      · tauto
      · exact h.symm
      · tauto

theorem lookup_eq_none {M : OrderedMap K V} {k : K} : M.lookup k = none ↔ k ∉ M.keys := by
  rw [Option.eq_none_iff_forall_ne_some]
  simp only [ne_eq,lookup_eq_some,mem_keys,Prod.exists]
  constructor
  · rintro h ⟨k',v,hm,rfl⟩; exact h v hm
  · intro h v hm; exact h ⟨k,v,hm,rfl⟩

@[simp] theorem lookup_insert_self (M : OrderedMap K V) (k : K) (v : V) :
    (M.insert k v).lookup k = some v := by
  obtain ⟨a,m,b,hs,ha,hb,hm,h1⟩ := M.exists_split k
  have hi := insertList_split (v:=v) ha hb hm h1
  have he : (M.insert k v).entries = a++([(k,v)]++b) := by simpa [insert,hs] using hi
  rw [lookup,he,find?_split ha hb (by simp)]
  rfl

theorem mem_insert_of_ne {M : OrderedMap K V} {k k' : K} {v v' : V} (h : k' ≠ k) :
    (k',v') ∈ (M.insert k v).entries ↔ (k',v') ∈ M.entries := by
  obtain ⟨a,m,b,hs,ha,hb,hm,h1⟩ := M.exists_split k
  have hi := insertList_split (v:=v) ha hb hm h1
  have hk : (k',v') ∉ m := fun hk => h (hm _ hk)
  simp only [insert,hs,hi,List.mem_append,List.mem_cons,Prod.mk.injEq]
  tauto

theorem lookup_insert_of_ne {M : OrderedMap K V} {k k' : K} {v : V} (h : k' ≠ k) :
    (M.insert k v).lookup k' = M.lookup k' := by
  ext v'
  rw [lookup_eq_some,lookup_eq_some,mem_insert_of_ne h]

@[simp] theorem lookup_erase_self (M : OrderedMap K V) (k : K) : (M.erase k).lookup k = none := by
  simp [lookup_eq_none,erase]

/-- A map is determined by its bindings in any order. -/
theorem ext_mem {M M' : OrderedMap K V} (h : ∀ e, e ∈ M.entries ↔ e ∈ M'.entries) : M = M' := by
  have hnodup : ∀ N : OrderedMap K V, N.entries.Nodup := fun N =>
    List.Pairwise.imp (fun hlt he => hlt.ne (congrArg Prod.fst he)) N.ascending
  have hperm : M.entries.Perm M'.entries := (List.perm_ext_iff_of_nodup (hnodup M) (hnodup M')).mpr h
  exact OrderedMap.ext (hperm.eq_of_pairwise (fun _ _ _ _ h₁ h₂ => absurd h₁ h₂.not_gt)
    M.ascending M'.ascending)

theorem mem_keys_insert {M : OrderedMap K V} {k k' : K} {v : V} :
    k' ∈ (M.insert k v).keys ↔ k' = k ∨ k' ∈ M.keys := by
  by_cases h : k' = k
  · subst h
    simp only [mem_keys,true_or,iff_true]
    exact ⟨_,lookup_eq_some.mp (lookup_insert_self M k' v),rfl⟩
  · rw [← not_iff_not,← lookup_eq_none,lookup_insert_of_ne h,lookup_eq_none]
    tauto

theorem mem_keys_erase {M : OrderedMap K V} {k k' : K} :
    k' ∈ (M.erase k).keys ↔ k' ≠ k ∧ k' ∈ M.keys := by
  simp [erase,and_comm]

section
variable {M : OrderedMap K V} {k : K} {a b m : List (K × V)}

theorem lookup_split (hs : M.entries = a++(m++b)) (ha : ∀ e ∈ a, e.1 < k)
    (hb : ∀ e ∈ b, k < e.1) (hm : ∀ e ∈ m, e.1 = k) : M.lookup k = m.head?.map Prod.snd := by
  rw [lookup,hs,find?_split ha hb hm]

theorem insert_split (hs : M.entries = a++(m++b)) (ha : ∀ e ∈ a, e.1 < k)
    (hb : ∀ e ∈ b, k < e.1) (hm : ∀ e ∈ m, e.1 = k) (hl : m.length ≤ 1) (v : V) :
    (M.insert k v).entries = a++(k,v)::b := by
  show insertList k v M.entries = _
  rw [hs,insertList_split ha hb hm hl]

theorem erase_split (hs : M.entries = a++(m++b)) (ha : ∀ e ∈ a, e.1 < k)
    (hb : ∀ e ∈ b, k < e.1) (hm : ∀ e ∈ m, e.1 = k) : (M.erase k).entries = a++b := by
  show M.entries.filter _ = _
  rw [hs,filter_split ha hb hm]

theorem split_present {v : V} (hs : M.entries = a++(m++b)) (ha : ∀ e ∈ a, e.1 < k)
    (hb : ∀ e ∈ b, k < e.1) (hm : ∀ e ∈ m, e.1 = k) (hl : m.length ≤ 1)
    (hv : M.lookup k = some v) : m = [(k,v)] := by
  rw [lookup_split hs ha hb hm] at hv
  match m with
  | [] => simp at hv
  | [(k',v')] =>
    obtain rfl : k' = k := hm (k',v') (by simp)
    obtain rfl : v' = v := by simpa using hv
    rfl

theorem split_absent (hs : M.entries = a++(m++b)) (ha : ∀ e ∈ a, e.1 < k)
    (hb : ∀ e ∈ b, k < e.1) (hm : ∀ e ∈ m, e.1 = k) (hn : M.lookup k = none) : m = [] := by
  rw [lookup_split hs ha hb hm] at hn
  simpa using hn

theorem erase_absent (hn : M.lookup k = none) : M.erase k = M := by
  obtain ⟨a,m,b,hs,ha,hb,hm,hl⟩ := M.exists_split k
  have he := erase_split hs ha hb hm
  rw [split_absent hs ha hb hm hn,List.nil_append] at hs
  exact OrderedMap.ext (he.trans hs.symm)

theorem size_insert_absent (v : V) (hn : M.lookup k = none) : (M.insert k v).size = M.size+1 := by
  obtain ⟨a,m,b,hs,ha,hb,hm,hl⟩ := M.exists_split k
  have hi := insert_split hs ha hb hm hl v
  rw [split_absent hs ha hb hm hn] at hs
  simp only [size,hs,hi,List.length_append,List.length_cons,List.length_nil]
  omega

theorem size_insert_present {v : V} (w : V) (hv : M.lookup k = some v) :
    (M.insert k w).size = M.size := by
  obtain ⟨a,m,b,hs,ha,hb,hm,hl⟩ := M.exists_split k
  have hi := insert_split hs ha hb hm hl w
  rw [split_present hs ha hb hm hl hv] at hs
  simp only [size,hs,hi,List.length_append,List.length_cons,List.length_nil]
  omega

theorem size_erase {v : V} (hv : M.lookup k = some v) : (M.erase k).size+1 = M.size := by
  obtain ⟨a,m,b,hs,ha,hb,hm,hl⟩ := M.exists_split k
  have he := erase_split hs ha hb hm
  rw [split_present hs ha hb hm hl hv] at hs
  simp only [size,hs,he,List.length_append,List.length_cons,List.length_nil]
  omega

end

end OrderedMap
