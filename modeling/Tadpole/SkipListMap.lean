import Tadpole.Lib.OrderedMap
import Tadpole.SkipListDelete

/-! With keys of one length the skip list refines an ordered map: the bottom chain carries the
bindings in ascending order, and each function of skiplist.c is the map's operation. -/
namespace Tadpole

abbrev KeyMap := OrderedMap Bytes Bytes

theorem slKeyCompare_lt {k₁ k₂ : Bytes} (h : k₁.length = k₂.length) :
    slKeyCompare k₁ k₂ = .lt ↔ k₁ < k₂ := by
  rw [slKeyCompare,if_neg (by simpa using h)]
  exact (memcmp_of_length_eq h).1

theorem slKeyCompare_eq {k₁ k₂ : Bytes} (h : k₁.length = k₂.length) :
    slKeyCompare k₁ k₂ = .eq ↔ k₁ = k₂ := by
  rw [slKeyCompare,if_neg (by simpa using h)]
  exact (memcmp_of_length_eq h).2

theorem slKeyCompare_gt {k₁ k₂ : Bytes} (h : k₁.length = k₂.length) :
    slKeyCompare k₁ k₂ = .gt ↔ k₂ < k₁ := by
  have h₁ := slKeyCompare_lt h
  have h₂ := slKeyCompare_eq h
  rcases lt_trichotomy k₁ k₂ with hlt | heq | hgt
  · simp [h₁.mpr hlt,hlt.not_gt]
  · simp [h₂.mpr heq,heq.not_gt]
  · have hn₁ : slKeyCompare k₁ k₂ ≠ .lt := fun he => hgt.not_gt (h₁.mp he)
    have hn₂ : slKeyCompare k₁ k₂ ≠ .eq := fun he => hgt.ne' (h₂.mp he)
    cases hc : slKeyCompare k₁ k₂ <;> simp_all

/-- Keys of different lengths compare as equal. -/
theorem slKeyCompare_of_ne {k₁ k₂ : Bytes} (h : k₁.length ≠ k₂.length) :
    slKeyCompare k₁ k₂ = .eq := if_pos h

def Tower.content (t : Tower) : Bytes × Option Bytes := (t.key,t.val)

def live (e : Bytes × Bytes) : Bytes × Option Bytes := (e.1,some e.2)

theorem live_injective : Function.Injective live := by
  rintro ⟨k,v⟩ ⟨k',v'⟩ h
  simpa [live] using h

/-- The towers in memory carry the bindings of `M`, whose keys all have `len` bytes. -/
structure Represents (m : Mem) (T : List Tower) (M : KeyMap) (len : ℕ) : Prop where
  shape : Shape m T
  content : T.map Tower.content = M.entries.map live
  keyLen : ∀ e ∈ M.entries, e.1.length = len

theorem createSkiplist_represents (len : ℕ) :
    Represents createSkiplist [] OrderedMap.empty len where
  shape := createSkiplist_shape
  content := rfl
  keyLen := by simp

section
variable {m : Mem} {T : List Tower} {M : KeyMap} {len : ℕ} {key : Bytes}

theorem Represents.tower_key (h : Represents m T M len) {t : Tower} (ht : t ∈ T) :
    ∃ e ∈ M.entries, e.1 = t.key ∧ t.val = some e.2 := by
  have hm : t.content ∈ M.entries.map live := h.content ▸ List.mem_map_of_mem ht
  obtain ⟨e,he,hlive⟩ := List.mem_map.mp hm
  simp only [live,Tower.content,Prod.mk.injEq] at hlive
  exact ⟨e,he,hlive.1,hlive.2.symm⟩

theorem Represents.keys_eq (h : Represents m T M len) : T.map Tower.key = M.entries.map Prod.fst := by
  have hc := congrArg (List.map Prod.fst) h.content
  rwa [List.map_map,List.map_map] at hc

theorem Represents.length_eq (h : Represents m T M len) : T.length = M.size := by
  have := congrArg List.length h.content
  simpa [OrderedMap.size] using this

theorem content_split {V : Type} {M : OrderedMap Bytes V} {f : Bytes × V → Bytes × Option Bytes}
    (hf : ∀ e, (f e).1 = e.1) (hcont : T.map Tower.content = M.entries.map f)
    (hlen : ∀ e ∈ M.entries, e.1.length = len) (hk : key.length = len) :
    ∃ a b c T₁ T₂ T₃, M.entries = a++(b++c) ∧ T = T₁++(T₂++T₃) ∧
      T₁.map Tower.content = a.map f ∧ T₂.map Tower.content = b.map f ∧
      T₃.map Tower.content = c.map f ∧ (∀ e ∈ a, e.1 < key) ∧ (∀ e ∈ c, key < e.1) ∧
      (∀ e ∈ b, e.1 = key) ∧ b.length ≤ 1 ∧
      (∀ t ∈ T₁, slKeyCompare t.key key = .lt) ∧ (∀ t ∈ T₂, t.key = key) ∧
      ∀ t ∈ T₃, slKeyCompare t.key key = .gt ∧ slKeyCompare key t.key ≠ .eq := by
  obtain ⟨a,b,c,hs,ha,hc,hb,h1⟩ := M.exists_split key
  rw [hs,List.map_append,List.map_append] at hcont
  obtain ⟨T₁,T',rfl,h₁,hT'⟩ := List.map_eq_append_iff.mp hcont
  obtain ⟨T₂,T₃,rfl,h₂,h₃⟩ := List.map_eq_append_iff.mp hT'
  have key_of : ∀ {S : List Tower} {l : List (Bytes × V)}, S.map Tower.content = l.map f →
      ∀ t ∈ S, ∃ e ∈ l, e.1 = t.key := by
    intro S l hl t ht
    obtain ⟨e,he,hfe⟩ := List.mem_map.mp (hl ▸ List.mem_map_of_mem (f:=Tower.content) ht)
    exact ⟨e,he,(hf e).symm.trans (congrArg Prod.fst hfe)⟩
  refine ⟨a,b,c,T₁,T₂,T₃,hs,rfl,h₁,h₂,h₃,ha,hc,hb,h1,?_,?_,?_⟩
  · intro t ht
    obtain ⟨e,he,hek⟩ := key_of h₁ t ht
    have hel := hlen e (by simp [hs,he])
    exact (slKeyCompare_lt (by rw [← hek,hel,hk])).mpr (hek ▸ ha e he)
  · intro t ht
    obtain ⟨e,he,hek⟩ := key_of h₂ t ht
    exact hek ▸ hb e he
  · intro t ht
    obtain ⟨e,he,hek⟩ := key_of h₃ t ht
    have hel := hlen e (by simp [hs,he])
    have hlt : key < t.key := hek ▸ hc e he
    refine ⟨(slKeyCompare_gt (by rw [← hek,hel,hk])).mpr hlt,fun heq => hlt.ne ?_⟩
    exact (slKeyCompare_eq (by rw [← hek,hel,hk])).mp heq

theorem Represents.split (h : Represents m T M len) (hk : key.length = len) :
    ∃ a b c T₁ T₂ T₃, M.entries = a++(b++c) ∧ T = T₁++(T₂++T₃) ∧
      T₁.map Tower.content = a.map live ∧ T₂.map Tower.content = b.map live ∧
      T₃.map Tower.content = c.map live ∧ (∀ e ∈ a, e.1 < key) ∧ (∀ e ∈ c, key < e.1) ∧
      (∀ e ∈ b, e.1 = key) ∧ b.length ≤ 1 ∧
      (∀ t ∈ T₁, slKeyCompare t.key key = .lt) ∧ (∀ t ∈ T₂, t.key = key) ∧
      ∀ t ∈ T₃, slKeyCompare t.key key = .gt ∧ slKeyCompare key t.key ≠ .eq :=
  content_split (fun _ => rfl) h.content h.keyLen hk

theorem Represents.split_absent (h : Represents m T M len) (hk : key.length = len)
    (hn : M.lookup key = none) :
    ∃ T₁ T₂, T = T₁++T₂ ∧ SplitsAt key T₁ T₂ ∧
      (∀ t ∈ T₂, slKeyCompare t.key key ≠ .eq ∧ slKeyCompare key t.key ≠ .eq) ∧
      ∀ t v, t.content = (key,some v) →
        (T₁++t::T₂).map Tower.content = (M.insert key v).entries.map live := by
  obtain ⟨a,b,c,T₁,T₂,T₃,hs,rfl,h₁,h₂,h₃,ha,hc,hb,h1,hlt,hmid,hgt⟩ := h.split hk
  obtain rfl : T₂ = [] := by simpa [OrderedMap.split_absent hs ha hc hb hn] using h₂
  refine ⟨T₁,T₃,by simp,⟨hlt,?_⟩,?_,?_⟩
  · intro t ht
    rw [(hgt t ht).1]
    decide
  · intro t ht
    refine ⟨?_,(hgt t ht).2⟩
    rw [(hgt t ht).1]
    decide
  · intro t v ht
    simp only [OrderedMap.insert_split hs ha hc hb h1 v,List.map_append,List.map_cons,h₁,h₃,ht,live]

theorem Represents.split_present {v : Bytes} (h : Represents m T M len) (hk : key.length = len)
    (hv : M.lookup key = some v) :
    ∃ T₁ t T₂, T = T₁++t::T₂ ∧ t.key = key ∧ t.val = some v ∧ SplitsAt key T₁ (t::T₂) ∧
      (∀ t' ∈ T₂, slKeyCompare key t'.key ≠ .eq) ∧
      (∀ t' w, t'.content = (key,some w) →
        (T₁++t'::T₂).map Tower.content = (M.insert key w).entries.map live) ∧
      (T₁++T₂).map Tower.content = (M.erase key).entries.map live := by
  obtain ⟨a,b,c,T₁,T₂,T₃,hs,rfl,h₁,h₂,h₃,ha,hc,hb,h1,hlt,hmid,hgt⟩ := h.split hk
  rw [OrderedMap.split_present hs ha hc hb h1 hv] at h₂
  obtain ⟨t,rfl⟩ : ∃ t, T₂ = [t] := by
    have := congrArg List.length h₂
    simpa [List.length_eq_one_iff] using this
  simp only [List.map_cons,List.map_nil,List.cons.injEq,and_true,Tower.content,live,
    Prod.mk.injEq] at h₂
  refine ⟨T₁,t,T₃,rfl,h₂.1,h₂.2,⟨hlt,?_⟩,fun t' ht' => (hgt t' ht').2,?_,?_⟩
  · intro t' ht'
    rcases List.mem_cons.mp ht' with rfl | ht'
    · rw [h₂.1,(slKeyCompare_eq rfl).mpr rfl]
      decide
    · rw [(hgt t' ht').1]
      decide
  · intro t' w ht'
    simp only [OrderedMap.insert_split hs ha hc hb h1 w,List.map_append,List.map_cons,h₁,h₃,ht',live]
  · rw [OrderedMap.erase_split hs ha hc hb,List.map_append,List.map_append,h₁,h₃]

theorem SplitsAt.front_ne {T₁ T₂ : List Tower} (h : SplitsAt key T₁ T₂) : ∀ s ∈ T₁, s.key ≠ key := by
  rintro s hs rfl
  have hlt := h.below s hs
  rw [(slKeyCompare_eq rfl).mpr rfl] at hlt
  cases hlt

theorem keyLen_insert {v : Bytes} (hM : ∀ e ∈ M.entries, e.1.length = len)
    (hk : key.length = len) : ∀ e ∈ (M.insert key v).entries, e.1.length = len := by
  intro e he
  rcases OrderedMap.mem_insertList he with rfl | he
  · exact hk
  · exact hM e he

theorem keyLen_erase (hM : ∀ e ∈ M.entries, e.1.length = len) :
    ∀ e ∈ (M.erase key).entries, e.1.length = len :=
  fun e he => hM e (List.mem_filter.mp he).1

end

section
variable {h : Hist} {T : List Tower} {M : KeyMap} {len : ℕ} {key : Bytes}

theorem Represents.insertSkiplist_tower (hr : Represents h.now T M len) (hk : key.length = len)
    (hn : M.lookup key = none) {val : SdsPtr} {v : Bytes} (hv : h.now.strs val = some v)
    (target : Level) :
    ∃ h' T₁ T₂ t, T = T₁++T₂ ∧ SplitsAt key T₁ T₂ ∧ (∀ s ∈ T₂, slKeyCompare s.key key ≠ .eq) ∧
      Tadpole.insertSkiplist h key val target true = some (0,h') ∧
      Represents h'.now (T₁++t::T₂) (M.insert key v) len ∧ t.key = key ∧ t.height = target ∧
      h'.now.length = int32 (h.now.length+1) ∧ KeepsForeign h h' T (T₁++t::T₂) ∧
      SavedThrough h h' [T,T₁++t::T₂] := by
  obtain ⟨T₁,T₂,rfl,hs,hne,hcont⟩ := hr.split_absent hk hn
  obtain ⟨h',t,hi,hshape,htk,htv,hth,hlen,hkeep,hsav⟩ := insertSkiplist_absent target hr.shape hs
    (fun t ht => (hne t (List.mem_of_mem_head? ht)).1) hv
  refine ⟨h',T₁,T₂,t,rfl,hs,fun s hs' => (hne s hs').1,hi,⟨hshape,?_,keyLen_insert hr.keyLen hk⟩,htk,
    hth,hlen,hkeep,hsav⟩
  exact hcont t v (by simp [Tower.content,htk,htv])

/-- `insert_skiplist` of an absent key is the map's insertion. -/
theorem Represents.insertSkiplist (hr : Represents h.now T M len) (hk : key.length = len)
    (hn : M.lookup key = none) {val : SdsPtr} {v : Bytes} (hv : h.now.strs val = some v)
    (target : Level) :
    ∃ h' T', Tadpole.insertSkiplist h key val target true = some (0,h') ∧
      Represents h'.now T' (M.insert key v) len ∧ h'.now.length = int32 (h.now.length+1) ∧
      KeepsForeign h h' T T' ∧ SavedThrough h h' [T,T'] := by
  obtain ⟨h',T₁,T₂,t,-,-,-,hi,hr',-,-,hlen,hkeep,hsav⟩ := hr.insertSkiplist_tower hk hn hv target
  exact ⟨h',T₁++t::T₂,hi,hr',hlen,hkeep,hsav⟩

theorem Represents.insertSkiplist_failed (hr : Represents h.now T M len) (hk : key.length = len)
    (hn : M.lookup key = none) {val : SdsPtr} {v : Bytes} (hv : h.now.strs val = some v)
    (target : Level) :
    ∃ h', Tadpole.insertSkiplist h key val target false = some (-1,h') ∧ Extends h.now h'.now ∧
      h'.now.level = max h.now.level target ∧ h'.now.length = h.now.length ∧
      SavedThrough h h' [T] := by
  obtain ⟨T₁,T₂,rfl,hs,hne,-⟩ := hr.split_absent hk hn
  exact Tadpole.insertSkiplist_failed target hr.shape hs
    (fun t ht => (hne t (List.mem_of_mem_head? ht)).1) hv

theorem Represents.replaceSkiplist_tower (hr : Represents h.now T M len) (hk : key.length = len)
    {v : Bytes} (hv : M.lookup key = some v) (w : Bytes) :
    ∃ h' T₁ t t' T₂, T = T₁++t::T₂ ∧ t.key = key ∧ (∀ s ∈ T₁, s.key ≠ key) ∧
      t'.key = key ∧ t'.val = some w ∧ t'.height = t.height ∧ t'.addr = t.addr ∧
      Tadpole.replaceSkiplist h key w = some (0,h') ∧
      Represents h'.now (T₁++t'::T₂) (M.insert key w) len ∧ h'.now.length = h.now.length ∧
      KeepsForeign h h' T (T₁++t'::T₂) ∧
      ∃ s ∈ h'.past, ∃ D, Walkable s D ∧ ∃ t ∈ D, t.val = none := by
  obtain ⟨T₁,t,T₂,rfl,htk,htv,hs,hne,hins,-⟩ := hr.split_present hk hv
  obtain ⟨h',t',hrep,hshape,htk',htv',hth',hta',hlen,hkeep,s,hmem,hw⟩ := replaceSkiplist_present
    (w:=w) hr.shape hs ((slKeyCompare_eq (by rw [htk])).mpr htk.symm) hne htv
  refine ⟨h',T₁,t,t',T₂,rfl,htk,hs.front_ne,htk'.trans htk,htv',hth',hta',hrep,
    ⟨hshape,?_,keyLen_insert hr.keyLen hk⟩,hlen,hkeep,s,hmem,_,hw,?_⟩
  · exact hins t' w (by simp [Tower.content,htk',htk,htv'])
  · exact ⟨_,List.mem_append_right _ List.mem_cons_self,rfl⟩

/-- `replace_skiplist` of a present key is the map's insertion, through a memory where the key's
value is dead. -/
theorem Represents.replaceSkiplist (hr : Represents h.now T M len) (hk : key.length = len)
    {v : Bytes} (hv : M.lookup key = some v) (w : Bytes) :
    ∃ h' T', Tadpole.replaceSkiplist h key w = some (0,h') ∧
      Represents h'.now T' (M.insert key w) len ∧ h'.now.length = h.now.length ∧
      KeepsForeign h h' T T' ∧
      ∃ s ∈ h'.past, ∃ D, Walkable s D ∧ ∃ t ∈ D, t.val = none := by
  obtain ⟨h',T₁,t,t',T₂,-,-,-,-,-,-,-,hrep,hr',hlen,hkeep,hdead⟩ := hr.replaceSkiplist_tower hk hv w
  exact ⟨h',T₁++t'::T₂,hrep,hr',hlen,hkeep,hdead⟩

theorem Represents.deleteSkiplist_tower (hr : Represents h.now T M len) (hk : key.length = len)
    {v : Bytes} (hv : M.lookup key = some v) :
    ∃ h' T₁ t T₂, T = T₁++t::T₂ ∧ t.key = key ∧ (∀ s ∈ T₁, s.key ≠ key) ∧
      Tadpole.deleteSkiplist h key = some (0,h') ∧ Represents h'.now (T₁++T₂) (M.erase key) len ∧
      h'.now.length = int32 (h.now.length-1) ∧ KeepsForeign h h' T (T₁++T₂) ∧
      SavedThrough h h' [T,T₁++T₂] := by
  obtain ⟨T₁,t,T₂,rfl,htk,htv,hs,-,-,hdel⟩ := hr.split_present hk hv
  obtain ⟨h',hd,hshape,hlen,hkeep,hsav⟩ := deleteSkiplist_present hr.shape hs
    ((slKeyCompare_eq (by rw [htk])).mpr htk) htv
  exact ⟨h',T₁,t,T₂,rfl,htk,hs.front_ne,hd,⟨hshape,hdel,keyLen_erase hr.keyLen⟩,hlen,hkeep,hsav⟩

/-- `delete_skiplist` of a present key is the map's erasure. -/
theorem Represents.deleteSkiplist (hr : Represents h.now T M len) (hk : key.length = len)
    {v : Bytes} (hv : M.lookup key = some v) :
    ∃ h' T', Tadpole.deleteSkiplist h key = some (0,h') ∧
      Represents h'.now T' (M.erase key) len ∧ h'.now.length = int32 (h.now.length-1) ∧
      KeepsForeign h h' T T' ∧ SavedThrough h h' [T,T'] := by
  obtain ⟨h',T₁,t,T₂,-,-,-,hd,hr',hlen,hkeep,hsav⟩ := hr.deleteSkiplist_tower hk hv
  exact ⟨h',T₁++T₂,hd,hr',hlen,hkeep,hsav⟩

theorem Represents.insertSkiplist_overwrite_tower (hr : Represents h.now T M len)
    (hk : key.length = len) {v w : Bytes} (hv : M.lookup key = some v) {val : SdsPtr}
    (hw : h.now.strs val = some w) (hval : val ∉ allPtrs T) (hlt : val < h.now.nextStr)
    (target : Level) (malloc : Bool) :
    ∃ h' T₁ t T₂, T = T₁++t::T₂ ∧ t.key = key ∧ (∀ s ∈ T₁, s.key ≠ key) ∧
      Tadpole.insertSkiplist h key val target malloc = some (0,h') ∧
      Represents h'.now (T₁++{t with valPtr := val, val := some w}::T₂) (M.insert key w) len ∧
      h'.now.length = int32 (h.now.length+1) ∧
      ∃ s ∈ h'.past, ∃ D, Walkable s D ∧ ∃ t ∈ D, t.val = none := by
  obtain ⟨T₁,t,T₂,rfl,htk,htv,hs,-,hins,-⟩ := hr.split_present hk hv
  obtain ⟨h',hi,hshape,hlen,-,-,s,hmem,hwalk⟩ := insertSkiplist_present target malloc hr.shape hs
    ((slKeyCompare_eq (by rw [htk])).mpr htk) htv hval hlt
  rw [hw] at hshape
  refine ⟨h',T₁,t,T₂,rfl,htk,hs.front_ne,hi,⟨hshape,?_,keyLen_insert hr.keyLen hk⟩,hlen,s,hmem,_,
    hwalk,?_⟩
  · exact hins _ w (by simp [Tower.content,htk])
  · exact ⟨_,List.mem_append_right _ List.mem_cons_self,rfl⟩

/-- `insert_skiplist` of a present key overwrites its value with the caller's string and counts a
node that is not there. -/
theorem Represents.insertSkiplist_overwrite (hr : Represents h.now T M len)
    (hk : key.length = len) {v w : Bytes} (hv : M.lookup key = some v) {val : SdsPtr}
    (hw : h.now.strs val = some w) (hval : val ∉ allPtrs T) (hlt : val < h.now.nextStr)
    (target : Level) (malloc : Bool) :
    ∃ h' T', Tadpole.insertSkiplist h key val target malloc = some (0,h') ∧
      Represents h'.now T' (M.insert key w) len ∧ h'.now.length = int32 (h.now.length+1) ∧
      ∃ s ∈ h'.past, ∃ D, Walkable s D ∧ ∃ t ∈ D, t.val = none := by
  obtain ⟨h',T₁,t,T₂,-,-,-,hi,hr',hlen,hdead⟩ :=
    hr.insertSkiplist_overwrite_tower hk hv hw hval hlt target malloc
  exact ⟨h',_,hi,hr',hlen,hdead⟩

theorem Represents.replaceSkiplist_absent (hr : Represents h.now T M len) (hk : key.length = len)
    (hn : M.lookup key = none) (w : Bytes) :
    Tadpole.replaceSkiplist h key w = some (-1,h) := by
  obtain ⟨T₁,T₂,rfl,hs,hne,-⟩ := hr.split_absent hk hn
  exact Tadpole.replaceSkiplist_absent hr.shape hs fun t ht => (hne t ht).2

theorem Represents.deleteSkiplist_absent (hr : Represents h.now T M len) (hk : key.length = len)
    (hn : M.lookup key = none) : Tadpole.deleteSkiplist h key = some (-1,h) := by
  obtain ⟨T₁,T₂,rfl,hs,hne,-⟩ := hr.split_absent hk hn
  exact Tadpole.deleteSkiplist_absent hr.shape hs
    fun t ht => (hne t (List.mem_of_mem_head? ht)).1

end

section
variable {m : Mem} {T : List Tower} {M : KeyMap} {len : ℕ} {key : Bytes}

theorem Represents.searchSkiplist_tower (hr : Represents m T M len) (hk : key.length = len)
    {v : Bytes} (hv : M.lookup key = some v) :
    ∃ T₁ t T₂, T = T₁++t::T₂ ∧ t.key = key ∧ (∀ s ∈ T₁, s.key ≠ key) ∧ t.val = some v ∧
      searchSkiplist m key = some (some t.valPtr) := by
  obtain ⟨T₁,t,T₂,rfl,htk,htv,hs,hne,-,-⟩ := hr.split_present hk hv
  exact ⟨T₁,t,T₂,rfl,htk,hs.front_ne,htv,
    Tadpole.searchSkiplist_present hr.shape hs ((slKeyCompare_eq (by rw [htk])).mpr htk.symm) hne⟩

/-- `search_skiplist` is the map's lookup. -/
theorem Represents.searchSkiplist_present (hr : Represents m T M len) (hk : key.length = len)
    {v : Bytes} (hv : M.lookup key = some v) :
    ∃ p, searchSkiplist m key = some (some p) ∧ m.strs p = some v := by
  obtain ⟨T₁,t,T₂,rfl,-,-,htv,hsearch⟩ := hr.searchSkiplist_tower hk hv
  exact ⟨t.valPtr,hsearch,(hr.shape.holds t (by simp)).val.trans htv⟩

theorem Represents.searchSkiplist_absent (hr : Represents m T M len) (hk : key.length = len)
    (hn : M.lookup key = none) : searchSkiplist m key = some none := by
  obtain ⟨T₁,T₂,rfl,hs,hne,-⟩ := hr.split_absent hk hn
  exact Tadpole.searchSkiplist_absent hr.shape hs fun t ht => (hne t ht).2

theorem Represents.first (hr : Represents m T M len) :
    (m.link 0 m.head).bind (fun q => q.bind m.keyOf) = M.least := by
  have hb := hr.shape.bottom.next_eq
  have hc := hr.content
  cases T with
  | nil =>
    have he : M.entries = [] := by simpa using hc.symm
    simp [hb,OrderedMap.least,he]
  | cons t T =>
    obtain ⟨e,l,he⟩ : ∃ e l, M.entries = e::l := by
      cases hm : M.entries with
      | nil => simp [hm] at hc
      | cons e l => exact ⟨e,l,rfl⟩
    have hk := (hr.shape.holds t (by simp)).keyOf
    rw [he,List.map_cons,List.map_cons,List.cons.injEq] at hc
    have hte : t.key = e.1 := (Prod.mk.inj hc.1).1
    simp [hb,OrderedMap.least,he,hk,hte]

theorem Represents.findMaxSkiplist (hr : Represents m T M len) (hne : M.entries ≠ []) :
    Tadpole.findMaxSkiplist m = M.greatest := by
  have hc := hr.content
  obtain ⟨l,e,he⟩ := (List.eq_nil_or_concat' M.entries).resolve_left hne
  rw [he,List.map_append] at hc
  obtain ⟨T',S,rfl,h₁,h₂⟩ := List.map_eq_append_iff.mp hc
  obtain ⟨t,rfl⟩ : ∃ t, S = [t] := by
    have := congrArg List.length h₂
    simpa [List.length_eq_one_iff] using this
  have hte : t.key = e.1 := by
    simp only [List.map_cons,List.map_nil,List.cons.injEq,and_true] at h₂
    exact (Prod.mk.inj h₂).1
  rw [findMaxSkiplist_last hr.shape,hte,OrderedMap.greatest,he]
  simp

end

end Tadpole
