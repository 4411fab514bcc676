import Tadpole.DictInvariant

/-! What expansion, insertion, replacement and deletion make of the entries, also while the tables are
being rehashed. -/
namespace Tadpole

variable {K V : Type}

theorem nextPowerLoop_eq {size : ℕ} (fuel m : ℕ) (h : size ≤ 2^(m+fuel)) :
    ∃ k, nextPowerLoop size fuel (2^m) = 2^k ∧ m ≤ k ∧ size ≤ 2^k ∧
      ∀ n ≥ m, size ≤ 2^n → k ≤ n := by
  induction fuel generalizing m with
  | zero => exact ⟨m,rfl,le_rfl,h,fun n hn _ => hn⟩
  | succ fuel ih =>
    by_cases hm : size ≤ 2^m
    · exact ⟨m,by rw [nextPowerLoop,if_pos hm],le_rfl,hm,fun n hn _ => hn⟩
    · obtain ⟨k,hk,hle,hsize,hmin⟩ := ih (m+1) (by rwa [Nat.add_right_comm])
      refine ⟨k,by rw [nextPowerLoop,if_neg hm,← pow_succ,hk],by omega,hsize,fun n hn hs => hmin n ?_ hs⟩
      rcases Nat.lt_or_eq_of_le hn with hlt | rfl
      · exact hlt
      · exact absurd hs hm

theorem dictNextPower_eq {size : ℕ} (h : size < LONG_MAX) :
    ∃ k, dictNextPower size = 2^(k+2) ∧ size ≤ 2^(k+2) ∧ ∀ n, size ≤ 2^(n+2) → k ≤ n := by
  have hfuel : size ≤ 2^(2+size) :=
    Nat.lt_two_pow_self.le.trans (Nat.pow_le_pow_right (by decide) (by omega))
  obtain ⟨k,hk,hle,hsize,hmin⟩ := nextPowerLoop_eq size 2 hfuel
  obtain ⟨k,rfl⟩ := Nat.exists_eq_add_of_le' hle
  refine ⟨k,by rw [dictNextPower,if_neg (Nat.not_le.mpr h)]; exact hk,hsize,fun n hn => ?_⟩
  have := hmin (n+2) (by omega) hn
  omega

section
variable {type : DictType K} {P : K → Prop} {d : Dict K V}

theorem newTable_sound {size k : ℕ} (hk : size = 2^(k+2)) (hle : k+2 ≤ 31) :
    (⟨List.replicate size [],size,size-1,0⟩ : Dictht K V).Sound type where
  shape := Or.inr ⟨k,hk,by rw [hk],hle⟩
  length := List.length_replicate
  used := by simp
  placed := Buckets.placed_replicate _ _

theorem Dict.Sound.expand (h : d.Sound type P) (size : ℕ) (hr : d.rehashidx = none) (hu : d.ht0.used ≤ size)
    (hle : size ≤ 2147483648) :
    ∃ k, size ≤ 2^(k+2) ∧ (∀ n, size ≤ 2^(n+2) → k ≤ n) ∧ (dictExpand d size).2 = .DICT_OK ∧
      (dictExpand d size).1.Sound type P ∧ (dictExpand d size).1.entries = d.entries ∧
      (dictExpand d size).1.iterators = d.iterators ∧
      if d.ht0.size = 0 then
        (dictExpand d size).1.rehashidx = none ∧ (dictExpand d size).1.ht0.size = 2^(k+2)
      else (dictExpand d size).1.rehashidx = some 0 ∧ (dictExpand d size).1.ht0 = d.ht0 ∧
        (dictExpand d size).1.ht1.size = 2^(k+2) := by
  obtain ⟨k,hk,hsize,hmin⟩ := dictNextPower_eq (show size < LONG_MAX by unfold LONG_MAX; omega)
  have hk31 : k+2 ≤ 31 := by
    have := hmin 29 (by simpa using hle)
    omega
  have hne : ¬ (d.isRehashing = true ∨ d.ht0.used > size) := by simp [isRehashing,hr,hu]
  have hnew : (⟨List.replicate (dictNextPower size) [],dictNextPower size,dictNextPower size-1,0⟩ :
      Dictht K V).Sound type := newTable_sound hk hk31
  have htable : d.ht0.table = [] ↔ d.ht0.size = 0 := by rw [← h.ht0.length,List.length_eq_zero_iff]
  have h₁ : d.ht1.table.flatten = [] := by rw [h.idle hr]; rfl
  refine ⟨k,hsize,hmin,?_⟩
  by_cases hs : d.ht0.size = 0
  · have he : dictExpand d size = ({d with ht0 :=
        ⟨List.replicate (dictNextPower size) [],dictNextPower size,dictNextPower size-1,0⟩},.DICT_OK) := by
      rw [dictExpand,if_neg hne,if_pos (htable.mpr hs)]
    have hentries : (dictExpand d size).1.entries = d.entries := by
      rw [he,h.entries_nil hs]
      simp [entries,h₁]
    rw [if_pos hs]
    refine ⟨by rw [he],?_,hentries,by rw [he],by rw [he,hr],by rw [he]; exact hk⟩
    rw [he] at hentries ⊢
    exact {
      ht0 := hnew
      ht1 := h.ht1
      keys := fun e hm => h.keys e (hentries ▸ hm)
      nodup := hentries ▸ h.nodup
      idle := h.idle
      busy := by simp [hr] }
  · have he : dictExpand d size = ({d with
        ht1 := ⟨List.replicate (dictNextPower size) [],dictNextPower size,dictNextPower size-1,0⟩
        rehashidx := some 0},.DICT_OK) := by
      rw [dictExpand,if_neg hne,if_neg (fun hn => hs (htable.mp hn))]
    have hentries : (dictExpand d size).1.entries = d.entries := by
      rw [he]
      simp [entries,h₁]
    rw [if_neg hs]
    refine ⟨by rw [he],?_,hentries,by rw [he],by rw [he],by rw [he],by rw [he]; exact hk⟩
    rw [he] at hentries ⊢
    exact {
      ht0 := h.ht0
      ht1 := hnew
      keys := fun e hm => h.keys e (hentries ▸ hm)
      nodup := hentries ▸ h.nodup
      idle := by simp
      busy := by
        intro i hi
        obtain rfl : 0 = i := by simpa using hi
        exact ⟨Nat.pos_of_ne_zero hs,hk ▸ Nat.two_pow_pos _,by simp⟩ }

/-- What `_dictExpandIfNeeded` can do in front of an insertion. -/
inductive DictGrowth (canResize : Bool) : Dict K V → Dict K V → Prop
  | rehashing {d : Dict K V} (rehashing : d.isRehashing) : DictGrowth canResize d d
  | first {d d' : Dict K V} (size0 : d.ht0.size = 0) (idle : d'.rehashidx = none) (size : d'.ht0.size = 4) :
      DictGrowth canResize d d'
  | room {d : Dict K V} (idle : d.rehashidx = none) (size0 : 0 < d.ht0.size)
      (room : canResize → d.ht0.used < d.ht0.size) : DictGrowth canResize d d
  | double {d d' : Dict K V} (idle : d.rehashidx = none) (full : d.ht0.size ≤ d.ht0.used)
      (behind : d'.rehashidx = some 0) (ht0 : d'.ht0 = d.ht0) (size1 : d.ht0.used*2 ≤ d'.ht1.size) :
      DictGrowth canResize d d'

theorem DictGrowth.size_pos {canResize : Bool} {d d' : Dict K V} (h : DictGrowth canResize d d')
    (hs : d.Sound type P) (hs' : d'.Sound type P) : 0 < d'.ht0.size := by
  cases h with
  | rehashing rehashing =>
    obtain ⟨i,hi⟩ := Dict.isRehashing_iff.mp rehashing
    exact (hs.busy i hi).1
  | first size0 idle size => omega
  | room idle size0 room => exact size0
  | double idle full behind ht0 size1 => exact (hs'.busy 0 behind).1

theorem Dict.Sound.expandIfNeeded (h : d.Sound type P) (canResize : Bool)
    (hu : d.rehashidx = none → d.ht0.used ≤ 1073741824) :
    ∃ d', dictExpandIfNeeded canResize d = (d',.DICT_OK) ∧ d'.Sound type P ∧ d'.entries = d.entries ∧
      d'.iterators = d.iterators ∧ DictGrowth canResize d d' := by
  by_cases hr : d.isRehashing
  · exact ⟨d,by rw [dictExpandIfNeeded,if_pos hr],h,rfl,rfl,.rehashing hr⟩
  · have hi : d.rehashidx = none := by simpa [isRehashing] using hr
    have hu' := hu hi
    by_cases hs : d.ht0.size = 0
    · have h0 : d.ht0.used = 0 := by
        have := h.dictSize
        rw [h.entries_nil hs,Dict.dictSize,List.length_nil] at this
        omega
      obtain ⟨k,hk,hmin,hok,hsound,hentries,hit,hcase⟩ :=
        h.expand DICT_HT_INITIAL_SIZE hi (by omega) (by decide)
      rw [if_pos hs] at hcase
      have hk0 : k = 0 := Nat.le_zero.mp (hmin 0 (by decide))
      refine ⟨_,?_,hsound,hentries,hit,.first hs hcase.1 (by rw [hcase.2,hk0]; rfl)⟩
      rw [dictExpandIfNeeded,if_neg hr,if_pos hs,← hok]
    · by_cases hfull : d.ht0.used ≥ d.ht0.size ∧ (canResize ∨ d.ht0.used/d.ht0.size > dictForceResizeRatio)
      · obtain ⟨k,hk,-,hok,hsound,hentries,hit,hcase⟩ := h.expand (d.ht0.used*2) hi (by omega) (by omega)
        rw [if_neg hs] at hcase
        refine ⟨_,?_,hsound,hentries,hit,.double hi hfull.1 hcase.1 hcase.2.1 (hcase.2.2 ▸ hk)⟩
        rw [dictExpandIfNeeded,if_neg hr,if_neg hs,if_pos hfull,← hok]
      · refine ⟨d,by rw [dictExpandIfNeeded,if_neg hr,if_neg hs,if_neg hfull],h,rfl,rfl,
          .room hi (Nat.pos_of_ne_zero hs) fun hc => ?_⟩
        by_contra hlt
        exact hfull ⟨Nat.not_lt.mp hlt,Or.inl hc⟩

/-- Up to some slack, the entries find a bucket each: in the table there is, or in the new one once every
bucket of the old one is moved, a call that moves a bucket adding one entry at most. -/
def Dict.Roomy (slack : ℕ) (d : Dict K V) : Prop :=
  match d.rehashidx with
  | none => d.dictSize ≤ d.ht0.size+slack
  | some i => i ≤ d.ht0.size ∧ d.dictSize+d.ht0.size ≤ d.ht1.size+i+slack

theorem Dict.roomy_idle {slack : ℕ} (hi : d.rehashidx = none) : d.Roomy slack ↔ d.dictSize ≤ d.ht0.size+slack := by
  rw [Dict.Roomy,hi]

theorem Dict.roomy_busy {slack i : ℕ} (hi : d.rehashidx = some i) :
    d.Roomy slack ↔ i ≤ d.ht0.size ∧ d.dictSize+d.ht0.size ≤ d.ht1.size+i+slack := by
  rw [Dict.Roomy,hi]

theorem Dict.Roomy.mono {slack slack' : ℕ} (h : d.Roomy slack) (hle : slack ≤ slack') : d.Roomy slack' := by
  cases hi : d.rehashidx with
  | none =>
    rw [roomy_idle hi] at h ⊢
    omega
  | some i =>
    rw [roomy_busy hi] at h ⊢
    omega

theorem Dict.Roomy.of_le {slack : ℕ} {d' : Dict K V} (h : d.Roomy slack) (more : ℕ)
    (hi : d'.rehashidx = d.rehashidx) (h₀ : d'.ht0.size = d.ht0.size) (h₁ : d'.ht1.size = d.ht1.size)
    (hle : d'.dictSize ≤ d.dictSize+more) : d'.Roomy (slack+more) := by
  cases hr : d.rehashidx with
  | none =>
    rw [roomy_idle hr] at h
    rw [roomy_idle (hi.trans hr)]
    omega
  | some i =>
    rw [roomy_busy hr] at h
    rw [roomy_busy (hi.trans hr)]
    omega

/-- A round gains the place of one entry, or ends the rehashing. -/
theorem Dict.Roomy.round {d' : Dict K V} (h : d.Roomy 1) (hs : d.Sound type P) (hs' : d'.Sound type P)
    (hr : RehashRound d d') : d'.Roomy 1 ∧ (d'.isRehashing → d'.Roomy 0) := by
  have hsize : d'.dictSize = d.dictSize := by
    rw [hs'.dictSize,hs.dictSize,(hs.round hr).1.length_eq]
  cases hr with
  | bucket before behind lt le size0 size1 entries iterators =>
    rw [roomy_busy before] at h
    have hroom : d'.Roomy 0 := by
      rw [roomy_busy behind]
      omega
    exact ⟨hroom.mono (Nat.zero_le _),fun _ => hroom⟩
  | finish rehashing used =>
    obtain ⟨i,hi⟩ := isRehashing_iff.mp rehashing
    rw [roomy_busy hi] at h
    refine ⟨(roomy_idle rfl).mpr ?_,fun hc => by simp [isRehashing,finishRehash] at hc⟩
    rw [hsize]
    show d.dictSize ≤ d.ht1.size+1
    omega

theorem Dict.Roomy.step {d' : Dict K V} (h : d.Roomy 1) (hs : d.Sound type P) (hs' : d'.Sound type P)
    (hcase : if d.isRehashing ∧ d.iterators = 0 then RehashRound d d' else d' = d) : d'.Roomy 1 := by
  split_ifs at hcase with hb
  · exact (h.round hs hs' hcase).1
  · exact hcase ▸ h

theorem Dict.Roomy.growth {d' : Dict K V} (hr : d.isRehashing → d.Roomy 0)
    (hs : d.Sound type P) (hs' : d'.Sound type P) (hentries : d'.entries = d.entries)
    (hg : DictGrowth true d d') : d'.Roomy 0 := by
  have hsize : d'.dictSize = d.dictSize := by rw [hs'.dictSize,hs.dictSize,hentries]
  have hidle : d.rehashidx = none → d.dictSize = d.ht0.used := fun hi => by
    rw [Dict.dictSize,hs.idle hi]
    rfl
  cases hg with
  | rehashing rehashing => exact hr rehashing
  | first size0 idle size =>
    rw [roomy_idle idle,hsize,hs.dictSize,hs.entries_nil size0]
    exact Nat.zero_le _
  | room idle size0 room =>
    rw [roomy_idle idle,hidle idle]
    exact (room rfl).le
  | double idle full behind ht0 size1 =>
    rw [roomy_busy behind,ht0,hsize,hidle idle]
    omega

def Dict.Has (d : Dict K V) (key : K) : Prop := ∃ e ∈ d.entries, e.1 = key

def Dict.target (d : Dict K V) : Dictht K V := if d.isRehashing then d.ht1 else d.ht0

theorem Dict.Sound.target (h : d.Sound type P) (hs : 0 < d.ht0.size) :
    d.target.Sound type ∧ 0 < d.target.size := by
  unfold Dict.target
  by_cases hr : d.isRehashing
  · obtain ⟨i,hi⟩ := isRehashing_iff.mp hr
    rw [if_pos hr]
    exact ⟨h.ht1,(h.busy i hi).2.1⟩
  · rw [if_neg hr]
    exact ⟨h.ht0,hs⟩

theorem Dict.Sound.dictKeyIndex (h : d.Sound type P) (canResize : Bool) (hl : type.Lawful P) {key : K}
    (hp : P key) (hu : d.rehashidx = none → d.ht0.used ≤ 1073741824) :
    ∃ d' index, dictKeyIndex type canResize d key = some (d',index) ∧ d'.Sound type P ∧
      d'.entries = d.entries ∧ d'.iterators = d.iterators ∧ DictGrowth canResize d d' ∧
      (d.Has key ∧ index = -1 ∨ ¬ d.Has key ∧ index = type.index d'.target key) := by
  obtain ⟨d',hd',hsound,hentries,hit,hgrow⟩ := h.expandIfNeeded canResize hu
  have hs := hgrow.size_pos h hsound
  obtain ⟨r,hr,hspec⟩ := hsound.find hs hl hp
  rw [hentries] at hspec
  cases r with
  | some e =>
    refine ⟨d',-1,by simp [Tadpole.dictKeyIndex,hd',hr],hsound,hentries,hit,hgrow,Or.inl ⟨⟨e,?_⟩,rfl⟩⟩
    exact (hspec e).mp rfl
  | none =>
    obtain ⟨htarget,hpos⟩ := hsound.target hs
    refine ⟨d',int32 (type.index d'.target key),by simp [Tadpole.dictKeyIndex,hd',hr,Dict.target],hsound,
      hentries,hit,hgrow,Or.inr ⟨?_,?_⟩⟩
    · rintro ⟨e,he⟩
      exact absurd ((hspec e).mpr he) (by simp)
    · exact htarget.int32_index hpos key

theorem Dict.Sound.push (h : d.Sound type P) (hs : 0 < d.ht0.size) {key : K} (hp : P key)
    (hno : ¬ d.Has key) (val : V) :
    ∃ ht', d.target.push (type.index d.target key) (key,val) = some ht' ∧
      ∀ d', d' = (if d.isRehashing then {d with ht1 := ht'} else {d with ht0 := ht'}) →
        d'.Sound type P ∧ d'.entries.Perm ((key,val)::d.entries) ∧ d'.rehashidx = d.rehashidx ∧
        d'.iterators = d.iterators ∧ d'.ht0.size = d.ht0.size ∧ d'.ht1.size = d.ht1.size ∧
        d'.ht0.used+d'.ht1.used = d.ht0.used+d.ht1.used+1 := by
  obtain ⟨htarget,hpos⟩ := h.target hs
  obtain ⟨ht',hpush,hsound,hperm,hsize,hused⟩ := htarget.push hpos key val
  refine ⟨ht',hpush,fun d' hd' => ?_⟩
  have hmain : d'.entries.Perm ((key,val)::d.entries) → d'.ht0.Sound type → d'.ht1.Sound type →
      (d'.rehashidx = none → d'.ht1 = dictReset) → (∀ i ∈ d'.rehashidx, 0 < d'.ht0.size ∧
        0 < d'.ht1.size ∧ ∀ j < i, d'.ht0.table[j]? = some []) → d'.Sound type P := by
    intro hentries h₀ h₁ hidle hbusy
    refine ⟨h₀,h₁,fun e he => ?_,?_,hidle,hbusy⟩
    · rcases List.mem_cons.mp (hentries.mem_iff.mp he) with rfl | he
      · exact hp
      · exact h.keys e he
    · refine (hentries.map Prod.fst).nodup_iff.mpr (List.nodup_cons.mpr ⟨fun hm => hno ?_,h.nodup⟩)
      obtain ⟨e,he,hek⟩ := List.mem_map.mp hm
      exact ⟨e,he,hek⟩
  unfold Dict.target at hperm hsize hused
  by_cases hr : d.isRehashing
  · rw [if_pos hr] at hd' hperm hsize hused
    subst hd'
    have hentries : ({d with ht1 := ht'} : Dict K V).entries.Perm ((key,val)::d.entries) :=
      (hperm.append_left _).trans List.perm_middle
    refine ⟨hmain hentries h.ht0 hsound (fun hi => ?_) (fun i hi => ?_),hentries,rfl,rfl,rfl,hsize,?_⟩
    · exact absurd hr (by rw [isRehashing,hi]; simp)
    · obtain ⟨h₀,h₁,hdone⟩ := h.busy i hi
      exact ⟨h₀,hsize ▸ h₁,hdone⟩
    · rw [hused]
      exact (Nat.add_assoc _ _ _).symm
  · have hi : d.rehashidx = none := by simpa [isRehashing] using hr
    rw [if_neg hr] at hd' hperm hsize hused
    subst hd'
    have hentries : ({d with ht0 := ht'} : Dict K V).entries.Perm ((key,val)::d.entries) :=
      hperm.append_right _
    refine ⟨hmain hentries hsound h.ht1 (fun _ => h.idle hi) (fun i hi' => ?_),hentries,rfl,rfl,hsize,rfl,?_⟩
    · rw [hi] at hi'
      cases hi'
    · rw [hused]
      exact Nat.add_right_comm _ _ _

/-- Insertion: the entry is new exactly if no entry had the key. -/
theorem Dict.Sound.dictAddRaw (h : d.Sound type P) (canResize : Bool) (hl : type.Lawful P) {key : K}
    (hp : P key) (val : V) (hu : d.dictSize ≤ 1073741824) :
    ∃ d' added, dictAddRaw type canResize d key val = some (d',added) ∧ d'.Sound type P ∧
      d'.iterators = d.iterators ∧ (d.Has key ∧ added = false ∧ d'.entries.Perm d.entries ∨
        ¬ d.Has key ∧ added = true ∧ d'.entries.Perm ((key,val)::d.entries)) ∧
      (canResize → d.iterators = 0 → d.Roomy 1 → d'.Roomy 1) := by
  obtain ⟨d₁,hd₁,hsound₁,hcase⟩ := h.stepIfRehashing
  have hroom₁ : d.iterators = 0 → d.Roomy 1 → d₁.Roomy 1 ∧ (d₁.isRehashing → d₁.Roomy 0) := by
    intro hit hroom
    by_cases hr : d.isRehashing
    · rw [if_pos ⟨hr,hit⟩] at hcase
      exact hroom.round h hsound₁ hcase
    · rw [if_neg (fun hc => hr hc.1)] at hcase
      subst hcase
      exact ⟨hroom,fun hc => absurd hc hr⟩
  obtain ⟨hperm₁,hit₁⟩ : d₁.entries.Perm d.entries ∧ d₁.iterators = d.iterators := by
    split_ifs at hcase with hb
    · exact ⟨(h.round hcase).1,(h.round hcase).2.1⟩
    · exact ⟨hcase ▸ List.Perm.refl _,by rw [hcase]⟩
  have hsize₁ : d₁.dictSize = d.dictSize := by rw [hsound₁.dictSize,h.dictSize,hperm₁.length_eq]
  have hhas : d₁.Has key ↔ d.Has key := by simp only [Has,hperm₁.mem_iff]
  obtain ⟨d₂,index,hd₂,hsound₂,hentries₂,hit₂,hgrow,hindex⟩ :=
    hsound₁.dictKeyIndex canResize hl hp (fun _ => by rw [Dict.dictSize] at hsize₁; omega)
  have hhas₂ : d₂.Has key ↔ d₁.Has key := by simp only [Has,hentries₂]
  have hroom₂ : canResize → d.iterators = 0 → d.Roomy 1 → d₂.Roomy 0 := fun hc hit hroom =>
    Dict.Roomy.growth (hroom₁ hit hroom).2 hsound₁ hsound₂ hentries₂ (hc ▸ hgrow)
  rcases hindex with ⟨hin,rfl⟩ | ⟨hno,rfl⟩
  · refine ⟨d₂,false,by simp [Tadpole.dictAddRaw,hd₁,hd₂],hsound₂,hit₂.trans hit₁,
      Or.inl ⟨hhas.mp hin,rfl,hentries₂ ▸ hperm₁⟩,fun hc hit hroom => (hroom₂ hc hit hroom).mono (Nat.zero_le _)⟩
  · obtain ⟨ht',hpush,hspec⟩ := hsound₂.push (hgrow.size_pos hsound₁ hsound₂) hp (fun hh => hno (hhas₂.mp hh)) val
    obtain ⟨hsound,hperm,hidx,hit,hsize₀,hsize₁',hused⟩ := hspec _ rfl
    refine ⟨_,true,?_,hsound,hit.trans (hit₂.trans hit₁),Or.inr ⟨fun hh => hno (hhas.mpr hh),rfl,?_⟩,
      fun hc hit' hroom => ?_⟩
    · have hne : ¬ ((type.index d₂.target key : ℤ) = -1) := by omega
      have hneg : ¬ ((type.index d₂.target key : ℤ) < 0) := by omega
      unfold Dict.target at hpush hne hneg
      by_cases hr : d₂.isRehashing
      · simp only [if_pos hr] at hpush hne hneg
        simp [Tadpole.dictAddRaw,hd₁,hd₂,Dict.target,hr,hneg,hne,hpush]
      · simp only [if_neg hr] at hpush hne hneg
        simp [Tadpole.dictAddRaw,hd₁,hd₂,Dict.target,hr,hneg,hne,hpush]
    · exact hperm.trans ((hentries₂ ▸ hperm₁).cons _)
    · exact (hroom₂ hc hit' hroom).of_le 1 hidx hsize₀ hsize₁' hused.le

theorem Dict.Sound.of_perm (h : d.Sound type P) {e : K × V} {l c : List (K × V)} {d' : Dict K V}
    (hperm : d.entries.Perm (e::l)) (hperm' : d'.entries.Perm (c++l)) (hc : c = [] ∨ ∃ v, c = [(e.1,v)])
    (h₀ : d'.ht0.Sound type) (h₁ : d'.ht1.Sound type) (hidle : d'.rehashidx = none → d'.ht1 = dictReset)
    (hbusy : ∀ i ∈ d'.rehashidx, 0 < d'.ht0.size ∧ 0 < d'.ht1.size ∧ ∀ j < i, d'.ht0.table[j]? = some []) :
    d'.Sound type P := by
  have hnodup : (e.1::l.map Prod.fst).Nodup := (hperm.map Prod.fst).nodup_iff.mp h.nodup
  have hkeys : ∀ a ∈ e::l, P a.1 := fun a ha => h.keys a (hperm.mem_iff.mpr ha)
  refine ⟨h₀,h₁,fun a ha => ?_,(hperm'.map Prod.fst).nodup_iff.mpr ?_,hidle,hbusy⟩
  · rcases List.mem_append.mp (hperm'.mem_iff.mp ha) with ha | ha
    · rcases hc with rfl | ⟨v,rfl⟩
      · cases ha
      · obtain rfl := List.mem_singleton.mp ha
        exact hkeys e (by simp)
    · exact hkeys a (List.mem_cons_of_mem _ ha)
  · rcases hc with rfl | ⟨v,rfl⟩
    · exact (List.nodup_cons.mp hnodup).2
    · exact hnodup

theorem Dictht.change_empty {ht ht' : Dictht K V} {key : K} {f : K × V → List (K × V)} {i : ℕ}
    (h : ht.change type key f = some ht') (hi : ht.table[i]? = some []) : ht'.table[i]? = some [] := by
  obtain ⟨c,hc,rfl⟩ : ∃ c, ht.table[type.index ht key]? = some c ∧
      {ht with table := ht.table.set (type.index ht key) (changeFirst type key f c)} = ht' := by
    simpa [Dictht.change,Option.bind_eq_some_iff] using h
  by_cases hik : type.index ht key = i
  · subst hik
    obtain rfl := Option.some.inj (hc.symm.trans hi)
    obtain ⟨hlt,-⟩ := List.getElem?_eq_some_iff.mp hi
    simp [changeFirst,List.getElem?_set_self hlt]
  · simpa [List.getElem?_set_ne hik] using hi

theorem Dict.Sound.change (h : d.Sound type P) (hs : 0 < d.ht0.size) (hl : type.Lawful P) {key : K}
    (hp : P key) {e : K × V} (he : e ∈ d.entries) (hek : e.1 = key) (f : K × V → List (K × V))
    (hf : f e = [] ∨ ∃ v, f e = [(key,v)]) :
    ∃ ht' l, d.entries.Perm (e::l) ∧
      ((d.ht0.find type key = some (some e) ∧ d.ht0.change type key f = some ht' ∧ ht'.used = d.ht0.used ∧
          ∀ n, n+1 = d.ht0.used+(f e).length → ({d with ht0 := {ht' with used := n}} : Dict K V).Sound type P ∧
            ({d with ht0 := {ht' with used := n}} : Dict K V).entries.Perm (f e++l) ∧ ht'.size = d.ht0.size) ∨
        d.ht0.find type key = some none ∧ d.isRehashing ∧ d.ht1.find type key = some (some e) ∧
          d.ht1.change type key f = some ht' ∧ ht'.used = d.ht1.used ∧
          ∀ n, n+1 = d.ht1.used+(f e).length → ({d with ht1 := {ht' with used := n}} : Dict K V).Sound type P ∧
            ({d with ht1 := {ht' with used := n}} : Dict K V).entries.Perm (f e++l) ∧ ht'.size = d.ht1.size) := by
  subst hek
  have hfk : ∀ a ∈ f e, a.1 = e.1 := by
    rcases hf with hf | ⟨v,hf⟩ <;> simp [hf]
  obtain ⟨r,hr,hspec⟩ := h.find hs hl hp
  obtain rfl : r = some e := (hspec e).mpr ⟨he,rfl⟩
  obtain ⟨r₀,hr₀,-⟩ := h.ht0.find hs hl (fun e he => h.keys e (List.mem_append_left _ he)) hp
  cases r₀ with
  | some e₀ =>
    obtain rfl : e₀ = e := by simpa [Dict.find,hr₀] using hr
    obtain ⟨ht',l,hchange,hperm,hperm',hsize,hused,hsound⟩ := h.ht0.change hs hr₀ f hfk
    refine ⟨ht',l++d.ht1.table.flatten,hperm.append_right _,Or.inl ⟨hr₀,hchange,hused,fun n hn => ?_⟩⟩
    have hperm'' : ({d with ht0 := {ht' with used := n}} : Dict K V).entries.Perm
        (f e₀++(l++d.ht1.table.flatten)) := by
      rw [← List.append_assoc]
      exact hperm'.append_right _
    refine ⟨h.of_perm (hperm.append_right _) hperm'' hf (hsound n ?_) h.ht1 h.idle fun i hi => ?_,hperm'',hsize⟩
    · have := h.ht0.used
      rw [hperm.length_eq,List.length_cons] at this
      rw [List.length_append]
      omega
    · obtain ⟨h₀,h₁,hdone⟩ := h.busy i hi
      have hempty : ∀ j < i, ht'.table[j]? = some [] := fun j hj => Dictht.change_empty hchange (hdone j hj)
      exact ⟨hsize ▸ h₀,h₁,hempty⟩
  | none =>
    by_cases hrh : d.isRehashing
    · have hr₁ : d.ht1.find type e.1 = some (some e) := by simpa [Dict.find,hr₀,hrh] using hr
      obtain ⟨i,hi⟩ := isRehashing_iff.mp hrh
      obtain ⟨ht',l,hchange,hperm,hperm',hsize,hused,hsound⟩ := h.ht1.change (h.busy i hi).2.1 hr₁ f hfk
      have hfront : d.entries.Perm (e::(d.ht0.table.flatten++l)) :=
        (hperm.append_left _).trans List.perm_middle
      refine ⟨ht',d.ht0.table.flatten++l,hfront,Or.inr ⟨hr₀,hrh,hr₁,hchange,hused,fun n hn => ?_⟩⟩
      have hperm'' : ({d with ht1 := {ht' with used := n}} : Dict K V).entries.Perm
          (f e++(d.ht0.table.flatten++l)) := by
        refine (hperm'.append_left _).trans ?_
        rw [← List.append_assoc,← List.append_assoc]
        exact List.perm_append_comm.append_right _
      refine ⟨h.of_perm hfront hperm'' hf h.ht0 (hsound n ?_) (fun hi' => ?_) fun j hj => ?_,hperm'',hsize⟩
      · have := h.ht1.used
        rw [hperm.length_eq,List.length_cons] at this
        rw [List.length_append]
        omega
      · exact absurd (hi.symm.trans hi') (by simp)
      · obtain ⟨h₀,h₁,hdone⟩ := h.busy j hj
        exact ⟨h₀,hsize ▸ h₁,hdone⟩
    · simp [Dict.find,hr₀,hrh] at hr

/-- Deletion: the entry of the key, if there is one, is gone. -/
theorem Dict.Sound.dictDelete (h : d.Sound type P) (hl : type.Lawful P) {key : K} (hp : P key) :
    ∃ d' status, dictDelete type d key = some (d',status) ∧ d'.Sound type P ∧ d'.iterators = d.iterators ∧
      (¬ d.Has key ∧ status = .DICT_ERR ∧ d'.entries.Perm d.entries ∨
        status = .DICT_OK ∧ ∃ val, d.entries.Perm ((key,val)::d'.entries)) ∧ (d.Roomy 1 → d'.Roomy 1) := by
  by_cases hs : d.ht0.size = 0
  · refine ⟨d,.DICT_ERR,by simp [Tadpole.dictDelete,dictGenericDelete,hs],h,rfl,
      Or.inl ⟨?_,rfl,List.Perm.refl _⟩,id⟩
    simp [Has,h.entries_nil hs]
  · obtain ⟨d₁,hd₁,hsound₁,hperm₁,hit₁,hs₁,hcase⟩ := h.step_keeps (Nat.pos_of_ne_zero hs)
    have hroom₁ : d.Roomy 1 → d₁.Roomy 1 := fun hroom => hroom.step h hsound₁ hcase
    obtain ⟨r,hr,hspec⟩ := hsound₁.find hs₁ hl hp
    cases r with
    | some e =>
      obtain ⟨hmem,rfl⟩ := (hspec e).mp rfl
      obtain ⟨ht',l,hperm,hwhere⟩ := hsound₁.change hs₁ hl hp hmem rfl (fun _ => []) (Or.inl rfl)
      rcases hwhere with ⟨hf₀,hchange,hused,hn⟩ | ⟨hf₀,hrh,hf₁,hchange,hused,hn⟩
      · have hpos : 0 < d₁.ht0.used := by
          obtain ⟨c,hc,hfind⟩ := Dictht.find_eq_some hf₀
          rw [hsound₁.ht0.used]
          exact List.length_pos_of_mem (List.mem_flatten.mpr
            ⟨c,List.mem_of_getElem? hc,List.mem_of_find?_eq_some hfind⟩)
        obtain ⟨hsound,hentries,hsize⟩ := hn (ht'.used-1) (by simp only [List.length_nil]; omega)
        refine ⟨_,.DICT_OK,by simp [Tadpole.dictDelete,dictGenericDelete,hs,hd₁,hf₀,hchange],hsound,hit₁,
          Or.inr ⟨rfl,e.2,hperm₁.symm.trans (hperm.trans (hentries.symm.cons _))⟩,fun hroom => ?_⟩
        exact (hroom₁ hroom).of_le 0 rfl hsize rfl (by simp only [Dict.dictSize]; omega)
      · have hpos : 0 < d₁.ht1.used := by
          obtain ⟨c,hc,hfind⟩ := Dictht.find_eq_some hf₁
          rw [hsound₁.ht1.used]
          exact List.length_pos_of_mem (List.mem_flatten.mpr
            ⟨c,List.mem_of_getElem? hc,List.mem_of_find?_eq_some hfind⟩)
        obtain ⟨hsound,hentries,hsize⟩ := hn (ht'.used-1) (by simp only [List.length_nil]; omega)
        refine ⟨_,.DICT_OK,by simp [Tadpole.dictDelete,dictGenericDelete,hs,hd₁,hf₀,hrh,hf₁,hchange],hsound,hit₁,
          Or.inr ⟨rfl,e.2,hperm₁.symm.trans (hperm.trans (hentries.symm.cons _))⟩,fun hroom => ?_⟩
        exact (hroom₁ hroom).of_le 0 rfl rfl hsize (by simp only [Dict.dictSize]; omega)
    | none =>
      have hno : ¬ d.Has key := by
        rintro ⟨e,he,hek⟩
        exact absurd ((hspec e).mpr ⟨hperm₁.mem_iff.mpr he,hek⟩) (by simp)
      refine ⟨d₁,.DICT_ERR,?_,hsound₁,hit₁,Or.inl ⟨hno,rfl,hperm₁⟩,hroom₁⟩
      obtain ⟨r₀,hr₀,-⟩ := hsound₁.ht0.find hs₁ hl (fun e he => hsound₁.keys e (List.mem_append_left _ he)) hp
      cases r₀ with
      | some e₀ => simp [Dict.find,hr₀] at hr
      | none =>
        by_cases hrh : d₁.isRehashing
        · have hr₁ : d₁.ht1.find type key = some none := by simpa [Dict.find,hr₀,hrh] using hr
          simp [Tadpole.dictDelete,dictGenericDelete,hs,hd₁,hr₀,hrh,hr₁]
        · simp [Tadpole.dictDelete,dictGenericDelete,hs,hd₁,hr₀,hrh]

/-- Replacement: an entry that is there gets the new value, wherever the rehashing has brought it. -/
theorem Dict.Sound.dictReplace (h : d.Sound type P) (canResize : Bool) (hl : type.Lawful P) {key : K}
    (hp : P key) (val : V) (hu : d.dictSize ≤ 1073741824) :
    ∃ d' added, dictReplace type canResize d key val = some (d',added) ∧ d'.Sound type P ∧
      d'.iterators = d.iterators ∧ (¬ d.Has key ∧ added = true ∧ d'.entries.Perm ((key,val)::d.entries) ∨
        added = false ∧ ∃ old l, d.entries.Perm ((key,old)::l) ∧ d'.entries.Perm ((key,val)::l)) ∧
      (canResize → d.iterators = 0 → d.Roomy 1 → d'.Roomy 1) := by
  obtain ⟨d₁,added,hd₁,hsound₁,hit₁,hcase,hroom₁⟩ := h.dictAddRaw canResize hl hp val hu
  rcases hcase with ⟨⟨e,he,rfl⟩,rfl,hperm₁⟩ | ⟨hno,rfl,hperm₁⟩
  · obtain ⟨d₂,r,hd₂,hsound₂,hperm₂,hit₂,hspec,hstep⟩ := hsound₁.dictFind hl hp
    have he₁ : e ∈ d₁.entries := hperm₁.mem_iff.mpr he
    obtain rfl : r = some e := (hspec e).mpr ⟨he₁,rfl⟩
    have hs₂ : 0 < d₂.ht0.size := by
      rcases Nat.eq_zero_or_pos d₂.ht0.size with hz | hpos
      · have := hperm₂.mem_iff.mpr he₁
        rw [hsound₂.entries_nil hz] at this
        cases this
      · exact hpos
    have hperm := hperm₂.trans hperm₁
    obtain ⟨ht',l,hl',hwhere⟩ := hsound₂.change hs₂ hl hp (hperm₂.mem_iff.mpr he₁) rfl
      (fun a => [(a.1,val)]) (Or.inr ⟨val,rfl⟩)
    have hroom₂ : canResize → d.iterators = 0 → d.Roomy 1 → d₂.Roomy 1 := fun hc hit hroom =>
      (hroom₁ hc hit hroom).step hsound₁ hsound₂ hstep
    rcases hwhere with ⟨hf₀,hchange,hused,hn⟩ | ⟨hf₀,hrh,hf₁,hchange,hused,hn⟩
    · obtain ⟨hsound,hentries,hsize⟩ := hn ht'.used (by simp [hused])
      refine ⟨_,false,by simp [Tadpole.dictReplace,dictAdd,hd₁,hd₂,hf₀,hchange],hsound,hit₂.trans hit₁,
        Or.inr ⟨rfl,e.2,l,hperm.symm.trans hl',hentries⟩,fun hc hit hroom => ?_⟩
      exact (hroom₂ hc hit hroom).of_le 0 rfl hsize rfl (by simp only [Dict.dictSize]; omega)
    · obtain ⟨hsound,hentries,hsize⟩ := hn ht'.used (by simp [hused])
      refine ⟨_,false,by simp [Tadpole.dictReplace,dictAdd,hd₁,hd₂,hf₀,hchange],hsound,hit₂.trans hit₁,
        Or.inr ⟨rfl,e.2,l,hperm.symm.trans hl',hentries⟩,fun hc hit hroom => ?_⟩
      exact (hroom₂ hc hit hroom).of_le 0 rfl rfl hsize (by simp only [Dict.dictSize]; omega)
  · exact ⟨d₁,true,by simp [Tadpole.dictReplace,dictAdd,hd₁],hsound₁,hit₁,Or.inl ⟨hno,rfl,hperm₁⟩,hroom₁⟩

theorem Dict.Sound.rehashidx_le (h : d.Sound type P) {i : ℕ} (hi : d.rehashidx = some i) :
    i ≤ d.ht0.size := by
  by_contra hlt
  have := (h.busy i hi).2.2 d.ht0.size (by omega)
  rw [← h.ht0.length,List.getElem?_eq_none le_rfl] at this
  cases this

/-- `n` rounds at most. As many rounds as there are buckets, and one to see that all is moved, end it. -/
theorem Dict.Sound.dictRehash (h : d.Sound type P) (n : ℕ) :
    ∃ d', dictRehash type d n = some (d',d'.isRehashing) ∧ d'.Sound type P ∧ d'.entries.Perm d.entries ∧
      d'.iterators = d.iterators ∧ (d.Roomy 1 → d'.Roomy 1) ∧
      ((∀ i ∈ d.rehashidx, d.ht0.size+1 ≤ n+i) → d'.isRehashing = false) := by
  induction n generalizing d with
  | zero =>
    refine ⟨d,rfl,h,List.Perm.refl _,rfl,id,fun hle => ?_⟩
    cases hi : d.rehashidx with
    | none => simp [isRehashing,hi]
    | some i =>
      have := h.rehashidx_le hi
      have := hle i hi
      omega
  | succ n ih =>
    cases hi : d.rehashidx with
    | none =>
      have hr : d.isRehashing = false := by simp [isRehashing,hi]
      exact ⟨d,by simp [Tadpole.dictRehash,hi,hr],h,List.Perm.refl _,rfl,id,fun _ => hr⟩
    | some i =>
      have hr : d.isRehashing := isRehashing_iff.mpr ⟨i,hi⟩
      by_cases hu : d.ht0.used = 0
      · obtain ⟨hsound,hentries,-⟩ := h.finish hr hu
        exact ⟨finishRehash d,by simp [Tadpole.dictRehash,hi,hu,isRehashing,finishRehash],hsound,
          hentries ▸ List.Perm.refl _,rfl,fun hroom => (hroom.round h hsound (.finish hr hu)).1,fun _ => rfl⟩
      · obtain ⟨d₁,hd₁,hsound₁,hround⟩ := h.rehashBucket hi hu
        obtain ⟨d₂,hd₂,hsound₂,hperm,hit,hroom,hdone⟩ := ih hsound₁
        obtain ⟨hperm₁,hit₁,-⟩ := h.round hround
        refine ⟨d₂,by simp [Tadpole.dictRehash,hi,hu,hd₁,hd₂],hsound₂,hperm.trans hperm₁,hit.trans hit₁,
          fun hr₀ => hroom (hr₀.round h hsound₁ hround).1,fun hle => hdone fun j hj => ?_⟩
        have hlei := hle i rfl
        cases hround with
        | bucket before behind lt le size0 size1 entries iterators =>
          obtain rfl := Option.some.inj (hi.symm.trans before)
          obtain rfl := Option.some.inj (behind.symm.trans hj)
          omega
        | finish rehashing used => exact absurd used hu

/-- A resize that is not refused starts to move the entries to a table of the least size for them. -/
theorem Dict.Sound.dictResize (h : d.Sound type P) (canResize : Bool) (hu : d.dictSize ≤ 1073741824) :
    (dictResize canResize d).1.Sound type P ∧ (dictResize canResize d).1.entries = d.entries ∧
      (dictResize canResize d).1.iterators = d.iterators := by
  by_cases hno : ¬ canResize ∨ d.isRehashing
  · rw [Tadpole.dictResize,if_pos hno]
    exact ⟨h,rfl,rfl⟩
  · have hi : d.rehashidx = none := by
      rw [not_or] at hno
      simpa [isRehashing] using hno.2
    have hused : d.ht0.used ≤ 1073741824 := (Nat.le_add_right _ _).trans hu
    have hint : int32 d.ht0.used = d.ht0.used := int32_nat (by omega)
    have hres : Tadpole.dictResize canResize d = dictExpand d (max DICT_HT_INITIAL_SIZE d.ht0.used) := by
      rw [Tadpole.dictResize,if_neg hno,hint]
      dsimp only [Int.toNat_natCast]
      congr 1
      unfold DICT_HT_INITIAL_SIZE
      split_ifs <;> omega
    obtain ⟨-,-,-,-,hsound,hentries,hit,-⟩ :=
      h.expand (max DICT_HT_INITIAL_SIZE d.ht0.used) hi (le_max_right _ _)
        (max_le (by decide) (by omega))
    exact hres ▸ ⟨hsound,hentries,hit⟩

end

end Tadpole
