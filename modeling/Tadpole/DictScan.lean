import Tadpole.DictUpdate
import Tadpole.Lib.Bits

/-! One call of `dictScan`, whose cursor counts over the reversed bits of the bucket index: with one table or two, it reports
the entries whose hashes, read from the lowest bit on, begin as the cursor does. -/
namespace Tadpole

variable {K V : Type}

/-- The rounds of `rev`, from the shift `s` on. -/
def revLoop : ℕ → ℕ → BitVec 64 → BitVec 64 → BitVec 64
  | 0, _, _, v => v
  | fuel+1, s, mask, v =>
    let s := s/2
    if s > 0 then
      let mask := mask ^^^ (mask <<< s)
      revLoop fuel s mask (((v >>> s) &&& mask) ||| ((v <<< s) &&& ~~~mask))
    else v

/-- `rev`, of an `unsigned long`. -/
def rev (v : BitVec 64) : BitVec 64 := revLoop 7 64 (BitVec.allOnes 64) v

/-- The end of `dictScan`. -/
def nextCursor (m0 v : BitVec 64) : BitVec 64 := rev (rev (v ||| ~~~m0)+1)

/-- The loop over the expansions of the cursor in the larger table: the entries it reports, and the cursor behind it. -/
def expansions (t1 : Dictht K V) (m0 m1 : BitVec 64) : ℕ → BitVec 64 → Option (List (K × V) × BitVec 64)
  | 0, _ => none
  | fuel+1, v => do
    let de ← t1.table[(v &&& m1).toNat]?
    let v := (((v ||| m0)+1) &&& ~~~m0) ||| (v &&& m0)
    if v &&& (m0 ^^^ m1) ≠ 0 then
      let (rest,v) ← expansions t1 m0 m1 fuel v
      some (de++rest,v)
    else some (de,v)

/-- `dictScan`: the entries for which it calls `fn`, and the next cursor. -/
def dictScan (d : Dict K V) (v : BitVec 64) : Option (List (K × V) × BitVec 64) :=
  if d.dictSize = 0 then some ([],0)
  else if d.isRehashing then do
    let (t0,t1) := if d.ht0.size > d.ht1.size then (d.ht1,d.ht0) else (d.ht0,d.ht1)
    let m0 := BitVec.ofNat 64 t0.sizemask
    let m1 := BitVec.ofNat 64 t1.sizemask
    let de ← t0.table[(v &&& m0).toNat]?
    let (rest,v) ← expansions t1 m0 m1 (t1.size+1) v
    some (de++rest,nextCursor m0 v)
  else do
    let m0 := BitVec.ofNat 64 d.ht0.sizemask
    let de ← d.ht0.table[(v &&& m0).toNat]?
    some (de,nextCursor m0 v)

/-- A round swaps neighbouring groups of `s` bits. -/
theorem revRound_bit {mask : BitVec 64} {s i : ℕ} (hmask : mask.getLsbD i = decide (i/s%2 = 0)) (hi : i < 64)
    (v : BitVec 64) : (((v >>> s) &&& mask) ||| ((v <<< s) &&& ~~~mask)).getLsbD i =
      if i/s%2 = 0 then v.getLsbD (i+s) else decide (s ≤ i) && v.getLsbD (i-s) := by
  rw [BitVec.getLsbD_or,BitVec.getLsbD_and,BitVec.getLsbD_and,BitVec.getLsbD_not,hmask,BitVec.getLsbD_ushiftRight,
    BitVec.getLsbD_shiftLeft]
  split_ifs with h
  · simp [h,Nat.add_comm]
  · by_cases hs : s ≤ i
    · simp [h,hi,hs,Nat.not_lt.mpr hs]
    · exact absurd (by rw [Nat.div_eq_of_lt (Nat.lt_of_not_le hs)]) h

/-- Where a round takes bit `i` from. -/
def swapped (s i : ℕ) : ℕ := if i/s%2 = 0 then i+s else i-s

theorem rev_eq (v : BitVec 64) : rev v = v.reverse := by
  have hround : ∀ (mask : BitVec 64) (s : ℕ), (∀ i < 64, mask.getLsbD i = decide (i/s%2 = 0)) →
      (∀ i < 64, i/s%2 ≠ 0 → s ≤ i) → ∀ (v : BitVec 64) (i : ℕ), i < 64 →
        (((v >>> s) &&& mask) ||| ((v <<< s) &&& ~~~mask)).getLsbD i = v.getLsbD (swapped s i) := by
    intro mask s hmask hle v i hi
    rw [revRound_bit (hmask i hi) hi,swapped]
    split_ifs with h
    · rfl
    · simp [hle i hi h]
  refine BitVec.eq_of_getLsbD_eq fun i hi => ?_
  have hall : ∀ i < 64, swapped 32 (swapped 16 (swapped 8 (swapped 4 (swapped 2 (swapped 1 i))))) = 63-i ∧
      swapped 16 (swapped 8 (swapped 4 (swapped 2 (swapped 1 i)))) < 64 ∧
      swapped 8 (swapped 4 (swapped 2 (swapped 1 i))) < 64 ∧ swapped 4 (swapped 2 (swapped 1 i)) < 64 ∧
      swapped 2 (swapped 1 i) < 64 ∧ swapped 1 i < 64 := by decide
  obtain ⟨h₀,h₁,h₂,h₃,h₄,h₅⟩ := hall i hi
  rw [BitVec.getLsbD_reverse,BitVec.getMsbD_eq_getLsbD]
  simp only [hi,decide_true,Bool.true_and]
  rw [show 64-1-i = 63-i by omega,← h₀]
  show BitVec.getLsbD ((_ &&& _) ||| (_ &&& _)) i = _
  rw [hround _ 1 (by decide) (by decide) _ _ hi,hround _ 2 (by decide) (by decide) _ _ h₅,
    hround _ 4 (by decide) (by decide) _ _ h₄,hround _ 8 (by decide) (by decide) _ _ h₃,
    hround _ 16 (by decide) (by decide) _ _ h₂,hround _ 32 (by decide) (by decide) _ _ h₁]

theorem nextCursor_eq (k : ℕ) (v : BitVec 64) : nextCursor (Bits.low 64 k) v = Bits.next k v := by
  rw [nextCursor,rev_eq,rev_eq,Bits.next]

/-- Where the cursor meets a key: its hash, read from the lowest bit on. -/
def DictType.place (type : DictType K) (key : K) : ℕ :=
  (BitVec.ofNat 64 (type.hashFunction key).toNat).reverse.toNat

section
variable {type : DictType K} {P : K → Prop}

theorem place_iff {k : ℕ} (hk : k ≤ 64) (key : K) (v : BitVec 64) :
    (type.hashFunction key).toNat%2^k = v.toNat%2^k ↔ type.place key/2^(64-k) = v.reverse.toNat/2^(64-k) := by
  have hhash : (BitVec.ofNat 64 (type.hashFunction key).toNat).toNat = (type.hashFunction key).toNat := by
    rw [BitVec.toNat_ofNat]
    exact Nat.mod_eq_of_lt ((UInt32.toNat_lt _).trans (by decide))
  rw [DictType.place,← Bits.and_low_eq_iff hk,← BitVec.toNat_inj,Bits.toNat_and_low hk,Bits.toNat_and_low hk,hhash]

/-- A table in use has `2^k` buckets. -/
structure Dictht.Level (ht : Dictht K V) (k : ℕ) : Prop where
  size : ht.size = 2^k
  sizemask : ht.sizemask = 2^k-1
  le : k ≤ 31

theorem Dictht.Sound.level {ht : Dictht K V} (h : ht.Sound type) (hs : 0 < ht.size) : ∃ k, ht.Level k := by
  rcases h.shape with rfl | ⟨m,hm,hmask,hle⟩
  · cases hs
  · exact ⟨m+2,hm,hmask,hle⟩

theorem Dictht.Level.index {ht : Dictht K V} {k : ℕ} (h : ht.Level k) (key : K) :
    type.index ht key = (type.hashFunction key).toNat%2^k := by
  rw [DictType.index,h.sizemask,Nat.and_two_pow_sub_one_eq_mod]

theorem Dictht.Sound.bucket {ht : Dictht K V} (h : ht.Sound type) {k i : ℕ} (hk : ht.Level k) (hi : i < 2^k) :
    ∃ c, ht.table[i]? = some c ∧ c.Sublist ht.table.flatten ∧
      ∀ e, e ∈ c ↔ e ∈ ht.table.flatten ∧ (type.hashFunction e.1).toNat%2^k = i := by
  have hlt : i < ht.table.length := by
    rw [h.length,hk.size]
    exact hi
  have hc := List.getElem?_eq_getElem hlt
  refine ⟨_,hc,List.sublist_flatten_of_mem (List.getElem_mem hlt),fun e => ⟨fun he => ?_,fun he => ?_⟩⟩
  · rw [← hk.index]
    exact ⟨List.mem_flatten.mpr ⟨_,List.getElem_mem hlt,he⟩,h.placed _ _ hc e he⟩
  · have hie : type.index ht e.1 = i := (hk.index e.1).trans he.2
    exact (h.placed.mem_flatten (by rw [hie]; exact hc)).mp he.1

theorem expansion_round {k₀ k₁ lo hi : ℕ} (hle : k₀ ≤ k₁) (hk₁ : k₁ ≤ 31) (hlo : lo < 2^k₀) (hhi : hi < 2^(k₁-k₀))
    {v v' : BitVec 64} (hv : v.toNat = 2^k₀*hi+lo)
    (hv' : (((v ||| Bits.low 64 k₀)+1) &&& ~~~Bits.low 64 k₀) ||| (v &&& Bits.low 64 k₀) = v') :
    v'.toNat = 2^k₀*(hi+1)+lo ∧ v' &&& Bits.low 64 k₀ = v &&& Bits.low 64 k₀ ∧
      (v' &&& (Bits.low 64 k₀ ^^^ Bits.low 64 k₁) = 0 ↔ (hi+1)%2^(k₁-k₀) = 0) := by
  have hpos := Nat.two_pow_pos k₀
  have hdiv : ∀ j, (2^k₀*j+lo)/2^k₀ = j := fun j => by
    rw [Nat.mul_add_div hpos,Nat.div_eq_of_lt hlo,Nat.add_zero]
  have hmod : ∀ j, (2^k₀*j+lo)%2^k₀ = lo := fun j => by rw [Nat.mul_add_mod,Nat.mod_eq_of_lt hlo]
  have hbound : 2^k₀*(v.toNat/2^k₀+1) < 2^64 := by
    rw [hv,hdiv]
    calc 2^k₀*(hi+1) ≤ 2^k₀*2^(k₁-k₀) := Nat.mul_le_mul_left _ hhi
      _ = 2^k₁ := by rw [← Nat.pow_add,Nat.add_sub_cancel' hle]
      _ < 2^64 := Nat.pow_lt_pow_right (by decide) (by omega)
  have hnat : v'.toNat = 2^k₀*(hi+1)+lo := by
    rw [← hv',Bits.toNat_bump (by omega) v hbound,hv,hdiv,hmod]
  refine ⟨hnat,?_,by rw [Bits.and_xor_low hle,hnat,hdiv]⟩
  rw [← BitVec.toNat_inj,Bits.toNat_and_low (by omega),Bits.toNat_and_low (by omega),hnat,hv,hmod,hmod]

theorem Dictht.Sound.expansion {t1 : Dictht K V} (h : t1.Sound type) {k₀ k₁ lo hi : ℕ} (hk₁ : t1.Level k₁)
    (hle : k₀ ≤ k₁) (hlo : lo < 2^k₀) (hhi : hi < 2^(k₁-k₀)) {v : BitVec 64} (hv : v.toNat = 2^k₀*hi+lo) :
    ∃ c v', v'.toNat = 2^k₀*(hi+1)+lo ∧ v' &&& Bits.low 64 k₀ = v &&& Bits.low 64 k₀ ∧ c.Sublist t1.table.flatten ∧
      (∀ e, e ∈ c ↔ e ∈ t1.table.flatten ∧ (type.hashFunction e.1).toNat%2^k₁ = 2^k₀*hi+lo) ∧
      ∀ fuel, expansions t1 (Bits.low 64 k₀) (Bits.low 64 k₁) (fuel+1) v =
        if hi+1 = 2^(k₁-k₀) then some (c,v')
        else (expansions t1 (Bits.low 64 k₀) (Bits.low 64 k₁) fuel v').map fun r => (c++r.1,r.2) := by
  have hlevel := hk₁.le
  have hlt : 2^k₀*hi+lo < 2^k₁ := by
    calc 2^k₀*hi+lo < 2^k₀*(hi+1) := by rw [Nat.mul_succ]; omega
      _ ≤ 2^k₀*2^(k₁-k₀) := Nat.mul_le_mul_left _ (by omega)
      _ = 2^k₁ := by rw [← Nat.pow_add,Nat.add_sub_cancel' hle]
  obtain ⟨c,hc,hsub,hmem⟩ := h.bucket hk₁ hlt
  have hidx : (v &&& Bits.low 64 k₁).toNat = 2^k₀*hi+lo := by
    rw [Bits.toNat_and_low (by omega),hv,Nat.mod_eq_of_lt hlt]
  obtain ⟨hnat,hlow,hlast⟩ := expansion_round hle hlevel hlo hhi hv rfl
  refine ⟨c,_,hnat,hlow,hsub,hmem,fun fuel => ?_⟩
  simp only [expansions,hidx,hc,Option.bind_eq_bind,Option.bind_some]
  split_ifs with hz hend hend
  · exact absurd (hlast.mpr (by rw [hend,Nat.mod_self])) hz
  · cases expansions t1 (Bits.low 64 k₀) (Bits.low 64 k₁) fuel _ <;> rfl
  · rfl
  · have := hlast.mp (not_not.mp hz)
    rw [Nat.mod_eq_of_lt (by omega)] at this
    omega

theorem Dictht.Sound.expansions {t1 : Dictht K V} (h : t1.Sound type) (hnodup : t1.table.flatten.Nodup) {k₀ k₁ lo : ℕ}
    (hk₁ : t1.Level k₁) (hle : k₀ ≤ k₁) (hlo : lo < 2^k₀) {n hi fuel : ℕ} (hn : hi+(n+1) = 2^(k₁-k₀)) (hfuel : n < fuel)
    {v : BitVec 64} (hv : v.toNat = 2^k₀*hi+lo) :
    ∃ es v', Tadpole.expansions t1 (Bits.low 64 k₀) (Bits.low 64 k₁) fuel v = some (es,v') ∧
      v' &&& Bits.low 64 k₀ = v &&& Bits.low 64 k₀ ∧ es.Nodup ∧
      ∀ e, e ∈ es ↔ e ∈ t1.table.flatten ∧
        ∃ j, hi ≤ j ∧ j < 2^(k₁-k₀) ∧ (type.hashFunction e.1).toNat%2^k₁ = 2^k₀*j+lo := by
  induction n generalizing hi fuel v with
  | zero =>
    obtain ⟨fuel,rfl⟩ : ∃ f, fuel = f+1 := ⟨fuel-1,by omega⟩
    obtain ⟨c,v',-,hlow,hsub,hmem,hround⟩ := h.expansion hk₁ hle hlo (by omega) hv
    refine ⟨c,v',by rw [hround,if_pos hn],hlow,hsub.nodup hnodup,fun e => ?_⟩
    rw [hmem]
    refine and_congr_right fun _ => ⟨fun he => ⟨hi,le_rfl,by omega,he⟩,?_⟩
    rintro ⟨j,hj,hj',he⟩
    rwa [show hi = j by omega]
  | succ n ih =>
    obtain ⟨fuel,rfl⟩ : ∃ f, fuel = f+1 := ⟨fuel-1,by omega⟩
    obtain ⟨c,v₁,hv₁,hlow,hsub,hmem,hround⟩ := h.expansion hk₁ hle hlo (by omega) hv
    obtain ⟨es,v',hrest,hlow',hnodup',hmem'⟩ := @ih (hi+1) fuel (by omega) (by omega) v₁ hv₁
    refine ⟨c++es,v',?_,hlow'.trans hlow,?_,fun e => ?_⟩
    · rw [hround,if_neg (by omega),hrest,Option.map_some]
    · refine (hsub.nodup hnodup).append hnodup' fun e he he' => ?_
      obtain ⟨j,hj,-,hej⟩ := ((hmem' e).mp he').2
      have hsame := ((hmem e).mp he).2.symm.trans hej
      rw [Nat.add_right_cancel_iff,Nat.mul_right_inj (Nat.two_pow_pos k₀).ne'] at hsame
      omega
    · rw [List.mem_append,hmem,hmem',← and_or_left]
      refine and_congr_right fun _ => ⟨?_,?_⟩
      · rintro (he | ⟨j,hj,hj',he⟩)
        · exact ⟨hi,le_rfl,by omega,he⟩
        · exact ⟨j,by omega,hj',he⟩
      · rintro ⟨j,hj,hj',he⟩
        rcases Nat.eq_or_lt_of_le hj with rfl | hj
        · exact Or.inl he
        · exact Or.inr ⟨j,hj,hj',he⟩

def Dict.minSize (d : Dict K V) : ℕ := if d.isRehashing then min d.ht0.size d.ht1.size else d.ht0.size

/-- Of two tables, one call reports what is placed in the bucket of the smaller one. -/
theorem scan_pair {t0 t1 : Dictht K V} (h₀ : t0.Sound type) (h₁ : t1.Sound type)
    (hnodup : (t0.table.flatten++t1.table.flatten).Nodup) {k₀ k₁ : ℕ} (hk₀ : t0.Level k₀) (hk₁ : t1.Level k₁)
    (hle : k₀ ≤ k₁) {v : BitVec 64} (hv : v.toNat < 2^k₀) :
    ∃ c es v', t0.table[(v &&& Bits.low 64 k₀).toNat]? = some c ∧
      expansions t1 (Bits.low 64 k₀) (Bits.low 64 k₁) (t1.size+1) v = some (es,v') ∧
      nextCursor (Bits.low 64 k₀) v' = Bits.next k₀ v ∧ (c++es).Nodup ∧
      ∀ e, e ∈ c++es ↔ (e ∈ t0.table.flatten ∨ e ∈ t1.table.flatten) ∧
        (type.hashFunction e.1).toNat%2^k₀ = v.toNat := by
  obtain ⟨hn₀,hn₁,hdisjoint⟩ := List.nodup_append'.mp hnodup
  have hlevel := hk₁.le
  have hpow : 2^k₀*2^(k₁-k₀) = 2^k₁ := by rw [← Nat.pow_add,Nat.add_sub_cancel' hle]
  obtain ⟨c,hc,hsub,hmem⟩ := h₀.bucket hk₀ hv
  have hidx : (v &&& Bits.low 64 k₀).toNat = v.toNat := by
    rw [Bits.toNat_and_low (by omega),Nat.mod_eq_of_lt hv]
  have hcount : 0+((2^(k₁-k₀)-1)+1) = 2^(k₁-k₀) := by
    have := Nat.two_pow_pos (k₁-k₀)
    omega
  have hfuel : 2^(k₁-k₀)-1 < t1.size+1 := by
    rw [hk₁.size]
    have := Nat.pow_le_pow_right (show 0 < 2 by decide) (Nat.sub_le k₁ k₀)
    omega
  obtain ⟨es,v',hes,hlow,hnodup',hmem'⟩ := h₁.expansions hn₁ hk₁ hle hv hcount hfuel (v:=v) (by omega)
  refine ⟨c,es,v',by rw [hidx]; exact hc,hes,by rw [nextCursor_eq]; exact Bits.next_congr hlow,?_,fun e => ?_⟩
  · exact (hsub.nodup hn₀).append hnodup' fun e he he' => hdisjoint ((hmem e).mp he).1 ((hmem' e).mp he').1
  · have hdvd : 2^k₀ ∣ 2^k₁ := Nat.pow_dvd_pow 2 hle
    rw [List.mem_append,hmem,hmem',or_and_right]
    refine or_congr_right (and_congr_right fun _ => ⟨?_,fun he => ?_⟩)
    · rintro ⟨j,-,-,he⟩
      rw [← Nat.mod_mod_of_dvd _ hdvd,he,Nat.mul_add_mod,Nat.mod_eq_of_lt hv]
    · refine ⟨(type.hashFunction e.1).toNat%2^k₁/2^k₀,Nat.zero_le _,?_,?_⟩
      · rw [Nat.div_lt_iff_lt_mul (Nat.two_pow_pos _),Nat.mul_comm,hpow]
        exact Nat.mod_lt _ (Nat.two_pow_pos _)
      · rw [← he,← Nat.mod_mod_of_dvd _ hdvd]
        exact (Nat.div_add_mod _ _).symm

/-- One call reports every entry whose place begins as the cursor does, once, and the next cursor lies behind them. -/
theorem Dict.Sound.dictScan {d : Dict K V} (h : d.Sound type P) (hsize : d.dictSize ≠ 0) {v : BitVec 64}
    (hv : v.toNat < d.minSize) : ∃ k es, d.minSize = 2^k ∧ k ≤ 31 ∧ Tadpole.dictScan d v = some (es,Bits.next k v) ∧
      es.Nodup ∧ ∀ e, e ∈ es ↔ e ∈ d.entries ∧ type.place e.1/2^(64-k) = v.reverse.toNat/2^(64-k) := by
  have hnodup : d.entries.Nodup := List.Nodup.of_map _ h.nodup
  have hplace : ∀ {k}, k ≤ 31 → v.toNat < 2^k → ∀ key, (type.hashFunction key).toNat%2^k = v.toNat ↔
      type.place key/2^(64-k) = v.reverse.toNat/2^(64-k) := by
    intro k hk hlt key
    rw [← place_iff (by omega),Nat.mod_eq_of_lt hlt]
  have hmask : ∀ {ht : Dictht K V} {k}, ht.Level k → BitVec.ofNat 64 ht.sizemask = Bits.low 64 k := by
    intro ht k hk
    rw [hk.sizemask]
    rfl
  by_cases hr : d.isRehashing
  · obtain ⟨i,hi⟩ := Dict.isRehashing_iff.mp hr
    obtain ⟨hs₀,hs₁,-⟩ := h.busy i hi
    obtain ⟨k₀,hk₀⟩ := h.ht0.level hs₀
    obtain ⟨k₁,hk₁⟩ := h.ht1.level hs₁
    rw [Dict.minSize,if_pos hr,hk₀.size,hk₁.size] at hv ⊢
    by_cases hgt : d.ht0.size > d.ht1.size
    · have hle : k₁ ≤ k₀ := by
        rw [hk₀.size,hk₁.size] at hgt
        exact (Nat.pow_lt_pow_iff_right (by decide)).mp hgt |>.le
      have hmin : min (2^k₀) (2^k₁) = 2^k₁ := Nat.min_eq_right (Nat.pow_le_pow_right (by decide) hle)
      rw [hmin] at hv ⊢
      obtain ⟨c,es,v',hc,hes,hnext,hn,hmem⟩ := scan_pair h.ht1 h.ht0 (List.perm_append_comm.nodup_iff.mp hnodup)
        hk₁ hk₀ hle hv
      refine ⟨k₁,c++es,rfl,hk₁.le,?_,hn,fun e => ?_⟩
      · simp only [Tadpole.dictScan,if_neg hsize,hr,if_true,if_pos hgt,hmask hk₀,hmask hk₁,hc,hes,Option.bind_eq_bind,
          Option.bind_some,hnext]
      · rw [hmem,hplace hk₁.le hv,Dict.entries,List.mem_append,or_comm]
    · have hle : k₀ ≤ k₁ := by
        rw [hk₀.size,hk₁.size] at hgt
        exact (Nat.pow_le_pow_iff_right (by decide)).mp (Nat.not_lt.mp hgt)
      have hmin : min (2^k₀) (2^k₁) = 2^k₀ := Nat.min_eq_left (Nat.pow_le_pow_right (by decide) hle)
      rw [hmin] at hv ⊢
      obtain ⟨c,es,v',hc,hes,hnext,hn,hmem⟩ := scan_pair h.ht0 h.ht1 hnodup hk₀ hk₁ hle hv
      refine ⟨k₀,c++es,rfl,hk₀.le,?_,hn,fun e => ?_⟩
      · simp only [Tadpole.dictScan,if_neg hsize,hr,if_true,if_neg hgt,hmask hk₀,hmask hk₁,hc,hes,Option.bind_eq_bind,
          Option.bind_some,hnext]
      · rw [hmem,hplace hk₀.le hv,Dict.entries,List.mem_append]
  · have hs : 0 < d.ht0.size := by
      refine Nat.pos_of_ne_zero fun hz => hsize ?_
      rw [h.dictSize,h.entries_nil hz]
      rfl
    obtain ⟨k,hk⟩ := h.ht0.level hs
    have hidle : d.rehashidx = none := by simpa [Dict.isRehashing] using hr
    have hentries : d.entries = d.ht0.table.flatten := by simp [Dict.entries,h.idle hidle,dictReset]
    rw [Dict.minSize,if_neg hr,hk.size] at hv ⊢
    obtain ⟨c,hc,hsub,hmem⟩ := h.ht0.bucket hk hv
    have hlevel := hk.le
    have hidx : (v &&& Bits.low 64 k).toNat = v.toNat := by
      rw [Bits.toNat_and_low (by omega),Nat.mod_eq_of_lt hv]
    refine ⟨k,c,rfl,hk.le,?_,hsub.nodup (hentries ▸ hnodup),fun e => ?_⟩
    · simp only [Tadpole.dictScan,if_neg hsize,hr,hmask hk,hidx,hc,nextCursor_eq,Option.bind_eq_bind,Option.bind_some]
      rfl
    · rw [hmem,hplace hk.le hv,hentries]

end

end Tadpole
