import Tadpole.DictRuns
import Tadpole.DictScan

/-! Whole scans, with other calls between their own. As long as the tables only grow, a scan comes to its end, reports all
that was there all the time, and nothing that never was. -/
namespace Tadpole

variable {K V : Type}

/-- A scan from the cursor `v`, with calls on the dict behind each of its own: the dict in the end, what the scan reports,
and whether it has come to the cursor 0 again. -/
def scanRounds (type : DictType K) : Bool × Dict K V → BitVec 64 → List (List (DictOp K V)) →
    Option ((Bool × Dict K V) × List (K × V) × Bool)
  | s, _, [] => some (s,[],false)
  | s, v, ops::rounds => do
    let (es,v) ← dictScan s.2 v
    if v = 0 then some (s,es,true)
    else
      let (s,_) ← Simulation.run (DictOp.step type) s ops
      let (s,rest,done) ← scanRounds type s v rounds
      some (s,es++rest,done)

section
variable {type : DictType K} {P : K → Prop} {n : ℕ}

section
variable {d d' : Dict K V} {key : K}

theorem Dict.minSize_congr (hr : d'.rehashidx.isSome = d.rehashidx.isSome) (h₀ : d'.ht0.size = d.ht0.size)
    (h₁ : d'.ht1.size = d.ht1.size) : d.minSize = d'.minSize := by
  rw [Dict.minSize,Dict.minSize,Dict.isRehashing,Dict.isRehashing,hr,h₀,h₁]

theorem Dictht.push_size {ht ht' : Dictht K V} {idx : ℕ} {e : K × V} (h : ht.push idx e = some ht') :
    ht'.size = ht.size := by
  obtain ⟨c,-,rfl⟩ : ∃ c, ht.table[idx]? = some c ∧ _ = ht' := by
    simpa [Dictht.push,Option.bind_eq_some_iff] using h
  rfl

theorem Dictht.change_size {ht ht' : Dictht K V} {f : K × V → List (K × V)} (h : ht.change type key f = some ht') :
    ht'.size = ht.size := by
  obtain ⟨c,-,rfl⟩ : ∃ c, ht.table[type.index ht key]? = some c ∧ _ = ht' := by
    simpa [Dictht.change,Option.bind_eq_some_iff] using h
  rfl

theorem RehashRound.minSize_le (h : RehashRound d d') : d.minSize ≤ d'.minSize := by
  cases h with
  | bucket before behind lt le size0 size1 entries iterators =>
    rw [Dict.minSize_congr (by rw [before,behind]; rfl) size0 size1]
  | finish rehashing used =>
    rw [Dict.minSize,if_pos rehashing]
    exact min_le_right _ _

theorem Dict.Sound.stepIfRehashing_minSize (h : d.Sound type P) (hd : Tadpole.stepIfRehashing type d = some d') :
    d.minSize ≤ d'.minSize := by
  obtain ⟨d₁,hd₁,-,hcase⟩ := h.stepIfRehashing
  obtain rfl := Option.some.inj (hd₁.symm.trans hd)
  split_ifs at hcase with hr
  · exact hcase.minSize_le
  · rw [hcase]

theorem Dict.Sound.dictFind_minSize (h : d.Sound type P) {r : Option (K × V)}
    (hd : Tadpole.dictFind type d key = some (d',r)) : d.minSize ≤ d'.minSize := by
  rw [Tadpole.dictFind] at hd
  split_ifs at hd with hs
  · rw [← (Prod.mk.inj (Option.some.inj hd)).1]
  · simp only [Option.bind_eq_bind,Option.bind_eq_some_iff,Option.some.injEq,Prod.mk.injEq] at hd
    obtain ⟨d₁,hd₁,he,-,rfl,-⟩ := hd
    exact h.stepIfRehashing_minSize hd₁

theorem Dict.Sound.dictRehash_minSize (h : d.Sound type P) {k : ℕ} {more : Bool}
    (hd : Tadpole.dictRehash type d k = some (d',more)) : d.minSize ≤ d'.minSize := by
  induction k generalizing d with
  | zero =>
    obtain ⟨rfl,-⟩ := Prod.mk.inj (Option.some.inj hd)
    exact le_rfl
  | succ k ih =>
    cases hi : d.rehashidx with
    | none =>
      obtain ⟨rfl,-⟩ : d = d' ∧ _ := by simpa [Tadpole.dictRehash,hi] using hd
      exact le_rfl
    | some i =>
      by_cases hu : d.ht0.used = 0
      · obtain ⟨rfl,-⟩ : finishRehash d = d' ∧ _ := by simpa [Tadpole.dictRehash,hi,hu] using hd
        exact (RehashRound.finish (Dict.isRehashing_iff.mpr ⟨i,hi⟩) hu).minSize_le
      · obtain ⟨d₁,hd₁,hsound,hround⟩ := h.rehashBucket hi hu
        exact hround.minSize_le.trans (ih hsound (by simpa [Tadpole.dictRehash,hi,hu,hd₁] using hd))

theorem Dict.Sound.growth_minSize (h : d.Sound type P) {canResize : Bool} (hg : DictGrowth canResize d d') :
    d.minSize ≤ d'.minSize := by
  cases hg with
  | rehashing rehashing => exact le_rfl
  | first size0 idle size =>
    have hr : ¬ d.isRehashing := by simp [Dict.isRehashing,h.not_rehashing size0]
    rw [Dict.minSize,if_neg hr,size0]
    exact Nat.zero_le _
  | room idle size0 room => exact le_rfl
  | double idle full behind ht0 size1 =>
    have hr : d'.isRehashing := Dict.isRehashing_iff.mpr ⟨_,behind⟩
    have hr' : ¬ d.isRehashing := by simp [Dict.isRehashing,idle]
    rw [Dict.minSize,Dict.minSize,if_pos hr,if_neg hr',ht0]
    omega

theorem Dict.Sound.dictAddRaw_minSize (h : d.Sound type P) (hl : type.Lawful P) (hp : P key) {canResize added : Bool}
    {val : V} (hu : d.dictSize ≤ 1073741824) (hd : Tadpole.dictAddRaw type canResize d key val = some (d',added)) :
    d.minSize ≤ d'.minSize := by
  obtain ⟨d₁,hd₁,hsound₁,hcase⟩ := h.stepIfRehashing
  have hle₁ := h.stepIfRehashing_minSize hd₁
  have hsize₁ : d₁.dictSize = d.dictSize := by
    split_ifs at hcase with hr
    · rw [hsound₁.dictSize,h.dictSize,(h.round hcase).1.length_eq]
    · rw [hcase]
  obtain ⟨d₂,index,hd₂,-,-,-,hgrow,-⟩ :=
    hsound₁.dictKeyIndex canResize hl hp (fun _ => by rw [Dict.dictSize] at hsize₁; omega)
  have hle₂ := hle₁.trans (hsound₁.growth_minSize hgrow)
  simp only [Tadpole.dictAddRaw,hd₁,hd₂,Option.bind_eq_bind,Option.bind_some] at hd
  split_ifs at hd with hneg hlt hr
  · obtain ⟨rfl,-⟩ := Prod.mk.inj (Option.some.inj hd)
    exact hle₂
  · obtain ⟨ht1,hpush,hd⟩ := Option.bind_eq_some_iff.mp hd
    obtain ⟨rfl,-⟩ := Prod.mk.inj (Option.some.inj hd)
    exact hle₂.trans_eq (Dict.minSize_congr rfl rfl (Dictht.push_size hpush))
  · obtain ⟨ht0,hpush,hd⟩ := Option.bind_eq_some_iff.mp hd
    obtain ⟨rfl,-⟩ := Prod.mk.inj (Option.some.inj hd)
    exact hle₂.trans_eq (Dict.minSize_congr rfl (Dictht.push_size hpush) rfl)

theorem Dict.Sound.dictReplace_minSize (h : d.Sound type P) (hl : type.Lawful P) (hp : P key) {canResize added : Bool}
    {val : V} (hu : d.dictSize ≤ 1073741824) (hd : Tadpole.dictReplace type canResize d key val = some (d',added)) :
    d.minSize ≤ d'.minSize := by
  obtain ⟨d₁,new,hd₁,hsound₁,-⟩ := h.dictAddRaw canResize hl hp val hu
  have hle₁ := h.dictAddRaw_minSize hl hp hu hd₁
  simp only [Tadpole.dictReplace,dictAdd,hd₁,Option.bind_eq_bind,Option.bind_some] at hd
  split_ifs at hd with hnew hok hok
  · obtain ⟨rfl,-⟩ := Prod.mk.inj (Option.some.inj hd)
    exact hle₁
  · cases hok rfl
  · cases hok
  · obtain ⟨⟨d₂,he⟩,hd₂,hd⟩ := Option.bind_eq_some_iff.mp hd
    have hle₂ := hle₁.trans (hsound₁.dictFind_minSize hd₂)
    obtain ⟨e,-,hd⟩ := Option.bind_eq_some_iff.mp hd
    obtain ⟨r,-,hd⟩ := Option.bind_eq_some_iff.mp hd
    split_ifs at hd with hr
    · obtain ⟨ht0,hchange,hd⟩ := Option.bind_eq_some_iff.mp hd
      obtain ⟨rfl,-⟩ := Prod.mk.inj (Option.some.inj hd)
      exact hle₂.trans_eq (Dict.minSize_congr rfl (Dictht.change_size hchange) rfl)
    · obtain ⟨ht1,hchange,hd⟩ := Option.bind_eq_some_iff.mp hd
      obtain ⟨rfl,-⟩ := Prod.mk.inj (Option.some.inj hd)
      exact hle₂.trans_eq (Dict.minSize_congr rfl rfl (Dictht.change_size hchange))

theorem Dict.Sound.dictDelete_minSize (h : d.Sound type P) {status : DictStatus}
    (hd : Tadpole.dictDelete type d key = some (d',status)) : d.minSize ≤ d'.minSize := by
  rw [Tadpole.dictDelete,dictGenericDelete] at hd
  split_ifs at hd with hs
  · obtain ⟨rfl,-⟩ := Prod.mk.inj (Option.some.inj hd)
    exact le_rfl
  · obtain ⟨d₁,hd₁,hd⟩ := Option.bind_eq_some_iff.mp hd
    have hle₁ := h.stepIfRehashing_minSize hd₁
    obtain ⟨r₀,-,hd⟩ := Option.bind_eq_some_iff.mp hd
    split_ifs at hd with hr₀ hr
    · obtain ⟨ht0,hchange,hd⟩ := Option.bind_eq_some_iff.mp hd
      obtain ⟨rfl,-⟩ := Prod.mk.inj (Option.some.inj hd)
      have hsize : ht0.size = d₁.ht0.size := Dictht.change_size hchange
      exact hle₁.trans_eq (Dict.minSize_congr rfl hsize rfl)
    · obtain ⟨r₁,-,hd⟩ := Option.bind_eq_some_iff.mp hd
      split_ifs at hd with hr₁
      · obtain ⟨ht1,hchange,hd⟩ := Option.bind_eq_some_iff.mp hd
        obtain ⟨rfl,-⟩ := Prod.mk.inj (Option.some.inj hd)
        have hsize : ht1.size = d₁.ht1.size := Dictht.change_size hchange
        exact hle₁.trans_eq (Dict.minSize_congr rfl rfl hsize)
      · obtain ⟨rfl,-⟩ := Prod.mk.inj (Option.some.inj hd)
        exact hle₁
    · obtain ⟨rfl,-⟩ := Prod.mk.inj (Option.some.inj hd)
      exact hle₁

end

theorem DictOp.step_minSize {s s' : Bool × Dict K V} (h : s.2.Sound type P) (hl : type.Lawful P)
    (hu : s.2.dictSize ≤ 1073741824) {op : DictOp K V} (hp : ∀ key ∈ op.key, P key) (hne : op ≠ .resize)
    {r : DictReply K V} (hs : op.step type s = some (s',r)) : s.2.minSize ≤ s'.2.minSize := by
  cases op with
  | add key val =>
    obtain ⟨⟨d',status⟩,hd,he⟩ := Option.map_eq_some_iff.mp hs
    obtain ⟨⟨d₁,added⟩,hadd,hd⟩ := Option.bind_eq_some_iff.mp hd
    obtain ⟨rfl,-⟩ := Prod.mk.inj (Option.some.inj hd)
    obtain ⟨rfl,-⟩ := Prod.mk.inj he
    exact h.dictAddRaw_minSize hl (hp key rfl) hu hadd
  | replace key val =>
    obtain ⟨⟨d',added⟩,hd,he⟩ := Option.map_eq_some_iff.mp hs
    obtain ⟨rfl,-⟩ := Prod.mk.inj he
    exact h.dictReplace_minSize hl (hp key rfl) hu hd
  | delete key =>
    obtain ⟨⟨d',status⟩,hd,he⟩ := Option.map_eq_some_iff.mp hs
    obtain ⟨rfl,-⟩ := Prod.mk.inj he
    exact h.dictDelete_minSize hd
  | find key =>
    obtain ⟨⟨d',r⟩,hd,he⟩ := Option.map_eq_some_iff.mp hs
    obtain ⟨rfl,-⟩ := Prod.mk.inj he
    exact h.dictFind_minSize hd
  | fetchValue key =>
    obtain ⟨⟨d',val⟩,hd,he⟩ := Option.map_eq_some_iff.mp hs
    obtain ⟨⟨d₁,r⟩,hfind,hd⟩ := Option.bind_eq_some_iff.mp hd
    obtain ⟨rfl,-⟩ := Prod.mk.inj (Option.some.inj hd)
    obtain ⟨rfl,-⟩ := Prod.mk.inj he
    exact h.dictFind_minSize hfind
  | rehash k =>
    obtain ⟨⟨d',more⟩,hd,he⟩ := Option.map_eq_some_iff.mp hs
    obtain ⟨rfl,-⟩ := Prod.mk.inj he
    exact h.dictRehash_minSize hd
  | resize => cases hne rfl
  | enableResize =>
    obtain ⟨rfl,-⟩ := Prod.mk.inj (Option.some.inj hs)
    exact le_rfl
  | disableResize =>
    obtain ⟨rfl,-⟩ := Prod.mk.inj (Option.some.inj hs)
    exact le_rfl

section
variable [DecidableEq K] {m : K → Option V} {ops : List (DictOp K V)} {key : K} {val : V}

theorem follow_keeps (hno : .delete key ∉ ops) (h : (m key).isSome) :
    ((Simulation.follow DictOp.onMap m ops).1 key).isSome := by
  induction ops generalizing m with
  | nil => exact h
  | cons op ops ih =>
    refine ih (fun hin => hno (List.mem_cons_of_mem _ hin)) ?_
    cases op with
    | add k v =>
      rw [DictOp.onMap]
      cases hk : m k with
      | none =>
        dsimp only
        rw [Function.update_apply]
        split_ifs
        · rfl
        · exact h
      | some v' => exact h
    | replace k v =>
      dsimp only [DictOp.onMap]
      rw [Function.update_apply]
      split_ifs
      · rfl
      · exact h
    | delete k =>
      dsimp only [DictOp.onMap]
      rw [Function.update_apply,if_neg (fun hk => hno (by rw [hk]; exact List.mem_cons_self))]
      exact h
    | find k | fetchValue k | rehash k | resize | enableResize | disableResize => exact h

def DictOp.Writes (key : K) (val : V) (op : DictOp K V) : Prop := op = .add key val ∨ op = .replace key val

theorem follow_brings (h : (Simulation.follow DictOp.onMap m ops).1 key = some val) :
    m key = some val ∨ ∃ op ∈ ops, op.Writes key val := by
  induction ops generalizing m with
  | nil => exact Or.inl h
  | cons op ops ih =>
    have hstep : (op.onMap m).1 key = some val → m key = some val ∨ op.Writes key val := by
      intro hv
      cases op with
      | add k v =>
        rw [DictOp.onMap] at hv
        cases hk : m k with
        | none =>
          simp only [hk] at hv
          rw [Function.update_apply] at hv
          split_ifs at hv with he
          · obtain rfl := Option.some.inj hv
            exact Or.inr (Or.inl (by rw [he]))
          · exact Or.inl hv
        | some v' =>
          simp only [hk] at hv
          exact Or.inl hv
      | replace k v =>
        dsimp only [DictOp.onMap] at hv
        rw [Function.update_apply] at hv
        split_ifs at hv with he
        · obtain rfl := Option.some.inj hv
          exact Or.inr (Or.inr (by rw [he]))
        · exact Or.inl hv
      | delete k =>
        dsimp only [DictOp.onMap] at hv
        rw [Function.update_apply] at hv
        split_ifs at hv
        exact Or.inl hv
      | find k | fetchValue k | rehash k | resize | enableResize | disableResize => exact Or.inl hv
    rcases ih h with hv | ⟨op',hin,hw⟩
    · exact (hstep hv).imp_right fun hw => ⟨op,List.mem_cons_self,hw⟩
    · exact Or.inr ⟨op',List.mem_cons_of_mem _ hin,hw⟩

end

theorem Dict.Sound.minSize_pos {d : Dict K V} (h : d.Sound type P) (hsize : d.dictSize ≠ 0) : 0 < d.minSize := by
  rw [Dict.minSize]
  split_ifs with hr
  · obtain ⟨i,hi⟩ := Dict.isRehashing_iff.mp hr
    obtain ⟨hs₀,hs₁,-⟩ := h.busy i hi
    exact lt_min hs₀ hs₁
  · refine Nat.pos_of_ne_zero fun hz => hsize ?_
    rw [h.dictSize,h.entries_nil hz]
    rfl

theorem DictState.between [DecidableEq K] {s : Bool × Dict K V} {m : K → Option V} (h : DictState type P n s m)
    (hl : type.Lawful P) {ops : List (DictOp K V)} (hops : ∀ op ∈ ops, op ≠ .resize ∧ ∀ key ∈ op.key, P key)
    (hn : n+ops.length ≤ 1073741824) :
    ∃ s' replies, Simulation.run (DictOp.step type) s ops = some (s',replies) ∧
      DictState type P (n+ops.length) s' (Simulation.follow DictOp.onMap m ops).1 ∧ s.2.minSize ≤ s'.2.minSize := by
  have hstep : ∀ n < 1073741824, ∀ (s₁ : Bool × Dict K V) m (op : DictOp K V),
      DictState type P n s₁ m ∧ s.2.minSize ≤ s₁.2.minSize → (op ≠ .resize ∧ ∀ key ∈ op.key, P key) →
        ∃ s', op.step type s₁ = some (s',(op.onMap m).2) ∧
          DictState type P (n+1) s' (op.onMap m).1 ∧ s.2.minSize ≤ s'.2.minSize := by
    intro n hn s₁ m op h hp
    obtain ⟨s',hs',hstate⟩ := h.1.step hl hn hp.2
    exact ⟨s',hs',hstate,h.2.trans (DictOp.step_minSize h.1.sound hl (h.1.size.trans hn.le) hp.2 hp.1 hs')⟩
  obtain ⟨s',hrun,hstate⟩ := Simulation.run_follows hstep hops hn ⟨h,le_rfl⟩
  exact ⟨s',_,hrun,hstate⟩

/-- One call reports, of what the map has, all that is placed where the cursor stands. -/
theorem DictState.dictScan [DecidableEq K] {s : Bool × Dict K V} {m : K → Option V} (h : DictState type P n s m)
    (hsize : s.2.dictSize ≠ 0) {v : BitVec 64} (hv : v.toNat < s.2.minSize) :
    ∃ k es, s.2.minSize = 2^k ∧ k ≤ 64 ∧ Tadpole.dictScan s.2 v = some (es,Bits.next k v) ∧
      (∀ key val, (key,val) ∈ es → m key = some val) ∧
      ∀ key, (m key).isSome → type.place key/2^(64-k) = v.reverse.toNat/2^(64-k) → ∃ val, (key,val) ∈ es := by
  obtain ⟨k,es,hk,hle,hscan,-,hmem⟩ := h.sound.dictScan hsize hv
  refine ⟨k,es,hk,by omega,hscan,fun key val he => (h.holds key val).mp ((hmem _).mp he).1,fun key hin hplace => ?_⟩
  obtain ⟨val,hval⟩ := Option.isSome_iff_exists.mp hin
  exact ⟨val,(hmem _).mpr ⟨(h.holds key val).mpr hval,hplace⟩⟩

/-- From any cursor on: a scan that is done has reported all keys in front of it that stay, what it reports was there at
some time, and a scan that is not done has made fewer calls than there are places left. -/
theorem DictState.scanRounds [DecidableEq K] {s : Bool × Dict K V} {m : K → Option V} (h : DictState type P n s m)
    (hl : type.Lawful P) {rounds : List (List (DictOp K V))}
    (hops : ∀ op ∈ rounds.flatten, op ≠ .resize ∧ ∀ key ∈ op.key, P key)
    (hn : n+rounds.flatten.length ≤ 1073741824) {v : BitVec 64} (hv : v = 0 ∨ v.toNat < s.2.minSize) :
    ∃ s' es done, Tadpole.scanRounds type s v rounds = some (s',es,done) ∧
      (done = true → ∀ key, (m key).isSome → .delete key ∉ rounds.flatten → v.reverse.toNat ≤ type.place key →
        ∃ val, (key,val) ∈ es) ∧
      (∀ key val, (key,val) ∈ es → m key = some val ∨ ∃ op ∈ rounds.flatten, op.Writes key val) ∧
      (done = false → (v ≠ 0 ∨ rounds ≠ []) →
        2^64*rounds.length+v.reverse.toNat*s'.2.minSize < 2^64*s'.2.minSize) ∧ s.2.minSize ≤ s'.2.minSize := by
  induction rounds generalizing n s m v with
  | nil =>
    refine ⟨s,[],false,rfl,by simp,by simp,fun _ hne => ?_,le_rfl⟩
    have hpos : 0 < s.2.minSize := by
      rcases hv with rfl | hv
      · simp at hne
      · omega
    rw [List.length_nil,Nat.mul_zero,Nat.zero_add]
    exact Nat.mul_lt_mul_of_pos_right v.reverse.isLt hpos
  | cons ops rounds ih =>
    rw [List.flatten_cons] at hops hn
    rw [List.length_append] at hn
    by_cases hsize : s.2.dictSize = 0
    · have hnil : s.2.entries = [] := List.length_eq_zero_iff.mp (h.sound.dictSize.symm.trans hsize)
      refine ⟨s,[],true,by simp [Tadpole.scanRounds,Tadpole.dictScan,hsize],fun _ key hin => ?_,by simp,by simp,le_rfl⟩
      obtain ⟨val,hval⟩ := Option.isSome_iff_exists.mp hin
      have hmem := (h.holds key val).mpr hval
      rw [hnil] at hmem
      cases hmem
    have hlt : v.toNat < s.2.minSize := by
      rcases hv with rfl | hv
      · exact h.sound.minSize_pos hsize
      · exact hv
    obtain ⟨k,es,hk,hle,hscan,hwas,hreport⟩ := h.dictScan hsize hlt
    rcases Bits.next_cases hle v with ⟨hzero,hlast⟩ | ⟨hne,hrev⟩
    · refine ⟨s,es,true,by simp [Tadpole.scanRounds,hscan,hzero],fun _ key hin _ hge => hreport key hin ?_,
        fun key val he => Or.inl (hwas key val he),by simp,le_rfl⟩
      have h₁ : type.place key/2^(64-k) < 2^k :=
        Bits.front_lt hle (BitVec.ofNat 64 (type.hashFunction key).toNat).reverse
      have h₂ := Nat.div_le_div_right (c := 2^(64-k)) hge
      omega
    · obtain ⟨s₁,replies,hrun,hstate,hsizes⟩ := h.between hl
        (fun op hop => hops op (List.mem_append_left _ hop)) (by omega)
      have hfits : (Bits.next k v).toNat < s₁.2.minSize := (Bits.next_lt hle v).trans_le (hk ▸ hsizes)
      obtain ⟨s',rest,done,hrest,hall,honly,hcount,hsizes'⟩ :=
        ih hstate (fun op hop => hops op (List.mem_append_right _ hop)) (by omega) (Or.inr hfits)
      refine ⟨s',es++rest,done,?_,fun hdone key hin hno hge => ?_,fun key val he => ?_,fun hdone _ => ?_,
        hsizes.trans hsizes'⟩
      · simp only [Tadpole.scanRounds,hscan,Option.bind_eq_bind,Option.bind_some,if_neg hne,hrun,hrest]
      · rw [List.flatten_cons,List.mem_append,not_or] at hno
        by_cases hhere : type.place key/2^(64-k) = v.reverse.toNat/2^(64-k)
        · obtain ⟨val,hval⟩ := hreport key hin hhere
          exact ⟨val,List.mem_append_left _ hval⟩
        · have hbehind : (Bits.next k v).reverse.toNat ≤ type.place key := by
            have hfront := Nat.div_le_div_right (c := 2^(64-k)) hge
            rw [hrev]
            exact (Nat.le_div_iff_mul_le (Nat.two_pow_pos _)).mp (by omega)
          obtain ⟨val,hval⟩ := hall hdone key (follow_keeps hno.1 hin) hno.2 hbehind
          exact ⟨val,List.mem_append_right _ hval⟩
      · rw [List.flatten_cons]
        rcases List.mem_append.mp he with he | he
        · exact Or.inl (hwas key val he)
        · rcases honly key val he with hlater | ⟨op,hop,hw⟩
          · rcases follow_brings hlater with hm | ⟨op,hop,hw⟩
            · exact Or.inl hm
            · exact Or.inr ⟨op,List.mem_append_left _ hop,hw⟩
          · exact Or.inr ⟨op,List.mem_append_right _ hop,hw⟩
      · have hlater := hcount hdone (Or.inl hne)
        have hgain := Bits.next_gain hle (hk ▸ hlt) hne (hk ▸ hsizes.trans hsizes')
        rw [List.length_cons,Nat.mul_succ]
        omega

/-- Every scan of a dict in use is defined. Once it is done it has reported all keys that were there from its start to its
end; what it reports was there at its start or was stored since; and before it is done it has made fewer calls than the
smaller table has buckets. -/
theorem scan_reports_all [DecidableEq K] (hl : type.Lawful P) (ops : List (DictOp K V))
    (rounds : List (List (DictOp K V))) (hkeys : ∀ op ∈ ops++rounds.flatten, ∀ key ∈ op.key, P key)
    (hgrows : .resize ∉ rounds.flatten) (hlen : (ops++rounds.flatten).length ≤ 1073741824) :
    ∃ s replies s' es done, Simulation.run (DictOp.step type) (true,dictCreate) ops = some (s,replies) ∧
      scanRounds type s 0 rounds = some (s',es,done) ∧
      (done = true → ∀ key, ((Simulation.follow DictOp.onMap (fun _ => none) ops).1 key).isSome →
        .delete key ∉ rounds.flatten → ∃ val, (key,val) ∈ es) ∧
      (∀ key val, (key,val) ∈ es → (Simulation.follow DictOp.onMap (fun _ => none) ops).1 key = some val ∨
        .add key val ∈ rounds.flatten ∨ .replace key val ∈ rounds.flatten) ∧
      (done = false → rounds ≠ [] → rounds.length < s'.2.minSize) := by
  rw [List.length_append] at hlen
  obtain ⟨s,hrun,hstate⟩ := (dictCreate_state type P).run hl
    (fun op hop => hkeys op (List.mem_append_left _ hop)) (by omega)
  have hops : ∀ op ∈ rounds.flatten, op ≠ .resize ∧ ∀ key ∈ op.key, P key := fun op hop =>
    ⟨fun he => hgrows (he ▸ hop),hkeys op (List.mem_append_right _ hop)⟩
  obtain ⟨s',es,done,hscan,hall,honly,hcount,-⟩ := hstate.scanRounds hl hops (by omega) (Or.inl rfl)
  refine ⟨s,_,s',es,done,hrun,hscan,fun hdone key hin hno => hall hdone key hin hno ?_,fun key val he => ?_,
    fun hdone hne => ?_⟩
  · rw [Bits.reverse_zero]
    exact Nat.zero_le _
  · refine (honly key val he).imp_right ?_
    rintro ⟨op,hop,rfl | rfl⟩
    · exact Or.inl hop
    · exact Or.inr hop
  · have hless := hcount hdone (Or.inr hne)
    rw [Bits.reverse_zero] at hless
    simpa using hless

/-- A key stays while the dict grows around it in the midst of a scan. -/
theorem scan_reports_all_growing : ∃ s replies s' es,
    Simulation.run (DictOp.step ⟨UInt32.ofNat,fun a b : ℕ => a == b⟩) (true,dictCreate)
      [.add 0 0,.add 1 0,.add 2 0,.add 7 5] = some (s,replies) ∧
    scanRounds ⟨UInt32.ofNat,fun a b : ℕ => a == b⟩ s 0 [[.add 4 0],[.add 5 0,.delete 0],[.rehash 9],[],[],[]] =
      some (s',es,true) ∧ ∃ val, (7,val) ∈ es := by
  obtain ⟨s,replies,s',es,done,hrun,hscan,hall,-⟩ := scan_reports_all (V:=ℕ) (P:=fun _ => True)
    (show DictType.Lawful ⟨UInt32.ofNat,fun a b : ℕ => a == b⟩ _ from fun a b _ _ => beq_iff_eq)
    [.add 0 0,.add 1 0,.add 2 0,.add 7 5] [[.add 4 0],[.add 5 0,.delete 0],[.rehash 9],[],[],[]]
    (fun _ _ _ _ => trivial) (by simp) (by decide)
  have hdone : ((Simulation.run (DictOp.step ⟨UInt32.ofNat,fun a b : ℕ => a == b⟩) (true,dictCreate)
      [.add 0 0,.add 1 0,.add 2 0,.add 7 5]).bind fun r => (scanRounds ⟨UInt32.ofNat,fun a b : ℕ => a == b⟩ r.1 0
        [[.add 4 0],[.add 5 0,.delete 0],[.rehash 9],[],[],[]]).map fun q => q.2.2) = some true := by decide +kernel
  rw [hrun,Option.bind_some,hscan,Option.map_some] at hdone
  obtain rfl : done = true := Option.some.inj hdone
  exact ⟨s,replies,s',es,hrun,hscan,hall rfl 7 (by simp [Simulation.follow,DictOp.onMap]) (by simp)⟩

-- A table that shrinks to a quarter can hide an entry: the loop over the expansions counts upwards from the cursor, which
-- in the order of the reversals may lie behind some that were not reported yet.
example : ((Simulation.run (DictOp.step ⟨UInt32.ofNat,fun a b : ℕ => a == b⟩) (true,dictCreate)
    ((List.range 10).map (fun key => .add key 0)++[.rehash 9]++[0,1,2,3,5,6,7,8,9].map .delete)).bind fun r =>
      (scanRounds ⟨UInt32.ofNat,fun a b : ℕ => a == b⟩ r.1 0 [[.resize],[],[],[],[]]).map Prod.snd) =
    some ([],true) := by
  decide +kernel

theorem Dict.Sound.scan_alone {d : Dict K V} (h : d.Sound type P) (hsize : d.dictSize ≠ 0) (canResize : Bool) {k : ℕ}
    (hk : d.minSize = 2^k) {calls : ℕ} {v : BitVec 64} (hv : v.toNat < d.minSize)
    (hcalls : 2^k ≤ v.reverse.toNat/2^(64-k)+calls) :
    ∃ es, scanRounds type (canResize,d) v (List.replicate calls []) = some ((canResize,d),es,true) ∧ es.Nodup ∧
      ∀ e, e ∈ es ↔ e ∈ d.entries ∧ v.reverse.toNat/2^(64-k) ≤ type.place e.1/2^(64-k) := by
  have hle : k ≤ 64 := by
    obtain ⟨k',es,hk',hle,-⟩ := h.dictScan hsize hv
    obtain rfl : k = k' := Nat.pow_right_injective le_rfl (hk.symm.trans hk')
    omega
  have hplace : ∀ key, type.place key/2^(64-k) < 2^k := fun key =>
    Bits.front_lt hle (BitVec.ofNat 64 (type.hashFunction key).toNat).reverse
  induction calls generalizing v with
  | zero =>
    have := Bits.front_lt hle v.reverse
    omega
  | succ calls ih =>
    obtain ⟨k',es,hk',-,hscan,hnodup,hmem⟩ := h.dictScan hsize hv
    obtain rfl : k = k' := Nat.pow_right_injective le_rfl (hk.symm.trans hk')
    rw [List.replicate_succ]
    rcases Bits.next_cases hle v with ⟨hzero,hlast⟩ | ⟨hne,hrev⟩
    · refine ⟨es,by simp [scanRounds,hscan,hzero],hnodup,fun e => ?_⟩
      rw [hmem]
      refine and_congr_right fun _ => ?_
      have := hplace e.1
      omega
    · have hv' : (Bits.next k v).toNat < d.minSize := hk ▸ Bits.next_lt hle v
      have hfront' : (Bits.next k v).reverse.toNat/2^(64-k) = v.reverse.toNat/2^(64-k)+1 := by
        rw [hrev,Nat.mul_div_cancel _ (Nat.two_pow_pos _)]
      obtain ⟨rest,hrest,hnodup',hmem'⟩ := ih hv' (by omega)
      refine ⟨es++rest,?_,hnodup.append hnodup' fun e he he' => ?_,fun e => ?_⟩
      · simp only [scanRounds,hscan,Option.bind_eq_bind,Option.bind_some,if_neg hne,Simulation.run,hrest]
      · have h₁ := ((hmem e).mp he).2
        have h₂ := ((hmem' e).mp he').2
        omega
      · rw [List.mem_append,hmem,hmem',← and_or_left,hfront']
        refine and_congr_right fun _ => ?_
        omega

/-- A scan with nothing in between takes no more calls than the smaller table has buckets, also while entries are moved
from one table to the other, and reports every binding of the map once. -/
theorem scan_alone_reports_once [DecidableEq K] (hl : type.Lawful P) (ops : List (DictOp K V))
    (hkeys : ∀ op ∈ ops, ∀ key ∈ op.key, P key) (hlen : ops.length ≤ 1073741824) :
    ∃ s replies, Simulation.run (DictOp.step type) (true,dictCreate) ops = some (s,replies) ∧
      ∀ calls, s.2.minSize ≤ calls → 0 < calls →
        ∃ es, scanRounds type s 0 (List.replicate calls []) = some (s,es,true) ∧ (es.map Prod.fst).Nodup ∧
          ∀ key val, (key,val) ∈ es ↔
            (Simulation.follow DictOp.onMap (fun _ => none) ops).1 key = some val := by
  obtain ⟨s,hrun,hstate⟩ := (dictCreate_state type P).run hl hkeys (by omega)
  refine ⟨s,_,hrun,fun calls hcalls hpos => ?_⟩
  by_cases hsize : s.2.dictSize = 0
  · obtain ⟨calls,rfl⟩ : ∃ c, calls = c+1 := ⟨calls-1,by omega⟩
    have hnil : s.2.entries = [] := List.length_eq_zero_iff.mp (hstate.sound.dictSize.symm.trans hsize)
    refine ⟨[],by simp [List.replicate_succ,scanRounds,dictScan,hsize],List.nodup_nil,fun key val => ?_⟩
    rw [← hstate.holds key val,hnil]
  · have hlt : (0 : BitVec 64).toNat < s.2.minSize := hstate.sound.minSize_pos hsize
    obtain ⟨k,-,hk,-⟩ := hstate.sound.dictScan hsize hlt
    obtain ⟨es,hscan,hnodup,hmem⟩ := hstate.sound.scan_alone hsize s.1 hk hlt (hk ▸ hcalls.trans (Nat.le_add_left _ _))
    have hfront : (0 : BitVec 64).reverse.toNat/2^(64-k) = 0 := by
      rw [Bits.reverse_zero]
      exact Nat.zero_div _
    have hall : ∀ e, e ∈ es ↔ e ∈ s.2.entries := fun e => by
      rw [hmem,hfront]
      simp
    have hperm : es.Perm s.2.entries :=
      (List.perm_ext_iff_of_nodup hnodup (List.Nodup.of_map _ hstate.sound.nodup)).mpr hall
    refine ⟨es,hscan,(hperm.map _).nodup_iff.mpr hstate.sound.nodup,fun key val => ?_⟩
    rw [hall,hstate.holds key val]

/-- Five entries, of which some are in the old table still. -/
theorem scan_alone_reports_once_five : ∃ s replies,
    Simulation.run (DictOp.step ⟨UInt32.ofNat,fun a b : ℕ => a == b⟩) (true,dictCreate)
      [.add 0 0,.add 1 0,.add 2 0,.add 3 0,.add 4 6] = some (s,replies) ∧
    ∀ calls, s.2.minSize ≤ calls → 0 < calls →
      ∃ es, scanRounds ⟨UInt32.ofNat,fun a b : ℕ => a == b⟩ s 0 (List.replicate calls []) = some (s,es,true) ∧
        (4,6) ∈ es := by
  obtain ⟨s,replies,hrun,hscan⟩ := scan_alone_reports_once (V:=ℕ) (P:=fun _ => True)
    (show DictType.Lawful ⟨UInt32.ofNat,fun a b : ℕ => a == b⟩ _ from fun a b _ _ => beq_iff_eq)
    [.add 0 0,.add 1 0,.add 2 0,.add 3 0,.add 4 6] (fun _ _ _ _ => trivial) (by decide)
  refine ⟨s,replies,hrun,fun calls hcalls hpos => ?_⟩
  obtain ⟨es,hes,-,hmem⟩ := hscan calls hcalls hpos
  exact ⟨es,hes,(hmem 4 6).mpr (by simp [Simulation.follow,DictOp.onMap])⟩

end

end Tadpole
