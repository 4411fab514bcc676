import Mathlib.Data.Set.Card
import Mathlib.Logic.Function.Basic
import Tadpole.DictUpdate
import Tadpole.Lib.Simulation

/-! Any run of calls on a dict, with entries in two tables part of the time, answers as a finite map does;
and how full the tables get. -/
namespace Tadpole

variable {K V : Type}

/-- The calls of dict.h on one dict, and the two switches of `dict_can_resize`. -/
inductive DictOp (K V : Type)
  | add (key : K) (val : V)
  | replace (key : K) (val : V)
  | delete (key : K)
  | find (key : K)
  | fetchValue (key : K)
  | rehash (n : ℕ)
  | resize
  | enableResize
  | disableResize

/-- What a caller can see of a call; how far the rehashing has come is not of interest to it. -/
inductive DictReply (K V : Type)
  | status (status : DictStatus)
  | added (added : Bool)
  | entry (he : Option (K × V))
  | value (val : Option V)
  | silent
  deriving DecidableEq

namespace DictOp

def key : DictOp K V → Option K
  | add key _ | replace key _ | delete key | find key | fetchValue key => some key
  | rehash _ | resize | enableResize | disableResize => none

def step (type : DictType K) (s : Bool × Dict K V) : DictOp K V → Option ((Bool × Dict K V) × DictReply K V)
  | add key val => (dictAdd type s.1 s.2 key val).map fun r => ((s.1,r.1),.status r.2)
  | replace key val => (dictReplace type s.1 s.2 key val).map fun r => ((s.1,r.1),.added r.2)
  | delete key => (dictDelete type s.2 key).map fun r => ((s.1,r.1),.status r.2)
  | find key => (dictFind type s.2 key).map fun r => ((s.1,r.1),.entry r.2)
  | fetchValue key => (dictFetchValue type s.2 key).map fun r => ((s.1,r.1),.value r.2)
  | rehash n => (dictRehash type s.2 n).map fun r => ((s.1,r.1),.silent)
  | resize => some ((s.1,(dictResize s.1 s.2).1),.silent)
  | enableResize => some ((true,s.2),.silent)
  | disableResize => some ((false,s.2),.silent)

/-- The same call on a map. -/
def onMap [DecidableEq K] (m : K → Option V) : DictOp K V → (K → Option V) × DictReply K V
  | add key val =>
    match m key with
    | none => (Function.update m key (some val),.status .DICT_OK)
    | some _ => (m,.status .DICT_ERR)
  | replace key val => (Function.update m key (some val),.added (m key).isNone)
  | delete key => (Function.update m key none,.status (if (m key).isSome then .DICT_OK else .DICT_ERR))
  | find key => (m,.entry ((m key).map fun val => (key,val)))
  | fetchValue key => (m,.value (m key))
  | rehash _ | resize | enableResize | disableResize => (m,.silent)

end DictOp

def Dict.Holds (d : Dict K V) (m : K → Option V) : Prop := ∀ key val, (key,val) ∈ d.entries ↔ m key = some val

namespace Dict.Holds
variable {d d' : Dict K V} {m : K → Option V} {key : K}

theorem congr (h : d.Holds m) (hp : d'.entries.Perm d.entries) : d'.Holds m := fun key val => by
  rw [hp.mem_iff,h key val]

theorem has (h : d.Holds m) : d.Has key ↔ (m key).isSome := by
  constructor
  · rintro ⟨⟨k,v⟩,he,rfl⟩
    rw [(h k v).mp he]
    rfl
  · intro hs
    obtain ⟨v,hv⟩ := Option.isSome_iff_exists.mp hs
    exact ⟨(key,v),(h key v).mpr hv,rfl⟩

theorem none_iff (h : d.Holds m) : ¬ d.Has key ↔ m key = none := by
  rw [h.has]
  simp

theorem cons [DecidableEq K] {l : List (K × V)} (hl : ∀ k v, (k,v) ∈ l ↔ k ≠ key ∧ m k = some v) {val : V}
    (hp : d'.entries.Perm ((key,val)::l)) : d'.Holds (Function.update m key (some val)) := by
  intro k v
  rw [hp.mem_iff,List.mem_cons,hl,Function.update_apply]
  split_ifs with hk
  · simp [hk,eq_comm]
  · simp [hk]

theorem rest (h : d.Holds m) (hn : (d.entries.map Prod.fst).Nodup) {val : V} {l : List (K × V)}
    (hp : d.entries.Perm ((key,val)::l)) (k : K) (v : V) : (k,v) ∈ l ↔ k ≠ key ∧ m k = some v := by
  have hn' := List.nodup_cons.mp ((hp.map Prod.fst).nodup_iff.mp hn)
  rw [← h k v,hp.mem_iff,List.mem_cons]
  constructor
  · intro hm
    have hne : k ≠ key := fun hk => hn'.1 (List.mem_map.mpr ⟨(k,v),hm,hk⟩)
    exact ⟨hne,Or.inr hm⟩
  · rintro ⟨hne,he | hm⟩
    · exact absurd (Prod.mk.inj he).1 hne
    · exact hm

end Dict.Holds

/-- What holds of the flag and the dict after `n` of the calls. -/
structure DictState (type : DictType K) (P : K → Prop) (n : ℕ) (s : Bool × Dict K V) (m : K → Option V) : Prop where
  sound : s.2.Sound type P
  holds : s.2.Holds m
  size : s.2.dictSize ≤ n

section
variable {type : DictType K} {P : K → Prop} {n : ℕ} {s : Bool × Dict K V} {m : K → Option V}

theorem DictState.same (h : DictState type P n s m) {d' : Dict K V} (hs : d'.Sound type P)
    (hp : d'.entries.Perm s.2.entries) (canResize : Bool) : DictState type P (n+1) (canResize,d') m where
  sound := hs
  holds := h.holds.congr hp
  size := by
    have := h.size
    rw [h.sound.dictSize] at this
    rw [hs.dictSize,hp.length_eq]
    omega

theorem DictState.added [DecidableEq K] (h : DictState type P n s m) {d' : Dict K V} {key : K} {val : V} (hs : d'.Sound type P)
    (hno : m key = none) (hp : d'.entries.Perm ((key,val)::s.2.entries)) :
    DictState type P (n+1) (s.1,d') (Function.update m key (some val)) where
  sound := hs
  holds := by
    refine Dict.Holds.cons (fun k v => ?_) hp
    rw [h.holds k v]
    refine ⟨fun hk => ⟨?_,hk⟩,And.right⟩
    rintro rfl
    rw [hno] at hk
    cases hk
  size := by
    have := h.size
    rw [h.sound.dictSize] at this
    rw [hs.dictSize,hp.length_eq,List.length_cons]
    omega

/-- Each call answers as the map does, whatever the rehashing has done so far. -/
theorem DictState.step [DecidableEq K] (h : DictState type P n s m) (hl : type.Lawful P) (hn : n < 1073741824)
    {op : DictOp K V} (hp : ∀ key ∈ op.key, P key) :
    ∃ s', op.step type s = some (s',(op.onMap m).2) ∧ DictState type P (n+1) s' (op.onMap m).1 := by
  have hu : s.2.dictSize ≤ 1073741824 := h.size.trans hn.le
  cases op with
  | add key val =>
    obtain ⟨d',added,hd',hsound,-,hcase,-⟩ := h.sound.dictAddRaw s.1 hl (hp key rfl) val hu
    rcases hcase with ⟨hin,rfl,hperm⟩ | ⟨hno,rfl,hperm⟩
    · obtain ⟨v,hv⟩ := Option.isSome_iff_exists.mp (h.holds.has.mp hin)
      exact ⟨(s.1,d'),by simp [DictOp.step,DictOp.onMap,dictAdd,hd',hv],by
        simpa [DictOp.onMap,hv] using h.same hsound hperm s.1⟩
    · have hnone := h.holds.none_iff.mp hno
      exact ⟨(s.1,d'),by simp [DictOp.step,DictOp.onMap,dictAdd,hd',hnone],by
        simpa [DictOp.onMap,hnone] using h.added hsound hnone hperm⟩
  | replace key val =>
    obtain ⟨d',added,hd',hsound,-,hcase,-⟩ := h.sound.dictReplace s.1 hl (hp key rfl) val hu
    rcases hcase with ⟨hno,rfl,hperm⟩ | ⟨rfl,old,l,hold,hnew⟩
    · have hnone := h.holds.none_iff.mp hno
      exact ⟨(s.1,d'),by simp [DictOp.step,DictOp.onMap,hd',hnone],h.added hsound hnone hperm⟩
    · have hin : m key = some old := (h.holds key old).mp (hold.mem_iff.mpr (by simp))
      refine ⟨(s.1,d'),by simp [DictOp.step,DictOp.onMap,hd',hin],hsound,
        Dict.Holds.cons (h.holds.rest h.sound.nodup hold) hnew,?_⟩
      have := h.size
      rw [h.sound.dictSize,hold.length_eq] at this
      rw [hsound.dictSize,hnew.length_eq]
      exact Nat.le_succ_of_le this
  | delete key =>
    obtain ⟨d',status,hd',hsound,-,hcase,-⟩ := h.sound.dictDelete hl (hp key rfl)
    rcases hcase with ⟨hno,rfl,hperm⟩ | ⟨rfl,val,hperm⟩
    · have hnone := h.holds.none_iff.mp hno
      refine ⟨(s.1,d'),by simp [DictOp.step,DictOp.onMap,hd',hnone],?_⟩
      have hsame : Function.update m key none = m := by rw [← hnone,Function.update_eq_self]
      simpa [DictOp.onMap,hsame] using h.same hsound hperm s.1
    · have hin : m key = some val := (h.holds key val).mp (hperm.mem_iff.mpr (by simp))
      refine ⟨(s.1,d'),by simp [DictOp.step,DictOp.onMap,hd',hin],hsound,fun k v => ?_,?_⟩
      · rw [h.holds.rest h.sound.nodup hperm]
        dsimp only [DictOp.onMap]
        rw [Function.update_apply]
        split_ifs with hk <;> simp [hk]
      · have := h.size
        rw [h.sound.dictSize,hperm.length_eq,List.length_cons] at this
        rw [hsound.dictSize]
        omega
  | find key =>
    obtain ⟨d',r,hd',hsound,hperm,-,hspec,-⟩ := h.sound.dictFind hl (hp key rfl)
    refine ⟨(s.1,d'),?_,h.same hsound hperm s.1⟩
    have hr : r = (m key).map fun val => (key,val) := by
      ext ⟨k,v⟩
      rw [hspec,h.holds k v]
      simp only [Option.map_eq_some_iff,Prod.mk.injEq]
      constructor
      · rintro ⟨hm,rfl⟩
        exact ⟨v,hm,rfl,rfl⟩
      · rintro ⟨v',hm,rfl,rfl⟩
        exact ⟨hm,rfl⟩
    simp [DictOp.step,DictOp.onMap,hd',hr]
  | fetchValue key =>
    obtain ⟨d',r,hd',hsound,hperm,-,hspec,-⟩ := h.sound.dictFind hl (hp key rfl)
    refine ⟨(s.1,d'),?_,h.same hsound hperm s.1⟩
    have hr : r.map Prod.snd = m key := by
      ext v
      simp only [Option.map_eq_some_iff,hspec]
      constructor
      · rintro ⟨⟨k,v'⟩,⟨hm,rfl⟩,rfl⟩
        exact (h.holds k v').mp hm
      · exact fun hm => ⟨(key,v),⟨(h.holds key v).mpr hm,rfl⟩,rfl⟩
    simp [DictOp.step,DictOp.onMap,dictFetchValue,hd',hr]
  | rehash k =>
    obtain ⟨d',hd',hsound,hperm,-⟩ := h.sound.dictRehash k
    exact ⟨(s.1,d'),by simp [DictOp.step,DictOp.onMap,hd'],h.same hsound hperm s.1⟩
  | resize =>
    obtain ⟨hsound,hentries,-⟩ := h.sound.dictResize s.1 hu
    exact ⟨_,rfl,h.same hsound (hentries ▸ List.Perm.refl _) s.1⟩
  | enableResize => exact ⟨_,rfl,h.same h.sound (List.Perm.refl _) true⟩
  | disableResize => exact ⟨_,rfl,h.same h.sound (List.Perm.refl _) false⟩

/-- The calls with which a dict only grows: no resizing on demand, and none forbidden. -/
def DictOp.Grows : DictOp K V → Prop
  | resize | disableResize => False
  | _ => True

/-- With no iterator about and resizing allowed, the tables stay roomy. -/
structure Unhindered (s : Bool × Dict K V) : Prop where
  canResize : s.1 = true
  iterators : s.2.iterators = 0
  roomy : s.2.Roomy 1

theorem Unhindered.step (hr : Unhindered s) (h : s.2.Sound type P) (hl : type.Lawful P)
    (hu : s.2.dictSize ≤ 1073741824) {op : DictOp K V} (hp : ∀ key ∈ op.key, P key) (hg : op.Grows)
    {s' : Bool × Dict K V} {r : DictReply K V} (hs : op.step type s = some (s',r)) : Unhindered s' := by
  have hit := hr.iterators
  cases op with
  | add key val =>
    obtain ⟨d',added,hd',-,hit',-,hroom⟩ := h.dictAddRaw s.1 hl (hp key rfl) val hu
    obtain ⟨rfl,-⟩ : (s.1,d') = s' ∧ _ := by simpa [DictOp.step,dictAdd,hd'] using hs
    exact ⟨hr.canResize,hit'.trans hit,hroom hr.canResize hit hr.roomy⟩
  | replace key val =>
    obtain ⟨d',added,hd',-,hit',-,hroom⟩ := h.dictReplace s.1 hl (hp key rfl) val hu
    obtain ⟨rfl,-⟩ : (s.1,d') = s' ∧ _ := by simpa [DictOp.step,hd'] using hs
    exact ⟨hr.canResize,hit'.trans hit,hroom hr.canResize hit hr.roomy⟩
  | delete key =>
    obtain ⟨d',status,hd',-,hit',-,hroom⟩ := h.dictDelete hl (hp key rfl)
    obtain ⟨rfl,-⟩ : (s.1,d') = s' ∧ _ := by simpa [DictOp.step,hd'] using hs
    exact ⟨hr.canResize,hit'.trans hit,hroom hr.roomy⟩
  | find key =>
    obtain ⟨d',r',hd',hsound,-,hit',-,hcase⟩ := h.dictFind hl (hp key rfl)
    obtain ⟨rfl,-⟩ : (s.1,d') = s' ∧ _ := by simpa [DictOp.step,hd'] using hs
    exact ⟨hr.canResize,hit'.trans hit,hr.roomy.step h hsound hcase⟩
  | fetchValue key =>
    obtain ⟨d',r',hd',hsound,-,hit',-,hcase⟩ := h.dictFind hl (hp key rfl)
    obtain ⟨rfl,-⟩ : (s.1,d') = s' ∧ _ := by simpa [DictOp.step,dictFetchValue,hd'] using hs
    exact ⟨hr.canResize,hit'.trans hit,hr.roomy.step h hsound hcase⟩
  | rehash k =>
    obtain ⟨d',hd',-,-,hit',hroom,-⟩ := h.dictRehash k
    obtain ⟨rfl,-⟩ : (s.1,d') = s' ∧ _ := by simpa [DictOp.step,hd'] using hs
    exact ⟨hr.canResize,hit'.trans hit,hroom hr.roomy⟩
  | resize => exact hg.elim
  | enableResize =>
    obtain ⟨rfl,-⟩ : (true,s.2) = s' ∧ _ := by simpa [DictOp.step] using hs
    exact ⟨rfl,hit,hr.roomy⟩
  | disableResize => exact hg.elim

theorem dictCreate_state (type : DictType K) (P : K → Prop) :
    DictState type P 0 (true,(dictCreate : Dict K V)) fun _ => none where
  sound := dictCreate_sound type P
  holds := by simp [Dict.Holds,Dict.entries,dictCreate,dictReset]
  size := le_rfl

theorem DictState.dictSize (h : DictState type P n s m) : s.2.dictSize = {key | m key ≠ none}.ncard := by
  classical
  have hset : {key | m key ≠ none} = ((s.2.entries.map Prod.fst).toFinset : Set K) := by
    ext key
    simp only [Set.mem_ofPred_eq,Finset.mem_coe,List.mem_toFinset,List.mem_map]
    rw [ne_eq,← h.holds.none_iff,not_not]
    exact Iff.rfl
  rw [hset,Set.ncard_coe_finset,List.toFinset_card_of_nodup h.sound.nodup,List.length_map,h.sound.dictSize]

/-- A run of calls keeps step with the map. -/
theorem DictState.run [DecidableEq K] (h : DictState type P n s m) (hl : type.Lawful P) {ops : List (DictOp K V)}
    (hkeys : ∀ op ∈ ops, ∀ key ∈ op.key, P key) (hn : n+ops.length ≤ 1073741824) :
    ∃ s', Simulation.run (DictOp.step type) s ops = some (s',(Simulation.follow DictOp.onMap m ops).2) ∧
      DictState type P (n+ops.length) s' (Simulation.follow DictOp.onMap m ops).1 := by
  have hstep : ∀ n < 1073741824, ∀ (s : Bool × Dict K V) m (op : DictOp K V), DictState type P n s m →
      (∀ key ∈ op.key, P key) →
        ∃ s', op.step type s = some (s',(op.onMap m).2) ∧ DictState type P (n+1) s' (op.onMap m).1 :=
    fun n hn s m op h hp => h.step hl hn hp
  exact Simulation.run_follows hstep hkeys hn h

/-- From an empty dict, every run of calls is defined, no assertion of it fails, and every answer is that
of a finite map: entries are neither lost nor doubled while they are moved, and the dict counts them. -/
theorem dict_runs_as_map [DecidableEq K] (hl : type.Lawful P) (ops : List (DictOp K V))
    (hkeys : ∀ op ∈ ops, ∀ key ∈ op.key, P key) (hlen : ops.length ≤ 1073741824) :
    ∃ s, Simulation.run (DictOp.step type) (true,dictCreate) ops =
        some (s,(Simulation.follow DictOp.onMap (fun _ => none) ops).2) ∧
      (∀ key val, (key,val) ∈ s.2.entries ↔
        (Simulation.follow DictOp.onMap (fun _ => none) ops).1 key = some val) ∧
      (s.2.entries.map Prod.fst).Nodup ∧
      s.2.dictSize = {key | (Simulation.follow DictOp.onMap (fun _ => none) ops).1 key ≠ none}.ncard := by
  obtain ⟨s,hrun,hstate⟩ := (dictCreate_state type P).run hl hkeys (by omega)
  exact ⟨s,hrun,hstate.holds,hstate.sound.nodup,hstate.dictSize⟩

/-- Five keys in one bucket, the fifth of them added behind the growth. -/
theorem dict_runs_as_map_chain : ∃ s, Simulation.run (DictOp.step ⟨UInt32.ofNat,fun a b : ℕ => a == b⟩)
    (true,dictCreate) [.add 0 1,.add 4 2,.add 8 3,.add 12 4,.add 16 5,.find 8,.delete 4,.fetchValue 4,.add 0 6] =
      some (s,[.status .DICT_OK,.status .DICT_OK,.status .DICT_OK,.status .DICT_OK,.status .DICT_OK,
        .entry (some (8,3)),.status .DICT_OK,.value none,.status .DICT_ERR]) := by
  obtain ⟨s,h,-⟩ := dict_runs_as_map (V:=ℕ) (P:=fun _ => True)
    (show DictType.Lawful ⟨UInt32.ofNat,fun a b : ℕ => a == b⟩ _ from fun a b _ _ => beq_iff_eq)
    [.add 0 1,.add 4 2,.add 8 3,.add 12 4,.add 16 5,.find 8,.delete 4,.fetchValue 4,.add 0 6]
    (fun _ _ _ _ => trivial) (by decide)
  exact ⟨s,h⟩

/-- In every run of calls with which a dict only grows there is at most one entry more than the newest
table has buckets, and rehashing for as many rounds as the old table has buckets, and one, ends it. -/
theorem dict_stays_roomy [DecidableEq K] (hl : type.Lawful P) (ops : List (DictOp K V))
    (hkeys : ∀ op ∈ ops, op.Grows ∧ ∀ key ∈ op.key, P key) (hlen : ops.length ≤ 1073741824) :
    ∃ s replies, Simulation.run (DictOp.step type) (true,dictCreate) ops = some (s,replies) ∧
      s.2.dictSize ≤ (if s.2.isRehashing then s.2.ht1.size else s.2.ht0.size)+1 ∧
      ∃ d', dictRehash type s.2 (s.2.ht0.size+1) = some (d',false) ∧ d'.entries.Perm s.2.entries ∧
        d'.ht1 = dictReset ∧ d'.dictSize ≤ d'.ht0.size+1 := by
  have hstep : ∀ n < 1073741824, ∀ (s : Bool × Dict K V) m (op : DictOp K V),
      DictState type P n s m ∧ Unhindered s → (op.Grows ∧ ∀ key ∈ op.key, P key) →
        ∃ s', op.step type s = some (s',(op.onMap m).2) ∧
          DictState type P (n+1) s' (op.onMap m).1 ∧ Unhindered s' := by
    intro n hn s m op h hp
    obtain ⟨s',hs',hstate⟩ := h.1.step hl hn hp.2
    exact ⟨s',hs',hstate,h.2.step h.1.sound hl (h.1.size.trans hn.le) hp.2 hp.1 hs'⟩
  have hstart : Unhindered (true,(dictCreate : Dict K V)) :=
    ⟨rfl,rfl,by simp [Dict.Roomy,dictCreate,Dict.dictSize,dictReset]⟩
  obtain ⟨s,hrun,hstate,hfree⟩ := Simulation.run_follows hstep hkeys (show 0+ops.length ≤ 1073741824 by omega)
    ⟨dictCreate_state type P,hstart⟩
  have hroomy := hfree.roomy
  obtain ⟨d',hd',hsound,hperm,-,hroom,hdone⟩ := hstate.sound.dictRehash (s.2.ht0.size+1)
  have hidle : d'.isRehashing = false := hdone fun i _ => by omega
  have hnone : d'.rehashidx = none := by simpa [Dict.isRehashing] using hidle
  refine ⟨s,_,hrun,?_,d',hidle ▸ hd',hperm,hsound.idle hnone,(Dict.roomy_idle hnone).mp (hroom hroomy)⟩
  cases hi : s.2.rehashidx with
  | none =>
    rw [Dict.roomy_idle hi] at hroomy
    simpa [Dict.isRehashing,hi] using hroomy
  | some i =>
    rw [Dict.roomy_busy hi] at hroomy
    simp only [Dict.isRehashing,hi,Option.isSome_some,if_true]
    omega

/-- Five entries while four of them are still to move. -/
theorem dict_stays_roomy_five : ∃ s replies,
    Simulation.run (DictOp.step ⟨UInt32.ofNat,fun a b : ℕ => a == b⟩) (true,dictCreate)
      [.add 0 0,.add 1 0,.add 2 0,.add 3 0,.add 4 0] = some (s,replies) ∧
    s.2.dictSize ≤ (if s.2.isRehashing then s.2.ht1.size else s.2.ht0.size)+1 := by
  obtain ⟨s,replies,h₁,h₂,-⟩ := dict_stays_roomy (V:=ℕ) (P:=fun _ => True)
    (show DictType.Lawful ⟨UInt32.ofNat,fun a b : ℕ => a == b⟩ _ from fun a b _ _ => beq_iff_eq)
    [.add 0 0,.add 1 0,.add 2 0,.add 3 0,.add 4 0] (by simp [DictOp.Grows]) (by decide)
  exact ⟨s,replies,h₁,h₂⟩

end

end Tadpole
