import Tadpole.LiveServer
import Tadpole.Replies

/-! The server on its hash tables keeps step with the server on the set of its keys. -/
namespace Tadpole

open Simulation

/-- The hash table holds the keys of the set, as many as insertions were made at most, and all else is the
same. -/
structure Live (n : ℕ) (l : LiveServer) (s : Server) : Prop where
  fl : l.fl = s.fl
  mem : l.mem = s.mem
  commands : CommandsReady l.commands
  sound : l.dict.Sound slDictType ShortKey
  keys : ∀ key, l.dict.Has key ↔ key ∈ s.dict
  size : l.dict.dictSize ≤ n

namespace Live
variable {n : ℕ} {l : LiveServer} {s : Server}

theorem view (h : Live n l s) : l.view = s := by
  have hkeys : (l.dict.entries.map Prod.fst).toFinset = s.dict := by
    ext key
    rw [List.mem_toFinset,List.mem_map,← h.keys key]
    rfl
  unfold LiveServer.view
  rw [h.fl,h.mem,hkeys]

theorem mono (h : Live n l s) : Live (n+1) l s := {h with size := Nat.le_succ_of_le h.size}

theorem withMem (h : Live n l s) (m : Mem) : Live n {l with mem := m} {s with mem := m} :=
  ⟨h.fl,rfl,h.commands,h.sound,h.keys,h.size⟩

theorem find (h : Live n l s) {key : Bytes} (hk : ShortKey key) :
    ∃ dict de, dictFind slDictType l.dict key = some (dict,de) ∧ (de.isSome ↔ key ∈ s.dict) ∧
      Live n {l with dict} s := by
  obtain ⟨dict,de,hd,hsound,hperm,-,hspec,-⟩ := h.sound.dictFind slDictType_lawful hk
  refine ⟨dict,de,hd,?_,h.fl,h.mem,h.commands,hsound,fun k => ?_,?_⟩
  · rw [← h.keys key,Option.isSome_iff_exists]
    exact exists_congr hspec
  · rw [← h.keys k]
    simp only [Dict.Has,hperm.mem_iff]
  · have := h.size
    rw [h.sound.dictSize] at this
    rwa [hsound.dictSize,hperm.length_eq]

theorem add (h : Live n l s) (hn : n < 1073741824) {key : Bytes} (hk : ShortKey key) :
    ∃ dict added, dictAddRaw slDictType true l.dict key () = some (dict,added) ∧
      Live (n+1) {l with dict} {s with dict := insert key s.dict} := by
  obtain ⟨dict,added,hd,hsound,-,hcase,-⟩ :=
    h.sound.dictAddRaw true slDictType_lawful hk () (h.size.trans hn.le)
  have hsize := h.size
  rw [h.sound.dictSize] at hsize
  refine ⟨dict,added,hd,h.fl,h.mem,h.commands,hsound,fun k => ?_,?_⟩
  · rw [Finset.mem_insert,← h.keys k]
    rcases hcase with ⟨hin,-,hperm⟩ | ⟨-,-,hperm⟩
    · simp only [Dict.Has,hperm.mem_iff]
      refine ⟨Or.inr,?_⟩
      rintro (rfl | hk')
      · exact hin
      · exact hk'
    · simp only [Dict.Has,hperm.mem_iff,List.mem_cons,exists_eq_or_imp]
      exact or_congr_left eq_comm
  · rw [hsound.dictSize]
    rcases hcase with ⟨-,-,hperm⟩ | ⟨-,-,hperm⟩
    · rw [hperm.length_eq]
      exact Nat.le_succ_of_le hsize
    · rw [hperm.length_eq,List.length_cons]
      exact Nat.succ_le_succ hsize

theorem delete (h : Live n l s) {key : Bytes} (hk : ShortKey key) :
    ∃ dict status, dictDelete slDictType l.dict key = some (dict,status) ∧
      Live n {l with dict} {s with dict := s.dict.erase key} := by
  obtain ⟨dict,status,hd,hsound,-,hcase,-⟩ := h.sound.dictDelete slDictType_lawful hk
  have hsize := h.size
  rw [h.sound.dictSize] at hsize
  refine ⟨dict,status,hd,h.fl,h.mem,h.commands,hsound,fun k => ?_,?_⟩
  · rw [Finset.mem_erase,← h.keys k]
    rcases hcase with ⟨hno,-,hperm⟩ | ⟨-,val,hperm⟩
    · simp only [Dict.Has,hperm.mem_iff]
      refine ⟨fun hk' => ⟨?_,hk'⟩,And.right⟩
      rintro rfl
      exact hno hk'
    · have hnodup := (hperm.map Prod.fst).nodup_iff.mp h.sound.nodup
      simp only [Dict.Has,hperm.mem_iff,List.mem_cons,exists_eq_or_imp]
      constructor
      · rintro ⟨e,he,rfl⟩
        exact ⟨fun hek => (List.nodup_cons.mp hnodup).1 (List.mem_map.mpr ⟨e,he,hek⟩),Or.inr ⟨e,he,rfl⟩⟩
      · rintro ⟨hne,hkey | hin⟩
        · exact absurd hkey.symm hne
        · exact hin
  · rw [hsound.dictSize]
    rcases hcase with ⟨-,-,hperm⟩ | ⟨-,val,hperm⟩
    · rw [hperm.length_eq]
      exact hsize
    · rw [hperm.length_eq,List.length_cons] at hsize
      omega

theorem getCommand (h : Live n l s) {key : Bytes} (hk : ShortKey key) :
    Agree (Live (n+1)) (l.getCommand key) ((Tadpole.getCommand s key).map fun out => (s,out)) := by
  obtain ⟨dict,de,hd,hin,hlive⟩ := h.find hk
  rw [LiveServer.getCommand,Tadpole.getCommand,h.view]
  cases s.keyError key with
  | some e => exact .answers h.mono
  | none =>
    simp only [hd,Option.bind_eq_bind,Option.bind_some]
    by_cases hk' : key ∈ s.dict
    · obtain ⟨e,rfl⟩ := Option.isSome_iff_exists.mp (hin.mpr hk')
      rw [if_neg (by simp),if_neg (by simpa using hk'),Option.map_eq_bind,← h.mem]
      exact .bind_same _ fun out _ => .answers hlive.mono
    · have hnone : de.isNone := by
        rw [← hin] at hk'
        simpa using hk'
      rw [if_pos hnone,if_pos hk']
      exact .answers hlive.mono

theorem putCommand (h : Live n l s) (hn : n < 1073741824) {key : Bytes} (hk : ShortKey key) (value : Bytes)
    (val : SdsPtr) (d : Draw) :
    Agree (Live (n+1)) (l.putCommand key value val d) (Tadpole.putCommand s key value val d) := by
  obtain ⟨dict,de,hd,hin,hlive⟩ := h.find hk
  rw [LiveServer.putCommand,Tadpole.putCommand,h.view]
  cases s.kvError key value with
  | some e => exact .answers h.mono
  | none =>
    simp only [hd,Option.bind_eq_bind,Option.bind_some]
    by_cases hk' : key ∈ s.dict
    · rw [if_pos (hin.mpr hk'),if_pos hk',← h.mem]
      exact .bind_same _ fun r _ => .answers (hlive.withMem r.2.now).mono
    · obtain ⟨dict',added,hd',hlive'⟩ := hlive.add hn hk
      have hno : ¬ de.isSome := fun hs => hk' (hin.mp hs)
      simp only [if_neg hno,if_neg hk',hd',Option.bind_some]
      rw [← h.mem]
      exact .bind_same _ fun r _ => .answers (hlive'.withMem r.2.now)

theorem deleteCommand (h : Live n l s) {key : Bytes} (hk : ShortKey key) :
    Agree (Live (n+1)) (l.deleteCommand key) (Tadpole.deleteCommand s key) := by
  obtain ⟨dict,de,hd,hin,hlive⟩ := h.find hk
  rw [LiveServer.deleteCommand,Tadpole.deleteCommand,h.view]
  cases s.keyError key with
  | some e => exact .answers h.mono
  | none =>
    simp only [hd,Option.bind_eq_bind,Option.bind_some]
    by_cases hk' : key ∈ s.dict
    · obtain ⟨dict',status,hd',hlive'⟩ := hlive.delete hk
      obtain ⟨e,rfl⟩ := Option.isSome_iff_exists.mp (hin.mpr hk')
      rw [if_neg (by simp),if_neg (by simpa using hk'),← h.mem]
      refine .bind_same _ fun r _ => ?_
      rw [hd']
      exact .answers (hlive'.withMem r.2.now).mono
    · have hnone : de.isNone := by
        rw [← hin] at hk'
        simpa using hk'
      rw [if_pos hnone,if_pos hk']
      exact .answers hlive.mono

theorem call (h : Live n l s) (hn : n < 1073741824) {c : Call} (hc : ∀ a ∈ c.args, ShortKey a) (d : Draw) :
    Agree (Live (n+1)) (l.call d c) (c.run s d) := by
  cases c with
  | get key => exact h.getCommand (hc key (by simp [Call.args]))
  | put key value =>
    have hput := (h.withMem ((⟨l.mem,[]⟩ : Hist).newStr value).2.now).putCommand hn
      (hc key (by simp [Call.args])) value ((⟨l.mem,[]⟩ : Hist).newStr value).1 d
    simp only [LiveServer.call,Call.run,Option.bind_eq_bind,← h.mem]
    refine hput.bind fun l' s' out h' => ?_
    simp only [← h'.mem]
    exact .bind_same _ fun m _ => .answers (h'.withMem m.now)
  | delete key => exact h.deleteCommand (hc key (by simp [Call.args]))
  | scan start stop =>
    simp only [LiveServer.call,Call.run,h.view,Option.map_eq_bind]
    exact .bind_same _ fun out _ => .answers h.mono
  | info =>
    simp only [LiveServer.call,Call.run,h.view,Option.map_eq_bind]
    exact .bind_same _ fun out _ => .answers h.mono

theorem resolve (h : Live n l s) (argv : List Bytes) :
    (l.resolve argv = none ∧ Tadpole.resolve argv = none) ∨
      ∃ l' a, l.resolve argv = some (l',a) ∧ Tadpole.resolve argv = some a ∧ Live n l' s := by
  cases argv with
  | nil => exact Or.inl ⟨rfl,rfl⟩
  | cons name args =>
    rw [LiveServer.resolve,Tadpole.resolve]
    dsimp only
    by_cases hq : isQuit (name::args)
    · exact Or.inr ⟨l,.quit,by rw [if_pos hq],by rw [if_pos hq],h⟩
    · rw [if_neg hq,if_neg hq,h.commands.lookup name]
      have hready : Live n {l with commands := finishRehash populatedCommands} s :=
        ⟨h.fl,h.mem,Or.inr rfl,h.sound,h.keys,h.size⟩
      simp only [Option.bind_eq_bind,Option.bind_some]
      cases lookupCommand name with
      | none => exact Or.inr ⟨_,_,rfl,rfl,hready⟩
      | some cmd =>
        dsimp only
        split_ifs with harity
        · exact Or.inr ⟨_,_,rfl,rfl,hready⟩
        · cases cmd.proc.action args with
          | none => exact Or.inl ⟨rfl,rfl⟩
          | some a => exact Or.inr ⟨_,a,rfl,rfl,hready⟩

/-- One command: what the argument vector says is done on both sides. -/
theorem processCommand (h : Live n l s) (hn : n < 1073741824) {c : Draw × List Bytes}
    (hc : ∀ a ∈ c.2, ShortKey a) :
    Agree (Live (n+1)) (l.processCommand c) (Tadpole.processCommand s c.1 c.2) := by
  rw [LiveServer.processCommand,Tadpole.processCommand]
  rcases h.resolve c.2 with ⟨h₁,h₂⟩ | ⟨l',a,h₁,h₂,hlive⟩
  · rw [h₁,h₂]
    exact .undefined
  · rw [h₁,h₂]
    simp only [Option.bind_eq_bind,Option.bind_some]
    cases a with
    | quit => exact .answers hlive.mono
    | error out => exact .answers hlive.mono
    | call call =>
      have hmem : ∀ b ∈ call.args, b ∈ c.2 := by simpa using resolve_cases h₂
      have hargs : ∀ a ∈ call.args, ShortKey a := fun a ha => hc a (hmem a ha)
      simp only [LiveServer.action,Action.run,Option.map_eq_bind]
      exact (hlive.call hn hargs c.1).bind fun l' s' out h' => .answers h'
    | ping => exact .answers hlive.mono
    | shutdown => exact .answers hlive.mono

theorem loadRecord (h : Live n l s) (hn : n < 1073741824) {key : Bytes} (hk : ShortKey key) (val : Bytes)
    (level : Level) :
    (l.loadRecord key val level = none ∧ Tadpole.loadRecord s key val level = none) ∨
      ∃ l' s', l.loadRecord key val level = some l' ∧ Tadpole.loadRecord s key val level = some s' ∧
        Live (n+1) l' s' := by
  obtain ⟨dict,added,hd,hlive⟩ := h.add hn hk
  simp only [LiveServer.loadRecord,Tadpole.loadRecord,hd,h.mem,Option.bind_eq_bind,Option.bind_some]
  cases insertSkiplist ((⟨s.mem,[]⟩ : Hist).newStr val).2 key ((⟨s.mem,[]⟩ : Hist).newStr val).1 level true with
  | none => exact Or.inl ⟨rfl,rfl⟩
  | some r =>
    simp only [Option.bind_some]
    cases r.2.freeStr ((⟨s.mem,[]⟩ : Hist).newStr val).1 with
    | none => exact Or.inl ⟨rfl,rfl⟩
    | some m => exact Or.inr ⟨_,_,rfl,rfl,hlive.withMem m.now⟩

/-- What is left of the load on both sides. -/
inductive AgreeLoaded (R : LiveServer → Server → Prop) : Option (Option LiveServer) → Option Loaded → Prop
  | undefined : AgreeLoaded R none none
  | exit : AgreeLoaded R (some none) (some .exit)
  | store {l : LiveServer} {s : Server} (h : R l s) : AgreeLoaded R (some (some l)) (some (.store s))

theorem loadDb (h : Live n l s) (rs : List (Read × Level)) (hn : n+rs.length ≤ 1073741824)
    (hk : ∀ r ∈ rs, ∀ kvs ∈ r.1.kvs, ∀ k ∈ kvs, ShortKey k) :
    AgreeLoaded (Live (n+rs.length)) (l.loadDb rs) (Tadpole.loadDb s rs) := by
  induction rs generalizing n l s with
  | nil => exact .store h
  | cons r rs ih =>
    obtain ⟨r,level⟩ := r
    rw [List.length_cons] at hn
    rw [LiveServer.loadDb,Tadpole.loadDb]
    cases hkvs : r.kvs with
    | none => exact .undefined
    | some kvs =>
      simp only [Option.bind_eq_bind,Option.bind_some]
      rcases kvs with - | ⟨key,- | ⟨val,- | ⟨more,rest⟩⟩⟩
      · exact .exit
      · exact .exit
      · have hshort : ShortKey key := hk (r,level) (by simp) [key,val] hkvs key (by simp)
        rcases h.loadRecord (by omega) hshort val level with ⟨h₁,h₂⟩ | ⟨l',s',h₁,h₂,h'⟩
        · simp only [h₁,h₂]
          exact .undefined
        · simp only [h₁,h₂,Option.bind_some]
          rw [List.length_cons,show n+(rs.length+1) = n+1+rs.length by omega]
          exact ih h' (by omega) fun r' hr' => hk r' (by simp [hr'])
      · exact .exit

end Live

theorem initLive_live (fl : Option FixedLength) : ∃ l, initLive fl = some l ∧ Live 0 l (initServer fl) := by
  refine ⟨⟨fl,populatedCommands,dictCreate,createSkiplist⟩,by simp [initLive,populateCommandTable_eq],rfl,rfl,
    Or.inl rfl,dictCreate_sound _ _,fun key => ?_,le_rfl⟩
  simp [Dict.Has,Dict.entries,dictCreate,dictReset,initServer]

/-- From the start on, over any file and any commands with keys that an `int` can measure, the server with
its incrementally rehashed tables loads, answers and ends as the server does that keeps the exact set of its
keys and searches the eight commands: the same replies, the same list, the same keys. -/
theorem live_runs_as_model (fl : Option FixedLength) (records : List (Read × Level))
    (calls : List (Draw × List Bytes)) (hrecords : ∀ r ∈ records, ∀ kvs ∈ r.1.kvs, ∀ k ∈ kvs, ShortKey k)
    (hcalls : ∀ c ∈ calls, ∀ a ∈ c.2, ShortKey a) (hlen : records.length+calls.length ≤ 1073741824) :
    ∃ l, initLive fl = some l ∧
      Live.AgreeLoaded (fun l s => Agree (fun l' s' => l'.fl = s'.fl ∧ l'.mem = s'.mem ∧
          ∀ key, l'.dict.Has key ↔ key ∈ s'.dict)
        (run LiveServer.processCommand l calls) (run (fun s c => processCommand s c.1 c.2) s calls))
        (l.loadDb records) (loadDb (initServer fl) records) := by
  obtain ⟨l,hl,hlive⟩ := initLive_live fl
  refine ⟨l,hl,?_⟩
  have hload := hlive.loadDb records (by omega) hrecords
  generalize l.loadDb records = x at hload ⊢
  generalize loadDb (initServer fl) records = y at hload ⊢
  cases hload with
  | undefined => exact .undefined
  | exit => exact .exit
  | store h =>
    refine .store ?_
    have hstep : ∀ n < 1073741824, ∀ l s (c : Draw × List Bytes), Live n l s → (∀ a ∈ c.2, ShortKey a) →
        Agree (Live (n+1)) (l.processCommand c) (processCommand s c.1 c.2) :=
      fun n hn l s c h hc => h.processCommand hn hc
    have hrun := run_agrees hstep hcalls
      (show 0+records.length+calls.length ≤ 1073741824 by omega) h
    generalize run LiveServer.processCommand _ calls = x at hrun ⊢
    generalize run (fun s c => processCommand s c.1 c.2) _ calls = y at hrun ⊢
    cases hrun with
    | undefined => exact .undefined
    | answers h' => exact .answers ⟨h'.fl,h'.mem,h'.keys⟩

/-- One key in the file and one put behind the load. -/
theorem live_runs_as_model_put : ∃ l, initLive (some ⟨1,1⟩) = some l ∧
    Live.AgreeLoaded (fun l s => Agree (fun l' s' => l'.fl = s'.fl ∧ l'.mem = s'.mem ∧
        ∀ key, l'.dict.Has key ↔ key ∈ s'.dict)
      (run LiveServer.processCommand l [(⟨⟨1,by decide⟩,true⟩,[str "put",str "b",str "2"])])
      (run (fun s c => processCommand s c.1 c.2) s [(⟨⟨1,by decide⟩,true⟩,[str "put",str "b",str "2"])]))
      (l.loadDb [(⟨str "a 1\n",[]⟩,⟨1,by decide⟩)])
      (loadDb (initServer (some ⟨1,1⟩)) [(⟨str "a 1\n",[]⟩,⟨1,by decide⟩)]) :=
  live_runs_as_model (some ⟨1,1⟩) [(⟨str "a 1\n",[]⟩,⟨1,by decide⟩)]
    [(⟨⟨1,by decide⟩,true⟩,[str "put",str "b",str "2"])] (by decide) (by decide) (by decide)

end Tadpole
