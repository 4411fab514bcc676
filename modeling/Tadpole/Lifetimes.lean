import Tadpole.Lib.Durable
import Tadpole.Replies
import Tadpole.Restart

/-! The server from its start to its exit, again and again over one data file: `main` around the commands. What is
saved by one exit is there at the next start, and what is not is gone. -/
namespace Tadpole

/-- The memories a call goes through, the first one first. -/
def Hist.memories (h : Hist) : List Mem := (h.now::h.past).reverse

def Call.memories (s : Server) (d : Draw) : Call → Option (List Mem)
  | put key value =>
    let h := ((⟨s.mem,[]⟩ : Hist).newStr value).2
    match s.kvError key value with
    | some _ => some [h.now]
    | none =>
      if key ∈ s.dict then (replaceSkiplist ⟨h.now,[]⟩ key value).map fun r => r.2.memories
      else (insertSkiplist ⟨h.now,[]⟩ key s.mem.nextStr d.level d.malloc).map fun r => r.2.memories
  | delete key =>
    match s.keyError key with
    | some _ => some [s.mem]
    | none => if key ∉ s.dict then some [s.mem] else (deleteSkiplist ⟨s.mem,[]⟩ key).map fun r => r.2.memories
  | _ => some [s.mem]

def memories (s : Server) (d : Draw) (argv : List Bytes) : Option (List Mem) :=
  match resolve argv with
  | some (.call c) => c.memories s d
  | _ => some [s.mem]

/-- The data file, and the store while the process runs. -/
structure Machine where
  file : Option Bytes
  server : Option Server

/-- A start, with what `getline` leaves behind each line and the levels `loadDb` draws; a command, with how the save
of a SHUTDOWN ends; a signal between two commands, or in the middle of one behind so many of its writes; and an end
that runs nothing. -/
inductive LifeEvent
  | start (drawn : ℕ → Bytes × Level)
  | command (d : Draw) (argv : List Bytes) (o : SaveOutcome)
  | exit (o : SaveOutcome)
  | cut (d : Draw) (argv : List Bytes) (writes : ℕ) (o : SaveOutcome)
  | kill

def reads (drawn : ℕ → Bytes × Level) : List Bytes → List (Read × Level)
  | [] => []
  | l::lines => (⟨l,(drawn 0).1⟩,(drawn 0).2)::reads (fun i => drawn (i+1)) lines

namespace Machine

/-- `exit`, which runs `saveDb`. -/
def exit (m : Machine) (mem : Mem) (o : SaveOutcome) : Option (Machine × Option Output) :=
  (saveDb mem o m.file).map fun file => (⟨file,none⟩,none)

/-- `loadDb` without a data file does nothing; its exit comes before `atexit`. -/
def step (fl : FixedLength) (m : Machine) : LifeEvent → Option (Machine × Option Output)
  | .start drawn =>
    match m.server, m.file with
    | some _, _ => none
    | none, none => some (⟨none,some (initServer (some fl))⟩,none)
    | none, some file =>
      (loadDb (initServer (some fl)) (reads drawn (fileLines [] file))).map fun
        | .store s => (⟨some file,some s⟩,none)
        | .exit => (⟨some file,none⟩,none)
  | .command d argv o => do
    let s ← m.server
    let (s,out,status) ← processCommand s d argv
    if status = .exit then m.exit s.mem o else some (⟨m.file,some s⟩,some out)
  | .exit o => m.server.bind fun s => m.exit s.mem o
  | .cut d argv writes o => do
    let s ← m.server
    let mems ← memories s d argv
    m.exit (mems.getD (min writes (mems.length-1)) s.mem) o
  | .kill => some (⟨m.file,none⟩,none)

def run (fl : FixedLength) : Machine → List LifeEvent → Option (Machine × List (Option Output)) :=
  Simulation.run (step fl)

end Machine

def LifeEvent.event : LifeEvent → Durable.Event (List Bytes)
  | start _ => .start
  | command _ argv o =>
    match resolve argv with
    | some .shutdown => .exit o.renamed
    | _ => .call argv
  | exit o => .exit o.renamed
  | cut _ argv _ o => .cut argv o.renamed
  | kill => .kill

/-- A command that is answered, with plain texts where it stores some, and whose SCAN fits. -/
structure Served.Fine (fl : FixedLength) (M : KeyMap) (argv : List Bytes) : Prop where
  nonempty : argv ≠ []
  args : ∀ a ∈ argv, a.length ≤ MAX_ARG
  quit : resolve argv ≠ some .quit
  plain : ∀ key value, resolve argv = some (.call (.put key value)) → Plain key ∧ Plain value
  scan : ∀ c, resolve argv = some (.call c) → ScanFits fl M c

/-- The PUT of a key that is there, which frees its value before it sets the new one. -/
def Overwrites (fl : FixedLength) (M : KeyMap) (argv : List Bytes) : Prop :=
  ∃ key value, resolve argv = some (.call (.put key value)) ∧ key ∈ M.keys ∧ key.length = fl.keyLen ∧
    value.length = fl.valLen

/-- Nothing puts out less than its text, or the rename fails. -/
def SaveOutcome.Fine (o : SaveOutcome) : Prop := o = .success ∨ o.renamed = false

/-- The buffers of a start fit their lines, as the ints of `loadDb` count; a process is started where none runs, and
is not cut off while it overwrites a value. -/
def LifeEvent.Legal (fl : FixedLength) (st : Durable.State KeyMap) : LifeEvent → Prop
  | start drawn => st.memory = none ∧ ∀ i, 4294967296 ∣ (drawn i).1.length
  | command d argv o => ∃ M, st.memory = some M ∧ d.malloc = true ∧ Served.Fine fl M argv ∧ o.Fine
  | exit o => st.memory ≠ none ∧ o.Fine
  | cut d argv _ o => ∃ M, st.memory = some M ∧ d.malloc = true ∧ Served.Fine fl M argv ∧ ¬ Overwrites fl M argv ∧
      o.Fine
  | kill => st.memory ≠ none

/-- A map that goes to the disk and comes back. -/
structure Storable (fl : FixedLength) (M : KeyMap) : Prop where
  plain : PlainMap M
  keyLen : ∀ e ∈ M.entries, e.1.length = fl.keyLen
  valLen : ∀ e ∈ M.entries, e.2.length = fl.valLen
  small : ∀ e ∈ M.entries, e.1.length ≤ MAX_ARG ∧ e.2.length ≤ MAX_ARG

theorem Stores.storable {s : Server} {fl : FixedLength} {M : KeyMap} {T : List Tower} (h : Stores s fl M T)
    (hM : PlainMap M) : Storable fl M := ⟨hM,h.keeps.list.keyLen,h.value,h.keeps.small⟩

section
variable {fl : FixedLength} {M : KeyMap}

theorem loadDb_fl {s s' : Server} {rs : List (Read × Level)} (h : loadDb s rs = some (.store s')) : s'.fl = s.fl := by
  induction rs generalizing s with
  | nil =>
    obtain rfl := Loaded.store.inj (Option.some.inj h)
    rfl
  | cons r rs ih =>
    obtain ⟨kvs,-,h⟩ := Option.bind_eq_some_iff.mp h
    split at h
    · obtain ⟨s₁,hrec,h⟩ := Option.bind_eq_some_iff.mp h
      rw [ih h]
      obtain ⟨r,-,hrec⟩ := Option.bind_eq_some_iff.mp hrec
      obtain ⟨h',-,hrec⟩ := Option.bind_eq_some_iff.mp hrec
      rw [← Option.some.inj hrec]
    · cases h

theorem Storable.reads (h : Storable fl M) {drawn : ℕ → Bytes × Level} (hd : ∀ i, 4294967296 ∣ (drawn i).1.length)
    {es : List (Bytes × Bytes)} (hes : ∀ e ∈ es, e ∈ M.entries) :
    (Tadpole.reads drawn (es.map printRecord)).map (fun r => r.1.kvs) = es.map fun e => some [e.1,e.2] := by
  induction es generalizing drawn with
  | nil => rfl
  | cons e es ih =>
    have he := hes e (by simp)
    obtain ⟨hk,hv⟩ := h.plain e he
    have hline := printRecord_plain hk hv
    have hlen : (printRecord e).length < 2147483648 := by
      have h₁ : e.1.length ≤ 536870912 := (h.small e he).1
      have h₂ : e.2.length ≤ 536870912 := (h.small e he).2
      rw [hline]
      simp only [List.length_append,List.length_cons,List.length_nil]
      omega
    have hkvs := (Read.kvs_record (r:=⟨printRecord e,(drawn 0).1⟩) hline hk.1 hv.1 hlen).1 (hd 0)
    rw [List.map_cons,Tadpole.reads,List.map_cons,List.map_cons,hkvs,
      ih (fun i => hd (i+1)) fun e he => hes e (List.mem_cons_of_mem _ he)]

/-- The file of a map is loaded into a store of the map. -/
theorem Storable.loadDb (h : Storable fl M) {drawn : ℕ → Bytes × Level} (hd : ∀ i, 4294967296 ∣ (drawn i).1.length) :
    ∃ s T, Tadpole.loadDb (initServer (some fl)) (Tadpole.reads drawn (M.entries.map printRecord)) = some (.store s) ∧
      Stores s fl M T := by
  have hempty : ∀ e ∈ (OrderedMap.empty : NodeMap).entries, e.1.length = fl.keyLen := by simp
  have hno : NoHit OrderedMap.empty M.entries := by
    refine (noHit_iff hempty h.keyLen).mpr ⟨?_,by simp [OrderedMap.keys]⟩
    exact (List.pairwise_map.mpr M.ascending).imp ne_of_lt
  obtain ⟨N,hN,-,hmem⟩ := hno.nodesAfter
  obtain ⟨-,hsome⟩ := (initServer_bears (some fl)).loadDb_append (h.reads hd fun _ he => he) []
  obtain ⟨s,T,hload,hb⟩ := hsome N hN
  rw [List.append_nil] at hload
  rw [List.nil_append] at hb
  have hN' : N.entries = M.entries.map live := by
    let M' : NodeMap := ⟨M.entries.map live,(List.pairwise_map (f:=live) (R:=fun a b => a.1 < b.1)).mpr M.ascending⟩
    have he : N = M' := OrderedMap.ext_mem fun e => by rw [hmem]; simp [M']
    rw [he]
  have hloaded : Tadpole.loadDb (initServer (some fl)) (Tadpole.reads drawn (M.entries.map printRecord)) =
      some (.store s) := hload
  have hlist : Represents s.mem T M fl.keyLen := ⟨hb.shape,hb.content.trans hN',h.keyLen⟩
  have hdict : s.dict = M.keys := by
    ext k
    simp [hb.dict]
  exact ⟨s,T,hloaded,loadDb_fl hloaded,⟨hlist,hdict,h.small⟩,hb.length,h.valLen⟩

end

section
variable {s : Server} {fl : FixedLength} {M : KeyMap} {T : List Tower}

/-- The saver reads the map before the call or the map behind it. -/
theorem pairs_of_savedThrough {m : Mem} {M' : KeyMap} {T' : List Tower} {len : ℕ} {h' : Hist}
    (hr : Represents m T M len) (hr' : Represents h'.now T' M' len) (hsav : SavedThrough ⟨m,[]⟩ h' [T,T']) :
    ∀ m' ∈ h'.memories, m'.pairs = some M.entries ∨ m'.pairs = some M'.entries := by
  intro m' hm'
  rcases List.mem_cons.mp (List.mem_reverse.mp hm') with rfl | hm'
  · exact Or.inr hr'.pairs
  · rcases hsav m' hm' with hm' | ⟨S,hS,hw⟩
    · cases hm'
    · rcases List.mem_pair.mp hS with rfl | rfl
      · exact Or.inl (hw.pairs_live hr.content)
      · exact Or.inr (hw.pairs_live hr'.content)

/-- In the middle of a call that overwrites no value the saver reads the map before it or the map behind it. -/
theorem Stores.memories (h : Stores s fl M T) {d : Draw} (hd : d.malloc = true) {argv : List Bytes}
    (hover : ¬ Overwrites fl M argv) :
    ∃ mems, Tadpole.memories s d argv = some mems ∧ ∀ m ∈ mems, m.pairs = some M.entries ∨
      m.pairs = some (refCommand fl M argv).1.entries := by
  have hsame : ∀ m ∈ [s.mem], m.pairs = some M.entries ∨ m.pairs = some (refCommand fl M argv).1.entries := by
    intro m hm
    rw [List.mem_singleton.mp hm]
    exact Or.inl h.keeps.list.pairs
  rw [Tadpole.memories]
  split
  · rename_i c hc
    have href : (refCommand fl M argv).1 = (refStep fl M c).1 := by simp only [refCommand,hc]
    rw [href] at hsame ⊢
    cases c with
    | put key value =>
      let m : Mem := ((⟨s.mem,[]⟩ : Hist).newStr value).2.now
      have hlist : Represents m T M fl.keyLen := h.keeps.list.agree (h.keeps.list.shape.newStr (h:=⟨s.mem,[]⟩) value)
      by_cases hkv : key.length = fl.keyLen ∧ value.length = fl.valLen
      · have hins : (refStep fl M (.put key value)).1 = M.insert key value := by simp [refStep,hkv]
        have habsent : key ∉ M.keys := fun hin => hover ⟨key,value,hc,hin,hkv⟩
        have hval : m.strs s.mem.nextStr = some value := Function.update_self ..
        have hlegal : s.kvError key value = none := h.legal (by simpa using hkv)
        have hdict : key ∉ s.dict := by rwa [h.keeps.dict]
        obtain ⟨h₁,T₁,hrun,hrep,-,-,hsav⟩ := Represents.insertSkiplist (h:=⟨m,[]⟩) hlist hkv.1
          (OrderedMap.lookup_eq_none.mpr habsent) hval d.level
        refine ⟨h₁.memories,?_,?_⟩
        · simp only [Call.memories,hlegal,if_neg hdict,hd]
          rw [show insertSkiplist ⟨((⟨s.mem,[]⟩ : Hist).newStr value).2.now,[]⟩ key s.mem.nextStr d.level true =
            some (0,h₁) from hrun]
          rfl
        · rw [hins]
          exact pairs_of_savedThrough hlist hrep hsav
      · obtain ⟨e,he,-⟩ : ∃ e, s.kvError key value = some e ∧ Sends e .error := h.illegal (by simpa using hkv)
        refine ⟨[m],by simp only [Call.memories,he]; rfl,fun m' hm' => ?_⟩
        rw [List.mem_singleton.mp hm']
        exact Or.inl hlist.pairs
    | delete key =>
      by_cases hk : key.length = fl.keyLen
      · have hlegal : s.keyError key = none := h.legal (by simpa using hk)
        by_cases hin : key ∈ M.keys
        · have herase : (refStep fl M (.delete key)).1 = M.erase key := by simp [refStep,hk,hin]
          have hdict : ¬ key ∉ s.dict := by rwa [not_not,h.keeps.dict]
          obtain ⟨v,hv⟩ := Option.ne_none_iff_exists'.mp fun hn => OrderedMap.lookup_eq_none.mp hn hin
          obtain ⟨h₁,T₁,hrun,hrep,-,-,hsav⟩ := Represents.deleteSkiplist (h:=⟨s.mem,[]⟩) h.keeps.list hk hv
          refine ⟨h₁.memories,?_,?_⟩
          · simp only [Call.memories,hlegal,if_neg hdict,hrun,Option.map_some]
          · rw [herase]
            exact pairs_of_savedThrough h.keeps.list hrep hsav
        · have hdict : key ∉ s.dict := by rwa [h.keeps.dict]
          exact ⟨[s.mem],by simp only [Call.memories,hlegal,if_pos hdict],hsame⟩
      · obtain ⟨e,he,-⟩ : ∃ e, s.keyError key = some e ∧ Sends e .error := h.illegal (by simpa using hk)
        exact ⟨[s.mem],by simp only [Call.memories,he],hsame⟩
    | get key => exact ⟨_,rfl,hsame⟩
    | scan start stop => exact ⟨_,rfl,hsame⟩
    | info => exact ⟨_,rfl,hsame⟩
  · exact ⟨_,rfl,hsame⟩

end

theorem refCommand_plain {fl : FixedLength} {M : KeyMap} {argv : List Bytes} (hM : PlainMap M)
    (hplain : ∀ key value, resolve argv = some (.call (.put key value)) → Plain key ∧ Plain value) :
    PlainMap (refCommand fl M argv).1 := by
  intro e he
  rw [refCommand] at he
  split at he
  · rename_i c hc
    rcases mem_refStep he with he | ⟨rfl,-,-⟩
    · exact hM e he
    · exact hplain _ _ hc
  · exact hM e he
  · exact hM e he

/-- The data file has the map on the disk, and the store the map in memory. -/
structure Machine.Holds (fl : FixedLength) (m : Machine) (st : Durable.State KeyMap) : Prop where
  file : m.file = none ∧ st.disk = OrderedMap.empty ∨ m.file = some (st.disk.entries.flatMap printRecord)
  disk : Storable fl st.disk
  server : Option.Rel (fun s M => PlainMap M ∧ ∃ T, Stores s fl M T) m.server st.memory

section
variable {fl : FixedLength} {m : Machine} {st : Durable.State KeyMap}

theorem Machine.Holds.exit (h : m.Holds fl st) {mem : Mem} {M : KeyMap} (hM : Storable fl M)
    (hmem : mem.pairs = some M.entries) {o : SaveOutcome} (ho : o.Fine) :
    ∃ m', m.exit mem o = some (m',none) ∧ m'.Holds fl ⟨if o.renamed then M else st.disk,none⟩ := by
  rcases ho with rfl | hr
  · refine ⟨⟨some (tmpFile .success M.entries),none⟩,?_,Or.inr ?_,hM,.none⟩
    · rw [Machine.exit,saveDb,hmem]
      rfl
    · rw [tmpFile_success]
      rfl
  · refine ⟨⟨m.file,none⟩,?_,?_,?_,.none⟩
    · rw [Machine.exit,saveDb,hmem]
      simp [hr]
    · simpa [hr] using h.file
    · simpa [hr] using h.disk

/-- A process that starts over the data file holds the map on the disk. -/
theorem Machine.Holds.start (h : m.Holds fl st) (hst : st.memory = none) {drawn : ℕ → Bytes × Level}
    (hd : ∀ i, 4294967296 ∣ (drawn i).1.length) :
    ∃ m', m.step fl (.start drawn) = some (m',none) ∧ m'.Holds fl ⟨st.disk,some st.disk⟩ := by
  obtain ⟨file,server⟩ := m
  obtain ⟨hfile,hdisk,hserver⟩ := h
  rw [hst] at hserver
  cases hserver
  rcases hfile with ⟨hfile,hempty⟩ | hfile
  · obtain rfl : file = none := hfile
    refine ⟨⟨none,some (initServer (some fl))⟩,rfl,Or.inl ⟨rfl,hempty⟩,hdisk,.some ⟨hdisk.plain,[],?_⟩⟩
    rw [hempty]
    exact initServer_stores fl
  · obtain rfl : file = some _ := hfile
    obtain ⟨s,T,hload,hs⟩ := hdisk.loadDb hd
    refine ⟨⟨_,some s⟩,?_,Or.inr rfl,hdisk,.some ⟨hdisk.plain,T,hs⟩⟩
    simp only [Machine.step,fileLines_records hdisk.plain,hload,Option.map_some]

theorem Machine.Holds.running (h : m.Holds fl st) {M : KeyMap} (hst : st.memory = some M) :
    ∃ s T, m.server = some s ∧ PlainMap M ∧ Stores s fl M T := by
  have hserver := h.server
  rw [hst] at hserver
  cases hs : m.server with
  | none =>
    rw [hs] at hserver
    cases hserver
  | some s =>
    rw [hs] at hserver
    cases hserver with
    | some hs =>
      obtain ⟨hM,T,hT⟩ := hs
      exact ⟨s,T,rfl,hM,hT⟩

theorem exit_step (disk M : KeyMap) (saved : Bool) : Durable.Step (refCommand fl) ⟨disk,some M⟩ (.exit saved) none
    ⟨if saved then M else disk,none⟩ := by
  cases saved with
  | true => exact .saved disk M
  | false => exact .unsaved disk M

theorem Machine.Holds.command (h1 : 1 ≤ fl.keyLen) (h : m.Holds fl st) {d : Draw} {argv : List Bytes} {o : SaveOutcome}
    {M : KeyMap} (hst : st.memory = some M) (hd : d.malloc = true) (hfine : Served.Fine fl M argv) (ho : o.Fine) :
    ∃ m' a r st', m.step fl (.command d argv o) = some (m',a) ∧
      Durable.Step (refCommand fl) st (LifeEvent.command d argv o).event r st' ∧
      Option.Rel (fun out r => Sends out r) a r ∧ m'.Holds fl st' := by
  obtain ⟨disk,memory⟩ := st
  obtain rfl : memory = some M := hst
  obtain ⟨s,T,hserver,hM,hs⟩ := h.running rfl
  by_cases hshut : resolve argv = some .shutdown
  · obtain ⟨m',hexit,hm'⟩ := h.exit (hs.storable hM) hs.keeps.list.pairs ho
    have hstep : m.step fl (.command d argv o) = m.exit s.mem o := by
      simp [Machine.step,hserver,processCommand,hshut,Action.run]
    have hevent : (LifeEvent.command d argv o).event = .exit o.renamed := by simp [LifeEvent.event,hshut]
    rw [hstep,hevent]
    exact ⟨m',none,none,_,hexit,exit_step disk M o.renamed,.none,hm'⟩
  · have hdraw : d = ⟨d.level,true⟩ := by rw [← hd]
    obtain ⟨s',out,T',hcmd,hsends,hs'⟩ := hs.command h1 ⟨hfine.nonempty,hfine.args,hfine.quit,hshut⟩ hfine.scan d.level
    rw [← hdraw] at hcmd
    have hstep : m.step fl (.command d argv o) = some (⟨m.file,some s'⟩,some out) := by
      simp [Machine.step,hserver,hcmd]
    have hevent : (LifeEvent.command d argv o).event = .call argv := by simp only [LifeEvent.event]
    rw [hstep,hevent]
    exact ⟨_,some out,some (refCommand fl M argv).2,_,rfl,.call disk M argv,.some hsends,
      h.file,h.disk,.some ⟨refCommand_plain hM hfine.plain,T',hs'⟩⟩

theorem Stores.storable_behind {s : Server} {M : KeyMap} {T : List Tower} (h1 : 1 ≤ fl.keyLen) (hs : Stores s fl M T)
    (hM : PlainMap M) {argv : List Bytes} (hfine : Served.Fine fl M argv) : Storable fl (refCommand fl M argv).1 := by
  by_cases hshut : resolve argv = some .shutdown
  · have hsame : (refCommand fl M argv).1 = M := by simp only [refCommand,hshut]
    rw [hsame]
    exact hs.storable hM
  · obtain ⟨s',out,T',-,-,hs'⟩ := hs.command h1 ⟨hfine.nonempty,hfine.args,hfine.quit,hshut⟩ hfine.scan
      (genRandomLevel 0)
    exact hs'.storable (refCommand_plain hM hfine.plain)

/-- A signal in the middle of a command saves the map before it or the map behind it. -/
theorem Machine.Holds.cut (h1 : 1 ≤ fl.keyLen) (h : m.Holds fl st) {d : Draw} {argv : List Bytes} {o : SaveOutcome} {M : KeyMap}
    (hst : st.memory = some M) (hd : d.malloc = true) (hfine : Served.Fine fl M argv) (hover : ¬ Overwrites fl M argv)
    (writes : ℕ) (ho : o.Fine) :
    ∃ m' st', m.step fl (.cut d argv writes o) = some (m',none) ∧
      Durable.Step (refCommand fl) st (.cut argv o.renamed) none st' ∧ m'.Holds fl st' := by
  obtain ⟨disk,memory⟩ := st
  obtain rfl : memory = some M := hst
  obtain ⟨s,T,hserver,hM,hs⟩ := h.running rfl
  obtain ⟨mems,hmems,hpairs⟩ := hs.memories hd hover
  have hstep : m.step fl (.cut d argv writes o) = m.exit (mems.getD (min writes (mems.length-1)) s.mem) o := by
    simp [Machine.step,hserver,hmems]
  have hsaved : ∃ M', (M' = M ∨ M' = (refCommand fl M argv).1) ∧
      (mems.getD (min writes (mems.length-1)) s.mem).pairs = some M'.entries := by
    rw [List.getD_eq_getElem?_getD]
    cases hmem : mems[min writes (mems.length-1)]? with
    | none => exact ⟨M,Or.inl rfl,hs.keeps.list.pairs⟩
    | some mem =>
      rcases hpairs mem (List.mem_of_getElem? hmem) with hp | hp
      · exact ⟨M,Or.inl rfl,hp⟩
      · exact ⟨_,Or.inr rfl,hp⟩
  obtain ⟨M',hM',hp⟩ := hsaved
  have hstorable : Storable fl M' := by
    rcases hM' with rfl | rfl
    · exact hs.storable hM
    · exact hs.storable_behind h1 hM hfine
  obtain ⟨m',hexit,hm'⟩ := h.exit hstorable hp ho
  rw [hstep]
  refine ⟨m',_,hexit,?_,hm'⟩
  cases o.renamed with
  | false => exact .lost disk M argv
  | true =>
    rcases hM' with rfl | rfl
    · exact .before disk M' argv
    · exact .behind disk M argv

theorem Machine.Holds.step (h1 : 1 ≤ fl.keyLen) (h : m.Holds fl st) {e : LifeEvent} (he : e.Legal fl st) :
    ∃ m' a o st', m.step fl e = some (m',a) ∧ Durable.Step (refCommand fl) st e.event o st' ∧
      Option.Rel (fun out r => Sends out r) a o ∧ m'.Holds fl st' := by
  cases e with
  | start drawn =>
    obtain ⟨disk,memory⟩ := st
    obtain ⟨hst,hd⟩ := he
    obtain rfl : memory = none := hst
    obtain ⟨m',hstep,hm'⟩ := h.start rfl hd
    exact ⟨m',none,none,_,hstep,.start disk,.none,hm'⟩
  | command d argv o =>
    obtain ⟨M,hst,hd,hfine,ho⟩ := he
    exact h.command h1 hst hd hfine ho
  | exit o =>
    obtain ⟨disk,memory⟩ := st
    obtain ⟨hst,ho⟩ := he
    obtain ⟨M,rfl⟩ := Option.ne_none_iff_exists'.mp hst
    obtain ⟨s,T,hserver,hM,hs⟩ := h.running rfl
    obtain ⟨m',hexit,hm'⟩ := h.exit (hs.storable hM) hs.keeps.list.pairs ho
    refine ⟨m',none,none,_,?_,exit_step disk M o.renamed,.none,hm'⟩
    rw [Machine.step,hserver]
    exact hexit
  | cut d argv writes o =>
    obtain ⟨M,hst,hd,hfine,hover,ho⟩ := he
    obtain ⟨m',st',hstep,habs,hm'⟩ := h.cut h1 hst hd hfine hover writes ho
    exact ⟨m',none,none,st',hstep,habs,.none,hm'⟩
  | kill =>
    obtain ⟨disk,memory⟩ := st
    obtain ⟨M,rfl⟩ := Option.ne_none_iff_exists'.mp he
    exact ⟨⟨m.file,none⟩,none,none,_,rfl,.kill disk M,.none,h.file,h.disk,.none⟩

end

def LegalLife (fl : FixedLength) : Durable.State KeyMap → List LifeEvent → Prop :=
  Durable.LegalFrom (refCommand fl) LifeEvent.event (LifeEvent.Legal fl)

def noFile : Durable.State KeyMap := ⟨OrderedMap.empty,none⟩

theorem noFile_holds (fl : FixedLength) : Machine.Holds fl ⟨none,none⟩ noFile where
  file := Or.inl ⟨rfl,rfl⟩
  disk := ⟨by simp [noFile,PlainMap],by simp [noFile],by simp [noFile],by simp [noFile]⟩
  server := .none

theorem run_holds {fl : FixedLength} (h1 : 1 ≤ fl.keyLen) {es : List LifeEvent} (hes : LegalLife fl noFile es) :
    ∃ m outs replies st, Machine.run fl ⟨none,none⟩ es = some (m,outs) ∧
      Durable.Run (refCommand fl) noFile (es.map LifeEvent.event) replies st ∧
      List.Forall₂ (Option.Rel fun out r => Sends out r) outs replies ∧ m.Holds fl st := by
  have hstep : ∀ (m : Machine) st (e : LifeEvent), m.Holds fl st → e.Legal fl st →
      ∃ m' a o st', m.step fl e = some (m',a) ∧ Durable.Step (refCommand fl) st e.event o st' ∧
        Option.Rel (fun out r => Sends out r) a o ∧ m'.Holds fl st' := fun m st e h he => h.step h1 he
  exact Durable.run_keeps hstep (noFile_holds fl) hes

theorem encoding_plain {M : KeyMap} (hM : PlainMap M) : M.entries.flatMap printRecord = encoding M.entries :=
  List.flatMap_congr fun e he => printRecord_eq (hM e he).1.2.2 (hM e he).2.2.2

theorem Served.Fine.of_call {fl : FixedLength} {M : KeyMap} {argv : List Bytes} {c : Call}
    (hres : resolve argv = some (.call c)) (hargs : ∀ a ∈ argv, a.length ≤ MAX_ARG)
    (hplain : ∀ key value, c = .put key value → Plain key ∧ Plain value) (hscan : ScanFits fl M c) :
    Served.Fine fl M argv where
  nonempty := by
    rintro rfl
    cases hres
  args := hargs
  quit := by simp [hres]
  plain := fun key value h => hplain key value (Action.call.inj (Option.some.inj (hres.symm.trans h)))
  scan := fun c' h => by
    obtain rfl := Action.call.inj (Option.some.inj (hres.symm.trans h))
    exact hscan

/-- However often the server is started, stopped by a signal or a SHUTDOWN, stopped in the middle of a command that
overwrites nothing, or killed, it answers as a map in memory that is read from the disk at every start and goes to the
disk at every exit whose save succeeds; the data file has the map on the disk. -/
theorem lifetimes_as_durable_map (fl : FixedLength) (h1 : 1 ≤ fl.keyLen) (es : List LifeEvent)
    (hes : LegalLife fl noFile es) :
    ∃ m outs replies st, Machine.run fl ⟨none,none⟩ es = some (m,outs) ∧
      Durable.Run (refCommand fl) noFile (es.map LifeEvent.event) replies st ∧
      List.Forall₂ (Option.Rel fun out r => Sends out r) outs replies ∧
      m.file.getD [] = encoding st.disk.entries ∧
      ∀ s, m.server = some s → ∃ M, st.memory = some M ∧ s.mem.pairs = some M.entries := by
  obtain ⟨m,outs,replies,st,hrun,habs,hall,hm⟩ := run_holds h1 hes
  refine ⟨m,outs,replies,st,hrun,habs,hall,?_,fun s hs => ?_⟩
  · rw [← encoding_plain hm.disk.plain]
    rcases hm.file with ⟨hfile,hdisk⟩ | hfile
    · rw [hfile,hdisk]
      rfl
    · rw [hfile]
      rfl
  · have hserver := hm.server
    rw [hs] at hserver
    cases hmem : st.memory with
    | none =>
      rw [hmem] at hserver
      cases hserver
    | some M =>
      rw [hmem] at hserver
      cases hserver with
      | some h =>
        obtain ⟨-,T,hT⟩ := h
        exact ⟨M,rfl,hT.keeps.list.pairs⟩

/-- A DELETE that a signal cuts off behind its first write, and a kill. -/
theorem lifetimes_as_durable_map_cut :
    let draw : Draw := ⟨⟨1,by decide⟩,true⟩
    let start : LifeEvent := .start fun _ => ([],⟨1,by decide⟩)
    let es : List LifeEvent := [start,.command draw [str "put",str "a",str "1"] .success,
      .cut draw [str "delete",str "a"] 1 .success,start,.kill]
    ∃ m outs replies st, Machine.run ⟨1,1⟩ ⟨none,none⟩ es = some (m,outs) ∧
      Durable.Run (refCommand ⟨1,1⟩) noFile (es.map LifeEvent.event) replies st ∧
      List.Forall₂ (Option.Rel fun out r => Sends out r) outs replies ∧
      m.file.getD [] = encoding st.disk.entries ∧
      ∀ s, m.server = some s → ∃ M, st.memory = some M ∧ s.mem.pairs = some M.entries := by
  intro draw start es
  have hput : resolve [str "put",str "a",str "1"] = some (.call (.put (str "a") (str "1"))) := rfl
  have hdelete : resolve [str "delete",str "a"] = some (.call (.delete (str "a"))) := rfl
  have hplain : Plain (str "a") ∧ Plain (str "1") := ⟨⟨by decide,by decide,by decide⟩,by decide,by decide,by decide⟩
  refine lifetimes_as_durable_map ⟨1,1⟩ le_rfl es ⟨⟨rfl,by simp⟩,?_⟩
  rintro _ _ ⟨⟩
  refine ⟨⟨_,rfl,rfl,.of_call hput (by decide) ?_ trivial,Or.inl rfl⟩,?_⟩
  · intro key value h
    obtain ⟨rfl,rfl⟩ := Call.put.inj h
    exact hplain
  rintro _ _ ⟨⟩
  refine ⟨⟨_,rfl,rfl,.of_call hdelete (by decide) nofun trivial,?_,Or.inl rfl⟩,?_⟩
  · rintro ⟨key,value,h,-⟩
    cases hdelete.symm.trans h
  intro o st hcut
  have hstopped : st.memory = none := by
    cases hcut <;> rfl
  refine ⟨⟨hstopped,by simp⟩,?_⟩
  intro o st' hstart
  have hruns : st'.memory ≠ none := by
    cases hstart
    simp
  exact ⟨hruns,fun _ _ _ => trivial⟩

/-- A server that is never killed or cut off and whose saves succeed answers, over all its starts and exits, as one
map that is never saved. -/
theorem restarts_unseen (fl : FixedLength) (h1 : 1 ≤ fl.keyLen) (es : List LifeEvent) (hes : LegalLife fl noFile es)
    (horderly : ∀ e ∈ es, e.event.Orderly) :
    ∃ m outs, Machine.run fl ⟨none,none⟩ es = some (m,outs) ∧
      List.Forall₂ (fun out r => Sends out r) outs.reduceOption
        (Simulation.follow (refCommand fl) OrderedMap.empty ((es.map LifeEvent.event).filterMap Durable.Event.input?)).2 := by
  obtain ⟨m,outs,replies,st,hrun,habs,hall,-⟩ := run_holds h1 hes
  have hfollow := habs.orderly fun e he => by
    obtain ⟨e',he',rfl⟩ := List.mem_map.mp he
    exact horderly e' he'
  refine ⟨m,outs,hrun,?_⟩
  have hempty : noFile.value = OrderedMap.empty := rfl
  rw [hempty] at hfollow
  rw [hfollow]
  exact Durable.reduceOption_rel hall

/-- A PUT, an exit, and a GET behind the next start. -/
theorem restarts_unseen_put_get :
    let draw : Draw := ⟨⟨1,by decide⟩,true⟩
    let start : LifeEvent := .start fun _ => ([],⟨1,by decide⟩)
    ∃ m outs, Machine.run ⟨1,1⟩ ⟨none,none⟩
        [start,.command draw [str "put",str "a",str "1"] .success,.exit .success,start,
          .command draw [str "get",str "a"] .success] = some (m,outs) ∧
      List.Forall₂ (fun out r => Sends out r) outs.reduceOption [.status (str "OK"),.bulk (str "1")] := by
  intro draw start
  have hput : resolve [str "put",str "a",str "1"] = some (.call (.put (str "a") (str "1"))) := rfl
  have hget : resolve [str "get",str "a"] = some (.call (.get (str "a"))) := rfl
  have hplain : Plain (str "a") ∧ Plain (str "1") := ⟨⟨by decide,by decide,by decide⟩,by decide,by decide,by decide⟩
  have hfine : ∀ M, Served.Fine ⟨1,1⟩ M [str "put",str "a",str "1"] := fun M =>
    .of_call hput (by decide) (fun key value h => by obtain ⟨rfl,rfl⟩ := Call.put.inj h; exact hplain) trivial
  have hfine' : ∀ M, Served.Fine ⟨1,1⟩ M [str "get",str "a"] := fun M => .of_call hget (by decide) nofun trivial
  refine restarts_unseen ⟨1,1⟩ le_rfl _ ?_ ?_
  · refine ⟨⟨rfl,by simp⟩,?_⟩
    rintro _ _ ⟨⟩
    refine ⟨⟨_,rfl,rfl,hfine _,Or.inl rfl⟩,?_⟩
    rintro _ _ ⟨⟩
    refine ⟨⟨by simp,Or.inl rfl⟩,?_⟩
    rintro _ _ ⟨⟩
    refine ⟨⟨rfl,by simp⟩,?_⟩
    rintro _ _ ⟨⟩
    refine ⟨⟨_,rfl,rfl,hfine' _,Or.inl rfl⟩,?_⟩
    rintro _ _ -
    trivial
  · simp only [List.forall_mem_cons]
    exact ⟨trivial,trivial,rfl,trivial,trivial,by simp⟩

end Tadpole
