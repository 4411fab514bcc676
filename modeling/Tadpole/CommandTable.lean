import Mathlib.Data.List.Find
import Tadpole.Dispatch
import Tadpole.DictUpdate
import Tadpole.Lib.Simulation

/-! The command table as the hash table it is: what `populateCommandTable` leaves, and that every lookup of
a run finds what a search of the eight entries finds. -/
namespace Tadpole

/-- The two functions do not go together for a name with a NUL in it. -/
def commandTableDictType : DictType Bytes := ⟨dictSdsCaseHash,strcasecmp⟩

/-- The loop of `populateCommandTable`, with its assertion. -/
def populateCommandTable (commands : Dict Bytes ServerCommand) : List ServerCommand →
    Option (Dict Bytes ServerCommand)
  | [] => some commands
  | ptr::table => do
    let (commands,retval) ← dictAdd commandTableDictType true commands ptr.name ptr
    if retval = .DICT_OK then populateCommandTable commands table else none

/-- The chains of the eight buckets: the entry that came last is the first of its chain. -/
def commandBuckets : List (List (Bytes × ServerCommand)) :=
  (List.range 8).map fun i =>
    ((serverCommandsTable.filter fun c => (bucket c.name).toNat = i).reverse.map fun c => (c.name,c))

/-- Behind the last insertion all entries are moved, though `dictRehash` has not noticed. -/
def populatedCommands : Dict Bytes ServerCommand :=
  ⟨⟨[[],[],[],[]],4,3,0⟩,⟨commandBuckets,8,7,8⟩,some 3,0⟩

theorem populateCommandTable_eq :
    populateCommandTable dictCreate serverCommandsTable = some populatedCommands := by
  rfl

theorem find?_eq_find? {α : Type} {p q : α → Bool} {l l' : List α}
    (h : ∀ x, x ∈ l ∧ p x ↔ x ∈ l' ∧ q x) (huniq : ∀ x ∈ l, ∀ y ∈ l, p x → p y → x = y) :
    l.find? p = l'.find? q := by
  cases hl : l.find? p with
  | none =>
    refine (List.find?_eq_none.mpr fun x hx hq => ?_).symm
    obtain ⟨hx',hp⟩ := (h x).mpr ⟨hx,hq⟩
    exact List.find?_eq_none.mp hl x hx' hp
  | some x =>
    have hx := List.mem_of_find?_eq_some hl
    have hp := List.find?_some hl
    obtain ⟨hx',hq⟩ := (h x).mp ⟨hx,hp⟩
    cases hl' : l'.find? q with
    | none => exact absurd hq (List.find?_eq_none.mp hl' x hx')
    | some y =>
      obtain ⟨hy,hpy⟩ := (h y).mpr ⟨List.mem_of_find?_eq_some hl',List.find?_some hl'⟩
      rw [huniq x hx y hy hp hpy]

theorem bucket_lt (name : Bytes) : (bucket name).toNat < 8 := by
  rw [bucket_toNat]
  exact Nat.mod_lt _ (by decide)

theorem commandBuckets_get {i : ℕ} (h : i < 8) : commandBuckets[i]? =
    some ((serverCommandsTable.filter fun c => (bucket c.name).toNat = i).reverse.map fun c => (c.name,c)) := by
  simp [commandBuckets,h]

theorem find_commandBuckets (name : Bytes) {used : ℕ} :
    (⟨commandBuckets,8,7,used⟩ : Dictht Bytes ServerCommand).find commandTableDictType name =
      some ((lookupCommand name).map fun c => (c.name,c)) := by
  have hidx : commandTableDictType.index (⟨commandBuckets,8,7,used⟩ : Dictht Bytes ServerCommand) name =
      (bucket name).toNat := by
    rw [bucket,UInt32.toNat_and]
    rfl
  rw [Dictht.find,hidx,commandBuckets_get (bucket_lt name),Option.bind_eq_bind,Option.bind_some,
    List.find?_map,lookupCommand]
  congr 2
  refine find?_eq_find? (fun c => ?_) fun c hc d hd hpc hpd => ?_
  · simp only [List.mem_reverse,List.mem_filter,decide_eq_true_eq,Function.comp_apply,and_assoc,
      UInt32.toNat_inj]
    rfl
  · have hc' := (List.mem_filter.mp (List.mem_reverse.mp hc)).1
    have hd' := (List.mem_filter.mp (List.mem_reverse.mp hd)).1
    have hsame := (strcasecmp_iff (table_nul c hc')).mp hpc
    exact table_distinct c hc' d hd' (hsame.symm.trans ((strcasecmp_iff (table_nul d hd')).mp hpd))

def CommandsReady (commands : Dict Bytes ServerCommand) : Prop :=
  commands = populatedCommands ∨ commands = finishRehash populatedCommands

/-- The first lookup ends the rehashing before it looks. -/
theorem CommandsReady.lookup {commands : Dict Bytes ServerCommand} (h : CommandsReady commands) (name : Bytes) :
    dictFetchValue commandTableDictType commands name =
      some (finishRehash populatedCommands,lookupCommand name) := by
  have hstep : stepIfRehashing commandTableDictType commands = some (finishRehash populatedCommands) := by
    rcases h with rfl | rfl <;> rfl
  have hsize : commands.ht0.size ≠ 0 := by
    rcases h with rfl | rfl <;> simp [finishRehash,populatedCommands]
  have hfind : (finishRehash populatedCommands).find commandTableDictType name =
      some ((lookupCommand name).map fun c => (c.name,c)) := by
    have hht0 : (finishRehash populatedCommands).ht0.find commandTableDictType name =
        some ((lookupCommand name).map fun c => (c.name,c)) := find_commandBuckets name
    rw [Dict.find,hht0]
    cases lookupCommand name <;> rfl
  simp only [dictFetchValue,dictFind,if_neg hsize,hstep,hfind,Option.bind_eq_bind,Option.bind_some]
  cases lookupCommand name <;> rfl

theorem CommandsReady.run {commands : Dict Bytes ServerCommand} (h : CommandsReady commands) (names : List Bytes) :
    ∃ commands', Simulation.run (dictFetchValue commandTableDictType) commands names =
      some (commands',names.map lookupCommand) := by
  induction names generalizing commands with
  | nil => exact ⟨commands,rfl⟩
  | cons name names ih =>
    obtain ⟨commands',hrun⟩ := ih (Or.inr rfl : CommandsReady (finishRehash populatedCommands))
    exact ⟨commands',by rw [Simulation.run,h.lookup name]; simp [hrun]⟩

/-- For a name without NUL the bucket says nothing that the comparison does not say. -/
theorem lookupCommand_linear {name : Bytes} (h : NUL ∉ name) :
    lookupCommand name = serverCommandsTable.find? fun c => strcasecmp name c.name := by
  rw [lookupCommand]
  refine List.find?_congr fun c hc => ?_
  have hbucket : strcasecmp name c.name = true → bucket c.name = bucket name := by
    intro hsame
    rw [bucket,bucket,hashAgrees_of_nul_free h (table_nul c hc) hsame]
  rw [Bool.eq_iff_iff,decide_eq_true_iff]
  exact and_iff_right_of_imp hbucket

/-- From the table that the start of the server fills, every run of lookups finds for every name, also for
one with a NUL in it, what the search of the eight entries by bucket and name finds, and for a name without NUL what
the search by name alone finds. -/
theorem lookups_as_table (names : List Bytes) :
    ∃ commands commands', populateCommandTable dictCreate serverCommandsTable = some commands ∧
      Simulation.run (dictFetchValue commandTableDictType) commands names = some (commands',names.map lookupCommand) ∧
      ∀ name ∈ names, NUL ∉ name → lookupCommand name = serverCommandsTable.find? fun c => strcasecmp name c.name := by
  obtain ⟨commands',hrun⟩ := CommandsReady.run (Or.inl rfl) names
  exact ⟨populatedCommands,commands',populateCommandTable_eq,hrun,fun _ _ h => lookupCommand_linear h⟩

end Tadpole
