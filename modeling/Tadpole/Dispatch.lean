import Tadpole.Commands

/-! The names by which commands are dispatched. The comparison stops at a NUL and the hash does not: a
command is found under its own name, and with a NUL and other bytes behind it in some cases. -/
namespace Tadpole

/-- Equal over the whole length, without regard to ASCII case. -/
def SameName (a b : Bytes) : Prop := a.map tolower = b.map tolower

instance decidableSameName (a b : Bytes) : Decidable (SameName a b) := inferInstanceAs (Decidable (_ = _))

/-- A name takes the QUIT branch, is a command of the table or is unknown as its whole length says. -/
structure DispatchExact (name : Bytes) : Prop where
  quit : ∀ args, resolve (name::args) = some .quit ↔ SameName name (str "quit")
  command : ∀ cmd ∈ serverCommandsTable, lookupCommand name = some cmd ↔ SameName name cmd.name
  unknown : lookupCommand name = none ↔ ∀ cmd ∈ serverCommandsTable, ¬ SameName name cmd.name

/-- Names that are equal for `dictSdsKeyCaseCompare` have the same hash. -/
def HashAgrees (a b : Bytes) : Prop := strcasecmp a b = true → dictSdsCaseHash a = dictSdsCaseHash b

def behindNul (s : Bytes) : Bytes := s.drop (cstr s).length

def foldedSum (s : Bytes) : ℕ := (s.map fun b => (tolower b).toNat).sum

/-- The loop of `dictGenCaseHashFunction`, from some hash on. -/
def caseHashFrom (hash : UInt32) (s : Bytes) : UInt32 := s.foldl (fun hash b => hash*33+(tolower b).toUInt32) hash

/-- What is in front of the first NUL of a name that has one is neither QUIT nor a command, unless for a
command the bytes from there on change the bucket. -/
def NulHarmless (name : Bytes) : Prop := NUL ∈ name → ¬ SameName (cstr name) (str "quit") ∧
  ∀ cmd ∈ serverCommandsTable, SameName (cstr name) cmd.name → foldedSum (behindNul name)%8 ≠ 0

instance decidableNulHarmless (name : Bytes) : Decidable (NulHarmless name) :=
  inferInstanceAs (Decidable (_ → _ ∧ ∀ cmd ∈ serverCommandsTable, _ → _ ≠ _))

theorem cstr_append_behindNul (s : Bytes) : cstr s++behindNul s = s := by
  have h : behindNul s = s.dropWhile (· ≠ NUL) := by
    rw [behindNul,cstr]
    nth_rewrite 2 [← List.takeWhile_append_dropWhile (p := (· ≠ NUL)) (l := s)]
    exact List.drop_left
  rw [h,cstr,List.takeWhile_append_dropWhile]

theorem behindNul_of_not_mem {s : Bytes} (h : NUL ∉ s) : behindNul s = [] := by
  rw [behindNul,cstr_eq_self h,List.drop_length]

theorem tolower_eq_nul {b : UInt8} (h : tolower b = NUL) : b = NUL := by
  rw [tolower] at h
  split_ifs at h with hcap
  · obtain ⟨h₁,h₂⟩ := hcap
    rw [UInt8.le_iff_toNat_le] at h₁ h₂
    have hsum := congrArg UInt8.toNat h
    rw [UInt8.toNat_add] at hsum
    simp at h₁ h₂ hsum
    omega
  · exact h

theorem SameName.nul_mem {a b : Bytes} (h : SameName a b) (ha : NUL ∈ a) : NUL ∈ b := by
  have hmem : NUL ∈ b.map tolower := by
    rw [← h]
    exact List.mem_map.mpr ⟨NUL,ha,rfl⟩
  obtain ⟨x,hx,hnul⟩ := List.mem_map.mp hmem
  exact tolower_eq_nul hnul ▸ hx

theorem strcasecmp_iff {a b : Bytes} (hb : NUL ∉ b) : strcasecmp a b = true ↔ SameName (cstr a) b := by
  rw [strcasecmp,cstr_eq_self hb,decide_eq_true_iff,SameName]

theorem dictSdsCaseHash_eq (name : Bytes) :
    dictSdsCaseHash name = caseHashFrom (dictSdsCaseHash (cstr name)) (behindNul name) := by
  rw [caseHashFrom,dictSdsCaseHash,dictSdsCaseHash,← List.foldl_append,cstr_append_behindNul]

theorem caseHashFrom_congr {a b : Bytes} (h : SameName a b) (hash : UInt32) : caseHashFrom hash a = caseHashFrom hash b := by
  have hmap : ∀ s : Bytes, caseHashFrom hash s = (s.map tolower).foldl (fun hash b => hash*33+b.toUInt32) hash := by
    intro s
    rw [caseHashFrom,List.foldl_map]
  rw [hmap,hmap,h]

/-- 33 leaves the last three bits of the hash alone, so the bucket is known from the sum of the bytes. -/
theorem caseHashFrom_mod (hash : UInt32) (s : Bytes) :
    (caseHashFrom hash s).toNat%8 = (hash.toNat+foldedSum s)%8 := by
  induction s generalizing hash with
  | nil => rfl
  | cons b s ih =>
    have hstep : (hash*33+(tolower b).toUInt32).toNat%8 = (hash.toNat+(tolower b).toNat)%8 := by
      rw [UInt32.toNat_add,UInt32.toNat_mul,UInt8.toNat_toUInt32]
      simp
      omega
    have hcons : caseHashFrom hash (b::s) = caseHashFrom (hash*33+(tolower b).toUInt32) s := rfl
    have hsum : foldedSum (b::s) = (tolower b).toNat+foldedSum s := List.sum_cons
    rw [hcons,ih,hsum]
    omega

theorem bucket_toNat (name : Bytes) : (bucket name).toNat = (5381+foldedSum name)%8 := by
  have hand : (bucket name).toNat = (dictSdsCaseHash name).toNat%8 := by
    rw [bucket,UInt32.toNat_and]
    exact Nat.and_two_pow_sub_one_eq_mod _ 3
  rw [hand]
  exact caseHashFrom_mod 5381 name

theorem bucket_eq_iff {a b : Bytes} : bucket a = bucket b ↔ foldedSum a%8 = foldedSum b%8 := by
  rw [← UInt32.toNat_inj,bucket_toNat,bucket_toNat]
  omega

theorem foldedSum_append (a b : Bytes) : foldedSum (a++b) = foldedSum a+foldedSum b := by
  rw [foldedSum,List.map_append,List.sum_append,← foldedSum,← foldedSum]

theorem SameName.foldedSum {a b : Bytes} (h : SameName a b) : foldedSum a = foldedSum b := by
  have hmap : ∀ s : Bytes, Tadpole.foldedSum s = ((s.map tolower).map UInt8.toNat).sum := by
    intro s
    rw [Tadpole.foldedSum,List.map_map]
    rfl
  rw [hmap,hmap,h]

theorem table_nul : ∀ cmd ∈ serverCommandsTable, NUL ∉ cmd.name := by decide

theorem table_distinct : ∀ c ∈ serverCommandsTable, ∀ d ∈ serverCommandsTable, SameName c.name d.name → c = d := by
  decide

/-- A command is found where its name stands in front of the first NUL and the bytes from there on leave
the bucket alone. -/
theorem lookupCommand_iff (name : Bytes) (cmd : ServerCommand) : lookupCommand name = some cmd ↔
    cmd ∈ serverCommandsTable ∧ SameName (cstr name) cmd.name ∧ foldedSum (behindNul name)%8 = 0 := by
  have hfound : ∀ c ∈ serverCommandsTable, (bucket c.name = bucket name ∧ strcasecmp name c.name) ↔
      SameName (cstr name) c.name ∧ foldedSum (behindNul name)%8 = 0 := by
    intro c hc
    rw [strcasecmp_iff (table_nul c hc),and_comm]
    refine and_congr_right fun hsame => ?_
    have hsum := foldedSum_append (cstr name) (behindNul name)
    rw [cstr_append_behindNul,hsame.foldedSum] at hsum
    rw [bucket_eq_iff]
    omega
  constructor
  · intro h
    have hmem := List.mem_of_find?_eq_some h
    have hp := List.find?_some h
    rw [decide_eq_true_iff] at hp
    exact ⟨hmem,(hfound cmd hmem).mp hp⟩
  · rintro ⟨hmem,hsame,hsum⟩
    have hp := (hfound cmd hmem).mpr ⟨hsame,hsum⟩
    cases hl : lookupCommand name with
    | none => exact absurd hp (by simpa using List.find?_eq_none.mp hl cmd hmem)
    | some c =>
      have hmem' := List.mem_of_find?_eq_some hl
      have hp' := List.find?_some hl
      rw [decide_eq_true_iff] at hp'
      have hsame' := ((hfound c hmem').mp hp').1
      rw [table_distinct c hmem' cmd hmem (hsame'.symm.trans hsame)]

theorem quits_iff (name : Bytes) (args : List Bytes) :
    resolve (name::args) = some .quit ↔ SameName (cstr name) (str "quit") := by
  rw [← strcasecmp_iff (by decide)]
  constructor
  · exact isQuit_of_resolve
  · intro h
    rw [resolve]
    exact if_pos h

theorem lookupCommand_none (name : Bytes) :
    lookupCommand name = none ↔ ∀ cmd ∈ serverCommandsTable, lookupCommand name ≠ some cmd := by
  constructor
  · intro h cmd _
    rw [h]
    simp
  · intro h
    rw [Option.eq_none_iff_forall_ne_some]
    exact fun cmd hcmd => h cmd ((lookupCommand_iff name cmd).mp hcmd).1 hcmd

theorem dispatchExact_of {name : Bytes} (h : NulHarmless name) : DispatchExact name := by
  have hcommand : ∀ cmd ∈ serverCommandsTable, lookupCommand name = some cmd ↔ SameName name cmd.name := by
    intro cmd hcmd
    rw [lookupCommand_iff]
    by_cases hnul : NUL ∈ name
    · refine iff_of_false ?_ fun hsame => table_nul cmd hcmd (hsame.nul_mem hnul)
      rintro ⟨-,hsame,hsum⟩
      exact (h hnul).2 cmd hcmd hsame hsum
    · rw [cstr_eq_self hnul,behindNul_of_not_mem hnul]
      exact ⟨fun hc => hc.2.1,fun hsame => ⟨hcmd,hsame,rfl⟩⟩
  refine ⟨fun args => ?_,hcommand,?_⟩
  · rw [quits_iff]
    by_cases hnul : NUL ∈ name
    · exact iff_of_false (h hnul).1 fun hsame => absurd (hsame.nul_mem hnul) (by decide)
    · rw [cstr_eq_self hnul]
  · rw [lookupCommand_none]
    exact forall₂_congr fun cmd hcmd => not_congr (hcommand cmd hcmd)

theorem DispatchExact.nulHarmless {name : Bytes} (h : DispatchExact name) : NulHarmless name := by
  intro hnul
  refine ⟨fun hsame => ?_,fun cmd hcmd hsame hsum => ?_⟩
  · have hquit := (h.quit []).mp ((quits_iff name []).mpr hsame)
    exact absurd (hquit.nul_mem hnul) (by decide)
  · have hfound := (h.command cmd hcmd).mp ((lookupCommand_iff name cmd).mpr ⟨hcmd,hsame,hsum⟩)
    exact table_nul cmd hcmd (hfound.nul_mem hnul)

theorem hashAgrees_iff (a b : Bytes) : HashAgrees a b ↔ (SameName (cstr a) (cstr b) →
    caseHashFrom (dictSdsCaseHash (cstr a)) (behindNul a) = caseHashFrom (dictSdsCaseHash (cstr a)) (behindNul b)) := by
  have hcompare : strcasecmp a b = true ↔ SameName (cstr a) (cstr b) := by rw [strcasecmp,decide_eq_true_iff,SameName]
  rw [HashAgrees,hcompare]
  refine forall_congr' fun hsame => ?_
  have hfront : dictSdsCaseHash (cstr a) = dictSdsCaseHash (cstr b) := caseHashFrom_congr hsame 5381
  rw [dictSdsCaseHash_eq a,dictSdsCaseHash_eq b,hfront]

theorem hashAgrees_of_nul_free {a b : Bytes} (ha : NUL ∉ a) (hb : NUL ∉ b) : HashAgrees a b := by
  rw [hashAgrees_iff,behindNul_of_not_mem ha,behindNul_of_not_mem hb]
  exact fun _ => rfl

/-- Dispatch is exact for a name, and the hash agrees with the comparison on two names, exactly when the
bytes from the first NUL on do no harm. -/
theorem dispatchExact_iff (name other : Bytes) : (DispatchExact name ↔ NulHarmless name) ∧
    (HashAgrees name other ↔ (SameName (cstr name) (cstr other) →
      caseHashFrom (dictSdsCaseHash (cstr name)) (behindNul name) =
        caseHashFrom (dictSdsCaseHash (cstr name)) (behindNul other))) :=
  ⟨⟨DispatchExact.nulHarmless,dispatchExact_of⟩,hashAgrees_iff name other⟩

/-- With a NUL and one more byte QUIT is taken, with a NUL alone GET is; and the latter name has another
hash than the one it is equal to. -/
theorem get_nul_not_dispatchExact : ¬ DispatchExact (str "quit"++[NUL,88]) ∧ ¬ DispatchExact (str "get"++[NUL]) ∧
    ¬ HashAgrees (str "get"++[NUL]) (str "get") := by
  refine ⟨fun h => ?_,fun h => ?_,fun h => ?_⟩
  · exact absurd h.nulHarmless (by decide)
  · exact absurd h.nulHarmless (by decide)
  · exact absurd (h (by decide)) (by decide)

end Tadpole
