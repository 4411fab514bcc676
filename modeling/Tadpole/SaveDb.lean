import Tadpole.Store

/-! `saveDb` of db.c: the records of the bottom chain go to a temporary file that is then renamed. No
result of the calls that write it is looked at. -/
namespace Tadpole

/-- The text of `fprintf(fp, "%s %s\n", node->key, node->val)`. -/
def printRecord (e : Bytes × Bytes) : Bytes := cstr e.1++[SPACE]++cstr e.2++[LF]

/-- A call that puts out all of its text, or no more than so many bytes. -/
def cutOff : Option ℕ → Bytes → Bytes
  | none, s => s
  | some n, s => s.take n

/-- How the calls behind `fopen` end: how much of each record its `fprintf` puts out, how much of
the stream is in the file once `fclose` has flushed it, and whether `rename` succeeds. -/
structure SaveOutcome where
  printed : ℕ → Option ℕ
  flushed : Option ℕ
  renamed : Bool

def SaveOutcome.success : SaveOutcome := ⟨fun _ => none,none,true⟩

/-- The stream after the records from the `i`-th on. -/
def printLoop (o : SaveOutcome) : ℕ → List (Bytes × Bytes) → Bytes
  | _, [] => []
  | i, e::es => cutOff (o.printed i) (printRecord e)++printLoop o (i+1) es

/-- The temporary file behind `fclose`. -/
def tmpFile (o : SaveOutcome) (es : List (Bytes × Bytes)) : Bytes := cutOff o.flushed (printLoop o 0 es)

/-- The contents of `db_filename` after `saveDb`, where `old` were its contents before. -/
def saveDb (m : Mem) (o : SaveOutcome) (old : Option Bytes) : Option (Option Bytes) := do
  let es ← m.pairs
  some (if o.renamed then some (tmpFile o es) else old)

def encoding (es : List (Bytes × Bytes)) : Bytes := es.flatMap fun e => e.1++[SPACE]++e.2++[LF]

/-- The file has its previous contents or the complete encoding of the bottom chain. -/
def Preserves (m : Mem) (o : SaveOutcome) (old : Option Bytes) : Prop :=
  ∃ es file, m.pairs = some es ∧ saveDb m o old = some file ∧
    (file = old ∨ file = some (encoding es))

/-- No call puts out less than its text. -/
def Complete (n : Option ℕ) (s : Bytes) : Prop := ∀ k ∈ n, s.length ≤ k

/-- Every `fprintf` from the `i`-th on puts out its whole record, which holds the whole pair. -/
def AllPrinted (o : SaveOutcome) : ℕ → List (Bytes × Bytes) → Prop
  | _, [] => True
  | i, e::es => (NUL ∉ e.1 ∧ NUL ∉ e.2 ∧ Complete (o.printed i) (printRecord e)) ∧ AllPrinted o (i+1) es

theorem cutOff_eq {n : Option ℕ} {s : Bytes} : cutOff n s = s ↔ Complete n s := by
  cases n with
  | none => simp [cutOff,Complete]
  | some k => simp [cutOff,Complete,List.take_eq_self_iff]

theorem cutOff_length_le (n : Option ℕ) (s : Bytes) : (cutOff n s).length ≤ s.length := by
  cases n with
  | none => exact le_rfl
  | some k => exact List.length_take_le' k s

theorem cstr_length_eq {s : Bytes} : (cstr s).length = s.length ↔ NUL ∉ s := by
  refine ⟨fun h hm => ?_,fun h => by rw [cstr_eq_self h]⟩
  have he : cstr s = s := (List.takeWhile_prefix _).eq_of_length h
  rw [← he] at hm
  simpa using List.mem_takeWhile_imp hm

theorem printRecord_length_le (e : Bytes × Bytes) :
    (printRecord e).length ≤ (e.1++[SPACE]++e.2++[LF]).length := by
  have h₁ := cstr_length_le e.1
  have h₂ := cstr_length_le e.2
  simp only [printRecord,List.length_append]
  omega

theorem printRecord_eq {e : Bytes × Bytes} (h₁ : NUL ∉ e.1) (h₂ : NUL ∉ e.2) :
    printRecord e = e.1++[SPACE]++e.2++[LF] := by rw [printRecord,cstr_eq_self h₁,cstr_eq_self h₂]

theorem printLoop_length_le (o : SaveOutcome) (i : ℕ) (es : List (Bytes × Bytes)) :
    (printLoop o i es).length ≤ (encoding es).length := by
  induction es generalizing i with
  | nil => simp [printLoop]
  | cons e es ih =>
    have h₁ := (cutOff_length_le (o.printed i) (printRecord e)).trans (printRecord_length_le e)
    have h₂ := ih (i+1)
    rw [encoding] at h₂ ⊢
    rw [printLoop,List.flatMap_cons,List.length_append,List.length_append]
    omega

/-- The stream is the whole encoding only if no record was cut: nothing makes up for a lost byte. -/
theorem printLoop_eq {o : SaveOutcome} {i : ℕ} {es : List (Bytes × Bytes)} :
    printLoop o i es = encoding es ↔ AllPrinted o i es := by
  induction es generalizing i with
  | nil => simp [printLoop,encoding,AllPrinted]
  | cons e es ih =>
    have hsplit : encoding (e::es) = (e.1++[SPACE]++e.2++[LF])++encoding es := rfl
    rw [printLoop,hsplit,AllPrinted,← ih (i:=i+1)]
    constructor
    · intro h
      have hcut := cutOff_length_le (o.printed i) (printRecord e)
      have hrec := printRecord_length_le e
      have hrest := printLoop_length_le o (i+1) es
      have hlen := congrArg List.length h
      rw [List.length_append,List.length_append] at hlen
      obtain ⟨hhead,htail⟩ := List.append_inj h (by omega)
      have hfull : (printRecord e).length = (e.1++[SPACE]++e.2++[LF]).length := by omega
      have hk := cstr_length_le e.1
      have hv := cstr_length_le e.2
      simp only [printRecord,List.length_append] at hfull
      have h₁ : NUL ∉ e.1 := cstr_length_eq.mp (by omega)
      have h₂ : NUL ∉ e.2 := cstr_length_eq.mp (by omega)
      exact ⟨⟨h₁,h₂,cutOff_eq.mp (hhead.trans (printRecord_eq h₁ h₂).symm)⟩,htail⟩
    · rintro ⟨⟨h₁,h₂,hc⟩,htail⟩
      rw [cutOff_eq.mpr hc,htail,printRecord_eq h₁ h₂]

theorem tmpFile_eq {o : SaveOutcome} {es : List (Bytes × Bytes)} :
    tmpFile o es = encoding es ↔ AllPrinted o 0 es ∧ Complete o.flushed (encoding es) := by
  rw [tmpFile]
  constructor
  · intro h
    have hle := printLoop_length_le o 0 es
    have hcut := cutOff_length_le o.flushed (printLoop o 0 es)
    rw [h] at hcut
    have hself : cutOff o.flushed (printLoop o 0 es) = printLoop o 0 es := by
      have hpre : cutOff o.flushed (printLoop o 0 es) <+: printLoop o 0 es := by
        cases o.flushed with
        | none => exact List.prefix_rfl
        | some n => exact List.take_prefix ..
      refine hpre.eq_of_length ?_
      rw [h]
      omega
    rw [hself] at h
    exact ⟨printLoop_eq.mp h,h ▸ cutOff_eq.mp hself⟩
  · rintro ⟨hall,hc⟩
    rw [printLoop_eq.mpr hall,cutOff_eq.mpr hc]

/-- `saveDb` leaves the old file or the complete new one exactly when the rename fails, or every
call puts out the whole of its text, or what is put out happens to be what the file held before. -/
theorem preserves_iff {m : Mem} {es : List (Bytes × Bytes)} (hm : m.pairs = some es) (o : SaveOutcome)
    (old : Option Bytes) :
    Preserves m o old ↔ o.renamed = false ∨
      (AllPrinted o 0 es ∧ Complete o.flushed (encoding es)) ∨ old = some (tmpFile o es) := by
  have hsave : saveDb m o old = some (if o.renamed then some (tmpFile o es) else old) := by
    rw [saveDb,hm]
    rfl
  rw [← tmpFile_eq]
  constructor
  · rintro ⟨es',file,hes,hfile,h⟩
    obtain rfl : es = es' := Option.some.inj (hm.symm.trans hes)
    obtain rfl := Option.some.inj (hsave.symm.trans hfile)
    cases hr : o.renamed with
    | false => exact Or.inl rfl
    | true =>
      rw [hr,if_pos rfl] at h
      rcases h with h | h
      · exact Or.inr (Or.inr h.symm)
      · exact Or.inr (Or.inl (Option.some.inj h))
  · intro h
    refine ⟨es,_,hm,hsave,?_⟩
    rcases h with h | h | h
    · exact Or.inl (if_neg (by simp [h]))
    · cases hr : o.renamed with
      | false => exact Or.inl rfl
      | true => exact Or.inr (congrArg some h)
    · cases o.renamed with
      | false => exact Or.inl rfl
      | true => exact Or.inl h.symm

theorem put_pairs (level : Level) : ∃ s out,
    (Call.put (str "a") (str "1")).run (initServer (some ⟨1,1⟩)) ⟨level,true⟩ = some (s,out) ∧
      s.mem.pairs = some [(str "a",str "1")] := by
  obtain ⟨s,out,T,hrun,-,hs⟩ := (initServer_stores ⟨1,1⟩).put (str "a") (str "1") level
    (by decide) (by decide)
  exact ⟨s,out,hrun,hs.keeps.list.pairs⟩

theorem preserves_success : ∃ s out,
    (Call.put (str "a") (str "1")).run (initServer (some ⟨1,1⟩)) ⟨genRandomLevel 0,true⟩ = some (s,out) ∧
      Preserves s.mem .success (some (str "a 0\n")) := by
  obtain ⟨s,out,hrun,hm⟩ := put_pairs (genRandomLevel 0)
  have hall : AllPrinted .success 0 [(str "a",str "1")] :=
    ⟨⟨by decide,by decide,by simp [Complete,SaveOutcome.success]⟩,trivial⟩
  exact ⟨s,out,hrun,(preserves_iff hm .success (some (str "a 0\n"))).mpr
    (Or.inr (Or.inl ⟨hall,by simp [Complete,SaveOutcome.success]⟩))⟩

/-- The disk is full when the one record is printed: the old file gives way to an empty one. -/
theorem full_disk_not_preserves : ∃ s out,
    (Call.put (str "a") (str "1")).run (initServer (some ⟨1,1⟩)) ⟨⟨1,by decide⟩,true⟩ = some (s,out) ∧
      ¬ Preserves s.mem ⟨fun _ => some 0,none,true⟩ (some (str "a 0\n")) := by
  obtain ⟨s,out,hrun,hm⟩ := put_pairs ⟨1,by decide⟩
  refine ⟨s,out,hrun,?_⟩
  rintro ⟨es,file,hes,hfile,h⟩
  obtain rfl := Option.some.inj (hm.symm.trans hes)
  rw [saveDb,hm] at hfile
  obtain rfl := Option.some.inj hfile
  rcases h with h | h
  · exact absurd h (by decide)
  · exact absurd h (by decide)

end Tadpole
