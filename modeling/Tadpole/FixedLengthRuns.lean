import Tadpole.Store

/-! Runs of the fixed-length store against the reference map: a step lemma for each direction, then
the whole run. -/
namespace Tadpole

section
variable {s : Server} {fl : FixedLength} {M : KeyMap} {T : List Tower}

/-- A call whose lines fit answers what its counter and the reference say, and keeps the invariant. -/
theorem Stores.run (h : Stores s fl M T) (h1 : 1 ≤ fl.keyLen) {c : Call} (hargs : c.ArgsOk)
    (hfit : ScanFits fl M c) (level : Level) :
    ∃ s' out T', c.run s ⟨level,true⟩ = some (s',out) ∧ Sends out (codeReply fl M c) ∧
      Stores s' fl (refStep fl M c).1 T' := by
  cases c with
  | get key =>
    obtain ⟨out,hout,hsends⟩ := h.get key
    refine ⟨s,out,T,by simp [Call.run,hout],hsends,?_⟩
    rw [refStep]
    split_ifs <;> exact h
  | put key value => exact h.put key value level (hargs key (by simp [Call.args])) (hargs value (by simp [Call.args]))
  | delete key => exact h.delete key
  | scan start stop =>
    obtain ⟨out,hout,hsends⟩ := h.scan h1 hfit
    refine ⟨s,out,T,by simp [Call.run,hout],hsends,?_⟩
    rw [refStep]
    split_ifs <;> exact h
  | info => exact ⟨s,_,T,by simp [Call.run,h.info],.line _,h⟩

theorem Stores.run_overflow (h : Stores s fl M T) {c : Call} (hfit : ¬ ScanFits fl M c) (d : Draw) :
    c.run s d = none := by
  cases c with
  | scan start stop => simp [Call.run,h.scan_overflow hfit]
  | get key => exact absurd trivial hfit
  | put key value => exact absurd trivial hfit
  | delete key => exact absurd trivial hfit
  | info => exact absurd trivial hfit

/-- The answers of code and reference differ exactly in a SHOW whose counter has wrapped. -/
theorem codeReply_eq {c : Call} (hfit : Fits fl M c) : codeReply fl M c = (refStep fl M c).2 := by
  cases c with
  | info => simp only [codeReply,refStep,counterText_eq M (hfit.2 rfl)]
  | _ => rfl

theorem codeReply_wrapped {out : Output} (hfit : ¬ M.size < 2147483648)
    (hsends : Sends out (codeReply fl M .info)) :
    ¬ (refStep fl M .info).2.Matches out.bytes := by
  intro hmatch
  have hcode : out.bytes = str "+"++counterText (int32 M.size) M++CRLF := hsends.matches
  have href : out.bytes = str "+"++infoText M++CRLF := hmatch
  have hsame : counterText (int32 M.size) M = infoText M++[] := by
    simpa using hcode.symm.trans href
  have := counterText_prefix hsame
  have hlt := int32_lt (M.size : ℤ)
  omega

theorem Stores.runCalls (h : Stores s fl M T) (h1 : 1 ≤ fl.keyLen) {cs : List (Call × Level)}
    (hargs : ∀ c ∈ cs, c.1.ArgsOk) :
    (∃ l, Tadpole.runCalls s cs = some l ∧
      List.Forall₂ Agrees l (refRun fl M (cs.map Prod.fst))) ↔ FitsRun fl M (cs.map Prod.fst) := by
  induction cs generalizing s M T with
  | nil => exact iff_of_true ⟨[],rfl,List.Forall₂.nil⟩ trivial
  | cons c cs ih =>
    obtain ⟨c,level⟩ := c
    have hc : c.ArgsOk := hargs (c,level) (by simp)
    simp only [List.map_cons,refRun,FitsRun]
    by_cases hfit : Fits fl M c
    · obtain ⟨s',out,T',hrun,hsends,hs'⟩ := h.run h1 hc hfit.1 level
      have hmatch : (refStep fl M c).2.Matches (Output.bytes out) :=
        codeReply_eq hfit ▸ hsends.matches
      have hrest := ih hs' fun c' h' => hargs c' (by simp [h'])
      have hstep : Tadpole.runCalls s ((c,level)::cs) =
          (Tadpole.runCalls s' cs).bind fun rest => some ((s',Output.bytes out)::rest) := by
        simp only [Tadpole.runCalls,hrun,Option.bind_eq_bind,Option.bind_some]
      rw [hstep,← hrest]
      constructor
      · rintro ⟨l,hl,hall⟩
        obtain ⟨rest,hr,he⟩ := Option.bind_eq_some_iff.mp hl
        obtain rfl : (s',Output.bytes out)::rest = l := by simpa using he
        obtain ⟨-,htail⟩ := List.forall₂_cons.mp hall
        exact ⟨hfit,rest,hr,htail⟩
      · rintro ⟨-,rest,hr,htail⟩
        exact ⟨_,by rw [hr,Option.bind_some],
          List.Forall₂.cons ⟨hmatch,hs'.keeps.dict,hs'.keeps.list.pairs⟩ htail⟩
    · refine iff_of_false ?_ fun hf => hfit hf.1
      rintro ⟨l,hl,hall⟩
      by_cases hscan : ScanFits fl M c
      · obtain ⟨s',out,T',hrun,hsends,-⟩ := h.run h1 hc hscan level
        simp only [Tadpole.runCalls,hrun,Option.bind_eq_bind,Option.bind_some] at hl
        obtain ⟨rest,-,hl⟩ := Option.bind_eq_some_iff.mp hl
        obtain rfl : (s',Output.bytes out)::rest = l := by simpa using hl
        obtain ⟨rfl,hbig⟩ : c = .info ∧ ¬ M.size < 2147483648 := by
          simpa [Fits,hscan] using hfit
        exact codeReply_wrapped hbig hsends (List.forall₂_cons.mp hall).1.1
      · simp [Tadpole.runCalls,h.run_overflow hscan] at hl

end

/-- In fixed-length mode a run from the empty store agrees with the ordered map at every call
exactly when every SCAN selects less than 2^31 bytes of lines and every SHOW counts less than 2^31
keys. -/
theorem runAgrees_iff (fl : FixedLength) (h1 : 1 ≤ fl.keyLen) (cs : List (Call × Level))
    (hargs : ∀ c ∈ cs, c.1.ArgsOk) :
    RunAgrees fl cs ↔ FitsRun fl OrderedMap.empty (cs.map Prod.fst) :=
  (initServer_stores fl).runCalls h1 hargs

theorem runAgrees_put_delete : RunAgrees ⟨1,1⟩
    [(.put (str "a") (str "1"),genRandomLevel 0),(.get (str "a"),genRandomLevel 0),
      (.delete (str "a"),genRandomLevel 0)] :=
  (runAgrees_iff ⟨1,1⟩ le_rfl _ (by
    have h1 : 1 ≤ MAX_ARG := by norm_num
    simp [Call.ArgsOk,Call.args,str,h1])).mpr (by
      simp [FitsRun,Fits,ScanFits])

def fourKeys (rest : Bytes) (level : Level) : List (Call × Level) :=
  [(.put (0::rest) [],level),(.put (1::rest) [],level),(.put (2::rest) [],level),
   (.put (3::rest) [],level),(.scan (0::rest) (3::rest),level)]

theorem fourKeys_entries (rest : Bytes) :
    ((((OrderedMap.empty.insert (0::rest) ([] : Bytes)).insert (1::rest) []).insert (2::rest) []).insert
      (3::rest) []).entries = [(0::rest,[]),(1::rest,[]),(2::rest,[]),(3::rest,[])] := by
  simp [OrderedMap.insert,OrderedMap.insertList,List.cons_lt_cons_iff]

theorem fourKeys_misfit (fl : FixedLength) (hv : fl.valLen = 0) (rest : Bytes)
    (hk : rest.length+1 = fl.keyLen) (hbig : 2147483648 ≤ 4*(fl.keyLen+1)) (level : Level) :
    ¬ FitsRun fl OrderedMap.empty ((fourKeys rest level).map Prod.fst) := by
  have hput : ∀ (M : KeyMap) (d : UInt8), (refStep fl M (.put (d::rest) [])).1 = M.insert (d::rest) [] := by
    intro M d
    rw [refStep,if_neg]
    simp [hv,hk]
  have hle : ∀ {a b : UInt8}, a ≤ b → a::rest ≤ b::rest := by
    intro a b hab
    rcases hab.lt_or_eq with hlt | rfl
    · exact le_of_lt (List.cons_lt_cons_iff.mpr (Or.inl hlt))
    · exact le_rfl
  rintro ⟨-,-,-,-,hscan,-⟩
  simp only [hput] at hscan
  have hfit := hscan.1 (by simpa using hk) (by simpa using hk)
  rw [scanSize,OrderedMap.range,fourKeys_entries] at hfit
  simp only [List.map_cons,List.map_nil,OrderedMap.between_cons,OrderedMap.between_nil] at hfit
  rw [if_pos ⟨le_rfl,hle (by decide)⟩,if_pos ⟨hle (by decide),hle (by decide)⟩,
    if_pos ⟨hle (by decide),hle (by decide)⟩,if_pos ⟨hle (by decide),le_rfl⟩] at hfit
  simp only [List.map_cons,List.map_nil,List.sum_cons,List.sum_nil,List.length_cons,hk] at hfit
  omega

/-- Keys of 512 MB, with the line end that a big argument keeps: four of them are more than a SCAN can gather. -/
theorem fourKeys_not_runAgrees :
    ¬ RunAgrees ⟨536870912,0⟩ (fourKeys (List.replicate 536870909 0++CRLF) ⟨1,by decide⟩) := by
  have hlen : (List.replicate 536870909 (0 : UInt8)++CRLF).length = 536870911 := by
    rw [List.length_append,List.length_replicate]
    rfl
  generalize List.replicate 536870909 (0 : UInt8)++CRLF = rest at hlen ⊢
  have hshort : ∀ d : UInt8, (d::rest).length ≤ MAX_ARG := fun d => by
    rw [List.length_cons,hlen]
  have hargs : ∀ c ∈ fourKeys rest ⟨1,by decide⟩, c.1.ArgsOk := by
    intro c hc a ha
    simp only [fourKeys,List.mem_cons,List.not_mem_nil,or_false] at hc
    rcases hc with rfl | rfl | rfl | rfl | rfl <;>
      simp only [Call.args,List.mem_cons,List.not_mem_nil,or_false] at ha <;>
      rcases ha with rfl | rfl <;> first | exact hshort _ | exact Nat.zero_le _
  rw [RunAgrees,(initServer_stores ⟨536870912,0⟩).runCalls (by norm_num) hargs]
  exact fourKeys_misfit _ rfl rest (by rw [hlen]) (show 2147483648 ≤ 4*(536870912+1) by omega) _

end Tadpole
