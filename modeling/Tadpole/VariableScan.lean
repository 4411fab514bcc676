import Mathlib.Algebra.Order.BigOperators.Group.List
import Tadpole.Store

/-! SCAN without fixed lengths: `slKeyCompare` takes keys of different lengths for equal, so what the
scan selects is an interval only where the keys outside have the lengths of the cursors. -/
namespace Tadpole

def Mem.HoldsKeys (m : Mem) (ks : List Bytes) : Prop :=
  ∃ l, m.bottom = some l ∧ l.map m.keyOf = ks.map some

/-- The keys from `start` to `stop` in the order of `sdscmp`. -/
def keysBetween (start stop : Bytes) (ks : List Bytes) : List Bytes :=
  ks.filter fun k => sdscmp start k ≠ .gt ∧ sdscmp k stop ≠ .gt

/-- SCAN answers the keys of the interval, one a line, and an error if the cursors are the wrong way
round. -/
def ScanAnswers (s : Server) (ks : List Bytes) (start stop : Bytes) : Prop :=
  ∃ out, scanCommand s start stop = some out ∧
    Reply.Matches (Output.bytes out) (if sdscmp start stop = .gt then .error
      else .status (joinLines (keysBetween start stop ks)))

/-- Every key below the interval has the length of `start`, every key above it the length of `stop`; the
interval is not the empty key alone, and its lines fit the `int` write position. -/
def LengthsTell (ks : List Bytes) (start stop : Bytes) : Prop :=
  if sdscmp start stop = .gt then start.length = stop.length
  else (∀ k ∈ ks, (sdscmp k start = .lt → k.length = start.length) ∧
      (sdscmp k stop = .gt → k.length = stop.length)) ∧ keysBetween start stop ks ≠ [[]] ∧
    ((keysBetween start stop ks).map fun k => k.length+1).sum < 2147483648

theorem joinLines_length (l : List Bytes) : (joinLines l).length = (l.map fun k => k.length+1).sum-1 := by
  rw [← dropLast_lines,List.length_dropLast,flatten_lines_length]

theorem eq_of_lines_length {l l' : List Bytes} (h : l.Sublist l')
    (hlen : (l.map fun k => k.length+1).sum = (l'.map fun k => k.length+1).sum) : l = l' := by
  induction h with
  | slnil => rfl
  | @cons l l' k hsub ih =>
    have hle := (hsub.map fun k : Bytes => k.length+1).sum_le_sum fun _ _ => Nat.zero_le _
    simp only [List.map_cons,List.sum_cons] at hlen
    omega
  | cons_cons k hsub ih =>
    simp only [List.map_cons,List.sum_cons] at hlen
    rw [ih (by omega)]

theorem lines_length_eq_one {l : List Bytes} : (l.map fun k => k.length+1).sum = 1 ↔ l = [[]] := by
  cases l with
  | nil => simp
  | cons k l =>
    cases l with
    | nil => simp
    | cons k' l =>
      simp only [List.map_cons,List.sum_cons]
      refine iff_of_false (by omega) (by simp)

/-- What is left of the lines is the joined interval exactly when nothing else was selected; of the empty
key alone the line end stays. -/
theorem sdsrange_lines {l l' : List Bytes} (h : l.Sublist l')
    (hfit : (l'.map fun k => k.length+1).sum < 2147483648) :
    sdsrange (l'.map (·++[LF])).flatten 0 (-2) = joinLines l ↔ l = l' ∧ l ≠ [[]] := by
  by_cases h1 : l' = [[]]
  · subst h1
    have hl : l = [] ∨ l = [[]] := List.sublist_singleton.mp h
    have hone : sdsrange ((([[]] : List Bytes).map (·++[LF])).flatten) 0 (-2) = [LF] := by decide
    rw [hone]
    rcases hl with rfl | rfl
    · simp [joinLines,List.intercalate]
    · simp [joinLines,List.intercalate]
  · have hne : ((l'.map (·++[LF])).flatten).length ≠ 1 := by
      rw [flatten_lines_length]
      exact fun h => h1 (lines_length_eq_one.mp h)
    rw [sdsrange_dropLast hne (by rw [flatten_lines_length]; exact hfit),dropLast_lines]
    constructor
    · intro hj
      have hlen := congrArg List.length hj
      rw [joinLines_length,joinLines_length] at hlen
      have hone : (l'.map fun k => k.length+1).sum ≠ 1 := fun h => h1 (lines_length_eq_one.mp h)
      have hle := (h.map fun k : Bytes => k.length+1).sum_le_sum fun _ _ => Nat.zero_le _
      have heq := eq_of_lines_length h (by omega)
      exact ⟨heq,heq ▸ h1⟩
    · rintro ⟨rfl,-⟩
      rfl

theorem slKeyCompare_lt_iff {k₁ k₂ : Bytes} :
    slKeyCompare k₁ k₂ = .lt ↔ k₁.length = k₂.length ∧ k₁ < k₂ := by
  by_cases h : k₁.length = k₂.length
  · simp [slKeyCompare_lt h,h]
  · simp [slKeyCompare_of_ne h,h]

theorem slKeyCompare_gt_iff {k₁ k₂ : Bytes} :
    slKeyCompare k₁ k₂ = .gt ↔ k₁.length = k₂.length ∧ k₂ < k₁ := by
  by_cases h : k₁.length = k₂.length
  · simp [slKeyCompare_gt h,h]
  · simp [slKeyCompare_of_ne h,h]

section
variable {ks : List Bytes} {start stop : Bytes}

theorem mem_keysBetween {k : Bytes} : k ∈ keysBetween start stop ks ↔ k ∈ ks ∧ ¬ k < start ∧ ¬ stop < k := by
  simp [keysBetween,sdscmp_order.2]

theorem selects_iff {k : Bytes} : selects start stop k = true ↔
    ¬ (k.length = start.length ∧ k < start) ∧ ¬ (k.length = stop.length ∧ stop < k) := by
  simp only [selects,decide_eq_true_eq,ne_eq,slKeyCompare_lt_iff,slKeyCompare_gt_iff]

theorem keysBetween_sublist (start stop : Bytes) (ks : List Bytes) :
    (keysBetween start stop ks).Sublist (ks.filter (selects start stop)) := by
  refine List.monotone_filter_right ks fun k hk => ?_
  rw [selects_iff]
  simp only [decide_eq_true_eq,ne_eq,sdscmp_order.2] at hk
  tauto

/-- The scan selects the interval alone exactly when the length of every key outside tells its place. -/
theorem keysBetween_eq_iff (hle : start ≤ stop) :
    keysBetween start stop ks = ks.filter (selects start stop) ↔
      ∀ k ∈ ks, (sdscmp k start = .lt → k.length = start.length) ∧
        (sdscmp k stop = .gt → k.length = stop.length) := by
  simp only [sdscmp_order.1,sdscmp_order.2]
  constructor
  · intro heq k hk
    have hsel : selects start stop k = true → ¬ k < start ∧ ¬ stop < k := fun hs =>
      (mem_keysBetween.mp (heq ▸ List.mem_filter.mpr ⟨hk,hs⟩)).2
    rw [selects_iff] at hsel
    refine ⟨fun hlt => ?_,fun hgt => ?_⟩
    · have hns : ¬ stop < k := fun h => (hle.trans_lt h).not_gt hlt
      tauto
    · have hns : ¬ k < start := fun h => (hle.trans_lt hgt).not_gt h
      tauto
  · intro hlen
    refine List.filter_congr fun k hk => ?_
    have hk' := hlen k hk
    rw [Bool.eq_iff_iff,selects_iff]
    simp only [decide_eq_true_eq,ne_eq,sdscmp_order.2]
    tauto

/-- The command on a store of keys of any lengths. -/
theorem scanCommand_eq {s : Server} (hfl : s.fl = none) (hks : s.mem.HoldsKeys ks) (start stop : Bytes) :
    scanCommand s start stop =
      if start.length = stop.length ∧ stop < start then
        some (addReplyErrorFormat
          [str "CURSORERR '",cstr start,str "' should less or equal to '",cstr stop,str "'"])
      else if ((ks.filter (selects start stop)).map fun k => k.length+1).sum < 2147483648 then
        some (statusLine (sdsrange ((ks.filter (selects start stop)).map (·++[LF])).flatten 0 (-2)))
      else none := by
  obtain ⟨l,hl,hkeys⟩ := hks
  have hlegal : s.cursorError start stop = none := by
    unfold Server.cursorError Server.lengthError
    rw [hfl]
  have hloop : scanLoop s.mem start stop l [] = _ := scanLoop_selects hkeys (by simp)
  rw [List.nil_append,flatten_lines_length] at hloop
  rw [scanCommand,hlegal]
  simp only [slKeyCompare_gt_iff,hl,hloop,Option.bind_eq_bind,Option.bind_some]
  split_ifs <;> rfl

theorem status_matches {t u : Bytes} : Reply.Matches (Output.bytes (statusLine t)) (.status u) ↔ t = u := by
  simp [Reply.Matches,Output.bytes,Out.bytes,statusLine]

theorem status_not_error {t : Bytes} : ¬ Reply.Matches (Output.bytes (statusLine t)) .error := by
  rintro ⟨u,hu,-⟩
  have := congrArg List.head? hu
  simp [Output.bytes,Out.bytes,statusLine,str] at this

end

/-- Without fixed lengths a SCAN answers the keys of the interval, or an error for cursors the wrong way
round, exactly when the lengths of the keys tell the places that `slKeyCompare` does not see. -/
theorem scanAnswers_iff {s : Server} {ks : List Bytes} (hfl : s.fl = none) (hks : s.mem.HoldsKeys ks)
    (start stop : Bytes) : ScanAnswers s ks start stop ↔ LengthsTell ks start stop := by
  unfold ScanAnswers LengthsTell
  rw [scanCommand_eq hfl hks]
  by_cases hgt : sdscmp start stop = .gt
  · have hlt : stop < start := sdscmp_order.2.mp hgt
    simp only [if_pos hgt,hlt,and_true]
    by_cases hlen : start.length = stop.length
    · rw [if_pos hlen]
      exact iff_of_true ⟨_,rfl,(Sends.error _).matches⟩ hlen
    · rw [if_neg hlen]
      refine iff_of_false ?_ hlen
      rintro ⟨out,hout,hmatch⟩
      split_ifs at hout
      cases hout
      exact status_not_error hmatch
  · have hle : start ≤ stop := not_lt.mp fun h => hgt (sdscmp_order.2.mpr h)
    simp only [if_neg hgt,hle.not_gt,and_false,if_false,← keysBetween_eq_iff hle]
    constructor
    · rintro ⟨out,hout,hmatch⟩
      split_ifs at hout with hfit
      cases hout
      obtain ⟨heq,hne⟩ := (sdsrange_lines (keysBetween_sublist start stop ks) hfit).mp (status_matches.mp hmatch)
      exact ⟨heq,hne,heq ▸ hfit⟩
    · rintro ⟨heq,hne,hfit⟩
      rw [heq] at hfit
      rw [if_pos hfit]
      exact ⟨_,rfl,status_matches.mpr
        ((sdsrange_lines (keysBetween_sublist start stop ks) hfit).mpr ⟨heq,hne⟩)⟩

theorem Represents.holdsKeys {m : Mem} {T : List Tower} {M : KeyMap} {len : ℕ} (h : Represents m T M len) :
    m.HoldsKeys (M.entries.map Prod.fst) := by
  refine ⟨_,h.shape.bottom_eq,?_⟩
  rw [← h.keys_eq,List.map_map,List.map_map]
  exact List.map_congr_left fun t ht => (h.shape.holds t ht).keyOf

theorem put_b : ∃ s out, (Call.put (str "b") (str "1")).run (initServer none) ⟨genRandomLevel 0,true⟩ =
    some (s,out) ∧ s.fl = none ∧ s.mem.HoldsKeys [str "b"] := by
  obtain ⟨s,T,hrun,hs,hfl,-⟩ := (initServer_keeps none 1).put (genRandomLevel 0) (rfl : Server.kvError
    (initServer none) (str "b") (str "1") = none) rfl (by decide) (by decide)
  exact ⟨s,_,hrun,hfl,hs.list.holdsKeys⟩

theorem scanAnswers_b : ∃ s, s.mem.HoldsKeys [str "b"] ∧ ScanAnswers s [str "b"] (str "a") (str "cc") := by
  obtain ⟨s,out,-,hfl,hks⟩ := put_b
  refine ⟨s,hks,(scanAnswers_iff hfl hks _ _).mpr ?_⟩
  unfold LengthsTell
  decide

/-- A key below both cursors, but shorter. -/
theorem scan_cc_dd_not_scanAnswers : ∃ s out,
    (Call.put (str "b") (str "1")).run (initServer none) ⟨genRandomLevel 0,true⟩ = some (s,out) ∧
      s.mem.HoldsKeys [str "b"] ∧ ¬ ScanAnswers s [str "b"] (str "cc") (str "dd") := by
  obtain ⟨s,out,hrun,hfl,hks⟩ := put_b
  refine ⟨s,out,hrun,hks,?_⟩
  rintro ⟨out',hout,hmatch⟩
  rw [scanCommand_eq hfl hks] at hout
  have hall : [str "b"].filter (selects (str "cc") (str "dd")) = [str "b"] := by decide
  rw [hall] at hout
  have hans : some (statusLine (str "b")) = some out' := hout
  cases hans
  exact absurd (status_matches.mp hmatch) (by decide)

end Tadpole
