import Tadpole.Rejection

/-! Inline commands. What `sdssplitargs` makes of a line is freed as if zmalloc.c had allocated it, so a line ends the
process before its command is executed. -/
namespace Tadpole

/-- A line and whether it ends in CRLF or in LF alone. -/
structure InlineLine where
  text : Bytes
  crlf : Bool
  deriving DecidableEq

def InlineLine.bytes (l : InlineLine) : Bytes := l.text++if l.crlf then CRLF else [LF]

def lineArgs (text : Bytes) : List Bytes := ((sdssplitargs text).getD []).filter fun a => a ≠ []

def commandsOf (ls : List InlineLine) : List (List Bytes) :=
  (ls.map fun l => lineArgs l.text).filter fun argv => argv ≠ []

/-- A line that is no multibulk request and has its quotes balanced. -/
structure InlineLine.Whole (l : InlineLine) : Prop where
  nul : NUL ∉ l.text
  lf : LF ∉ l.text
  star : l.text.head? ≠ some 42
  balanced : (sdssplitargs l.text).isSome

theorem InlineLine.whole_iff (l : InlineLine) : (NUL ∉ l.text ∧ LF ∉ l.text ∧ l.text.head? ≠ some 42 ∧
    (sdssplitargs l.text).isSome) ↔ l.Whole :=
  ⟨fun h => ⟨h.1,h.2.1,h.2.2.1,h.2.2.2⟩,fun h => ⟨h.nul,h.lf,h.star,h.balanced⟩⟩

instance InlineLine.decidableWhole (l : InlineLine) : Decidable l.Whole := decidable_of_iff _ l.whole_iff

def linesBytes (ls : List InlineLine) : Bytes := ls.flatMap InlineLine.bytes

/-- The commands executed are those of the lines, and in the end nothing is left in the buffer. -/
def ExecutesLines (ls : List InlineLine) (chunks : List Bytes) : Prop :=
  executed (readAll commandStatus createClient chunks) = untilExit commandStatus (commandsOf ls) ∧
    ((∀ r ∈ commandsOf ls, commandStatus r ≠ .exit) →
      ∃ c, (readAll commandStatus createClient chunks).2 = .idle c ∧ c.querybuf = [])

theorem closesToken_cr (s : Bytes) : closesToken (s++[CR]) = closesToken s := by
  cases s <;> rfl

theorem splitArgs_cr (mode : ArgMode) (current : Bytes) (vector : List Bytes) (s : Bytes) :
    splitArgs mode current vector (s++[CR]) = splitArgs mode current vector s := by
  have hspace : isspace CR = true := rfl
  have hhex : isHexDigit CR = false := rfl
  have hx : unescape 120 = 120 := rfl
  have h34 : CR ≠ 34 := by decide
  have h39 : CR ≠ 39 := by decide
  fun_induction splitArgs mode current vector s
  case case3 => simp [splitArgs,h34]
  case case4 => simp [splitArgs,h39]
  case case7 current vector c s hshort ih =>
    -- the CR can be the second of two bytes behind \x, but it is no hex digit
    by_cases hc : c = 120
    · subst hc
      match s with
      | [] => simpa [splitArgs] using ih
      | [a] => simpa [splitArgs,hhex,hx] using ih
      | a::b::s => exact (hshort a b s rfl rfl).elim
    · simpa [splitArgs,hc] using ih
  case case10 current vector b s _ hshort hb ih =>
    match s with
    | [] =>
      by_cases h92 : b = 92
      · subst h92; simp [splitArgs]
      · simpa [splitArgs,hb,h92] using ih
    | c::s =>
      have h92 : b ≠ 92 := fun h => hshort c s h rfl
      simpa [splitArgs,hb,h92] using ih
  case case14 current vector b s hshort hb ih =>
    match s with
    | [] =>
      rw [List.nil_append] at ih
      rw [← ih,List.cons_append,List.nil_append,splitArgs,if_neg hb]
      intro s _ hs
      exact absurd (List.cons.inj hs).1 (by decide)
    | c::s =>
      by_cases h92 : b = 92
      · have hc : c ≠ 39 := by
          rintro rfl
          exact hshort s h92 rfl
        simpa [splitArgs,hb,hc] using ih
      · simpa [splitArgs,hb,h92] using ih
  all_goals simp_all [splitArgs,closesToken_cr]

theorem sdssplitargs_cr {t : Bytes} (h : NUL ∉ t) : sdssplitargs (t++[CR]) = sdssplitargs t := by
  have h' : NUL ∉ t++[CR] := by simpa [show NUL ≠ CR by decide] using h
  rw [sdssplitargs,sdssplitargs,cstr_eq_self h,cstr_eq_self h',splitArgs_cr]

def InlineLine.body (l : InlineLine) : Bytes := if l.crlf then l.text++[CR] else l.text

theorem InlineLine.bytes_eq (l : InlineLine) : l.bytes = l.body++[LF] := by
  rw [InlineLine.bytes,InlineLine.body]
  split_ifs
  · rw [List.append_assoc]
    rfl
  · rfl

theorem InlineLine.Whole.body {l : InlineLine} (hl : l.Whole) : LF ∉ l.body ∧ NUL ∉ l.body := by
  have hlf := hl.lf
  have hnul := hl.nul
  rw [InlineLine.body]
  split_ifs
  · simpa [show LF ≠ CR by decide,show NUL ≠ CR by decide] using ⟨hlf,hnul⟩
  · exact ⟨hlf,hnul⟩

theorem InlineLine.Whole.front_args {l : InlineLine} (hl : l.Whole) :
    sdssplitargs (if l.body.getLast? = some CR then l.body.dropLast else l.body) = sdssplitargs l.text := by
  have hcr : ∀ t : Bytes, (t++[CR]).getLast? = some CR := fun t => by simp
  rw [InlineLine.body]
  by_cases hl' : l.crlf
  · rw [if_pos hl',if_pos (hcr _),List.dropLast_concat]
  · rw [if_neg hl']
    by_cases hlast : l.text.getLast? = some CR
    · rw [if_pos hlast]
      obtain ⟨t,ht⟩ : ∃ t, l.text = t++[CR] := ⟨_,(List.dropLast_append_getLast? CR hlast).symm⟩
      have hnul := hl.nul
      rw [ht] at hnul ⊢
      rw [List.dropLast_concat,sdssplitargs_cr fun h => hnul (by simp [h])]
    · rw [if_neg hlast]

theorem InlineLine.Whole.head {l : InlineLine} (hl : l.Whole) (rest : Bytes) : (l.bytes++rest).head? ≠ some 42 := by
  have hstar := hl.star
  rw [InlineLine.bytes]
  cases ht : l.text with
  | nil => cases l.crlf <;> exact fun h => absurd (Option.some.inj h) (by decide)
  | cons b t =>
    rw [ht] at hstar
    simpa using hstar

/-- A whole line at the front of the buffer: its arguments are there, and the process ends with their vector. The line
is taken to end two bytes behind its text. -/
theorem processInlineBuffer_line {l : InlineLine} (hl : l.Whole) (rest : Bytes) (t : ReqType) (k : ℕ) (n : ℤ)
    (argv : List Bytes) :
    processInlineBuffer ⟨l.bytes++rest,t,k,n,argv⟩ = .badFree ⟨sdsrange (l.bytes++rest)
      (int32 ((if l.body.getLast? = some CR then l.body.length-1 else l.body.length : ℕ)+2)) (-1),t,k,n,lineArgs l.text⟩ := by
  obtain ⟨hlf,hnul⟩ := hl.body
  obtain ⟨args,hargs⟩ := Option.isSome_iff_exists.mp hl.balanced
  have hfront := hl.front_args
  rw [hargs] at hfront
  have hbytes : l.bytes++rest = l.body++LF::rest := by rw [l.bytes_eq,List.append_assoc]; rfl
  rw [hbytes]
  have hchr : strchr LF (l.body++LF::rest) = some l.body.length := by
    rw [strchr_append hlf hnul,strchr_self,Option.map_some,Nat.add_zero]
  -- the byte in front of the LF
  have hprev : (l.body.length ≠ 0 ∧ (l.body++LF::rest)[l.body.length-1]? = some CR) ↔
      l.body.getLast? = some CR := by
    rw [List.getLast?_eq_getElem?]
    by_cases h0 : l.body.length = 0
    · simp [List.length_eq_zero_iff.mp h0]
    · rw [List.getElem?_append_left (by omega)]
      simp [h0]
  rw [processInlineBuffer]
  dsimp only
  rw [hchr]
  dsimp only
  by_cases hcr : l.body.getLast? = some CR
  · have htake : (l.body++LF::rest).take (l.body.length-1) = l.body.dropLast := by
      rw [List.take_append_of_le_length (Nat.sub_le _ _),List.dropLast_eq_take]
    rw [if_pos (hprev.mpr hcr),htake]
    rw [if_pos hcr] at hfront ⊢
    rw [hfront]
    dsimp only
    rw [zfreeSplit_eq,lineArgs,hargs,Option.getD_some]
  · rw [if_neg fun h => hcr (hprev.mp h),List.take_left' rfl]
    rw [if_neg hcr] at hfront ⊢
    rw [hfront]
    dsimp only
    rw [zfreeSplit_eq,lineArgs,hargs,Option.getD_some]

def Inlines (c : Client) (b : Bytes) : Prop :=
  c = ⟨b,.unknown,0,-1,[]⟩ ∨ c = ⟨b,.inline,0,-1,[]⟩ ∧ b ≠ []

theorem Inlines.parse {c : Client} {b : Bytes} (hc : Inlines c b) (hstar : b.head? ≠ some 42) :
    parse (setReqtype c) = some (processInlineBuffer ⟨b,.inline,0,-1,[]⟩) := by
  have hset : setReqtype c = ⟨b,.inline,0,-1,[]⟩ := by
    rcases hc with rfl | ⟨rfl,-⟩
    · rw [setReqtype,if_pos rfl]
      dsimp only
      rw [if_neg hstar]
    · exact if_neg fun h : ReqType.inline = .unknown => by cases h
  rw [hset,Tadpole.parse,if_pos rfl]

theorem Inlines.append {c : Client} {b : Bytes} (hc : Inlines c b) (s : Bytes) :
    c.querybuf = b ∧ Inlines {c with querybuf := c.querybuf++s} (b++s) := by
  rcases hc with rfl | ⟨rfl,hb⟩
  · exact ⟨rfl,Or.inl rfl⟩
  · exact ⟨rfl,Or.inr ⟨rfl,List.append_ne_nil_of_left_ne_nil hb s⟩⟩

section
variable {exec : List Bytes → Status}

theorem inputLoop_unfinished (exec : List Bytes → Status) (rounds : ℕ) {c : Client} {p : Bytes} (hc : Inlines c p)
    (hlf : LF ∉ p) (hstar : p.head? ≠ some 42) : ∃ d, inputLoop exec rounds c = ([],.idle d) ∧ Inlines d p := by
  have hq : c.querybuf = p := by rcases hc with rfl | ⟨rfl,-⟩ <;> rfl
  by_cases hnil : p = []
  · have hempty : inputLoop exec rounds c = ([],.idle c) := by
      cases rounds <;> rw [inputLoop,if_pos (hq.trans hnil)]
    exact ⟨c,hempty,hc⟩
  · have hwait : processInlineBuffer ⟨p,.inline,0,-1,[]⟩ = .err none ⟨p,.inline,0,-1,[]⟩ := by
      rw [processInlineBuffer]
      dsimp only
      rw [strchr_none hlf]
    have hparse := hc.parse hstar
    rw [hwait] at hparse
    refine ⟨_,?_,Or.inr ⟨rfl,hnil⟩⟩
    cases rounds <;> rw [inputLoop,if_neg (by rw [hq]; exact hnil),hparse]

theorem inputLoop_line (rounds : ℕ) {c : Client} {l : InlineLine} (hl : l.Whole) {rest : Bytes}
    (hc : Inlines c (l.bytes++rest)) : inputLoop exec rounds c = ([],.badFree) := by
  have hq : c.querybuf ≠ [] := by
    have hne : l.bytes++rest ≠ [] := by simp [l.bytes_eq]
    rcases hc with rfl | ⟨rfl,-⟩ <;> exact hne
  have hparse := hc.parse (hl.head rest)
  rw [processInlineBuffer_line hl] at hparse
  cases rounds <;> rw [inputLoop,if_neg hq,hparse]

/-- However a line is read, with it the process ends, and nothing is executed. -/
theorem readAll_line (exec : List Bytes → Status) {chunks : List Bytes} {c : Client} {p : Bytes} (hc : Inlines c p)
    (hp : LF ∉ p) {l : InlineLine} (hl : l.Whole) {rest : Bytes} (hcut : p++chunks.flatten = l.bytes++rest) :
    executed (readAll exec c chunks) = [] ∧ (readAll exec c chunks).2 = .badFree := by
  induction chunks generalizing c p with
  | nil =>
    rw [List.flatten_nil,List.append_nil,l.bytes_eq] at hcut
    exact absurd (by simp [hcut]) hp
  | cons s chunks ih =>
    rw [List.flatten_cons,← List.append_assoc] at hcut
    have hbytes : l.bytes++rest = l.body++LF::rest := by rw [l.bytes_eq,List.append_assoc]; rfl
    by_cases hlf : LF ∈ p++s
    · -- the first LF is that of the line
      obtain ⟨t,ht⟩ : l.bytes <+: p++s := by
        refine List.prefix_of_prefix_length_le ⟨rest,rfl⟩ ⟨chunks.flatten,hcut⟩ ?_
        by_contra hlen
        have hfront : p++s <+: l.body := by
          refine List.prefix_of_prefix_length_le ⟨chunks.flatten,hcut⟩ (hbytes ▸ List.prefix_append _ _) ?_
          rw [l.bytes_eq,List.length_append,List.length_singleton] at hlen
          omega
        exact hl.body.1 (hfront.subset hlf)
      obtain ⟨hq,hcs⟩ := hc.append s
      rw [← ht] at hcs
      have hread : readQueryFromClient exec c s = ([],.badFree) := inputLoop_line _ hl hcs
      rw [readAll,hread]
      exact ⟨rfl,rfl⟩
    · have hstar : (p++s).head? ≠ some 42 := by
        cases hps : p++s with
        | nil => simp
        | cons b t =>
          have hhead := hl.head rest
          rw [← hcut,hps] at hhead
          exact hhead
      obtain ⟨d,hd,hdi⟩ := inputLoop_unfinished exec (c.querybuf++s).length (hc.append s).2 hlf hstar
      have hread : readQueryFromClient exec c s = ([],.idle d) := hd
      rw [readAll,hread]
      exact ih hdi hlf hcut

end

/-- However lines are cut into reads, none of their commands is executed: the first line ends the process. -/
theorem executesLines_iff {ls : List InlineLine} {chunks : List Bytes}
    (hls : ∀ l ∈ ls, l.Whole ∧ isQuit (lineArgs l.text) = false) (hcut : chunks.flatten = linesBytes ls) :
    ExecutesLines ls chunks ↔ ls = [] := by
  constructor
  · intro h
    cases ls with
    | nil => rfl
    | cons l ls =>
      obtain ⟨hnone,hfreed⟩ := readAll_line commandStatus (c:=createClient) (p:=[]) (Or.inl rfl)
        List.not_mem_nil (hls l (by simp)).1 (hcut.trans List.flatMap_cons)
      obtain ⟨hexec,hidle⟩ := h
      rw [hnone] at hexec
      have hblank : commandsOf (l::ls) = [] := by
        cases hcmds : commandsOf (l::ls) with
        | nil => rfl
        | cons r rs =>
          rw [hcmds,untilExit] at hexec
          cases hexec
      obtain ⟨c,hc,-⟩ := hidle (by simp [hblank])
      cases hfreed.symm.trans hc
  · rintro rfl
    have hempty : ∀ s ∈ chunks, s = [] := List.flatten_eq_nil_iff.mp hcut
    have hread : executed (readAll commandStatus createClient chunks) = [] ∧
        (readAll commandStatus createClient chunks).2 = .idle createClient := by
      clear hcut
      induction chunks with
      | nil => exact ⟨rfl,rfl⟩
      | cons s chunks ih =>
        obtain rfl := hempty s (by simp)
        exact ih fun t ht => hempty t (by simp [ht])
    exact ⟨hread.1,fun _ => ⟨_,hread.2,rfl⟩⟩

/-- Two lines in three reads. -/
theorem get_ping_not_executesLines : ¬ ExecutesLines [⟨str "get a",false⟩,⟨str "ping",true⟩]
    [str "ge",str "t a\n",str "ping\r\n"] :=
  fun h => List.cons_ne_nil _ _ ((executesLines_iff (by decide +kernel) (by decide +kernel)).mp h)

/-- One line. -/
theorem ping_not_executesLines : (⟨str "ping",true⟩ : InlineLine).Whole ∧
    readAll commandStatus createClient [str "ping\r\n"] = ([[]],.badFree) ∧
    ¬ ExecutesLines [⟨str "ping",true⟩] [str "ping\r\n"] :=
  ⟨by decide +kernel,by decide +kernel,fun h => absurd h.1 (by decide +kernel)⟩

/-- Were it not for the free, the byte behind a lone LF would be lost: the line end is always taken to be two bytes. -/
theorem processInlineBuffer_drops {l : InlineLine} (hl : l.Whole) {rest : Bytes} (t : ReqType) (k : ℕ) (n : ℤ)
    (argv : List Bytes) (hfit : (l.bytes++rest).length < 2147483647) :
    processInlineBuffer ⟨l.bytes++rest,t,k,n,argv⟩ =
      .badFree ⟨if l.body.getLast? = some CR then rest else rest.drop 1,t,k,n,lineArgs l.text⟩ := by
  have hlen : l.bytes.length = l.body.length+1 := by rw [l.bytes_eq,List.length_append,List.length_singleton]
  rw [List.length_append] at hfit
  rw [processInlineBuffer_line hl]
  by_cases hcr : l.body.getLast? = some CR
  · have hpos : 0 < l.body.length := List.length_pos_iff.mpr fun h => by simp [h] at hcr
    have hcut : sdsrange (l.bytes++rest) (int32 ((l.body.length-1 : ℕ)+2)) (-1) = rest := by
      rw [int32_of_bounds (by omega) (by omega),show ((l.body.length-1 : ℕ) : ℤ)+2 = (l.bytes.length : ℕ) by omega,
        sdsrange_drop (by rw [List.length_append]; omega),List.drop_left]
    rw [if_pos hcr,if_pos hcr,hcut]
  · have hcut : sdsrange (l.bytes++rest) (int32 (l.body.length+2)) (-1) = rest.drop 1 := by
      rw [int32_of_bounds (by omega) (by omega),show (l.body.length : ℤ)+2 = (l.bytes.length+1 : ℕ) by omega,
        sdsrange_drop (by rw [List.length_append]; omega),← List.drop_drop,List.drop_left]
    rw [if_neg hcr,if_neg hcr,hcut]

end Tadpole
