import Tadpole.LoopTermination

/-! What the parser touches: the slots of `argv`, the offset `pos`, the bytes it looks at and the pieces of the
buffer it hands on. They are noted beside the model's own functions, in the order of the code. -/
namespace Tadpole

/-- The count that the open request announced, and the slots that were allocated for `argv` last. -/
structure Allocation where
  announced : ℕ
  slots : ℕ

/-- A step of the parser that is noted: it is at some offset with this client, stores to a slot of `argv`, sets
`pos`, looks at the byte at an offset or hands on so many bytes from an offset, of a buffer of some length. -/
inductive Access
  | point (c : Client) (pos : ℤ) (a : Allocation)
  | store (i : ℕ) (a : Allocation)
  | setPos (pos : ℤ) (len : ℕ)
  | examine (pos : ℤ) (len : ℕ)
  | slice (pos n : ℤ) (len : ℕ)

/-- While a request is open its arguments, those there and those to come, are as many as were announced, and so
are the slots. -/
def Client.Allocated (c : Client) (a : Allocation) : Prop :=
  c.multibulklen ≠ 0 → c.argv.length+c.multibulklen = a.announced ∧ a.announced = a.slots

def Access.Ok : Access → Prop
  | point c pos a => 0 ≤ pos ∧ pos ≤ c.querybuf.length ∧ BulkLengthOk c.bulklen ∧ c.Allocated a
  | store i a => i < a.slots
  | setPos pos len => 0 ≤ pos ∧ pos ≤ len
  | examine pos len => 0 ≤ pos ∧ pos < len
  | slice pos n len => 0 ≤ pos ∧ 0 ≤ n ∧ pos+n ≤ len

/-- `readHeader`: the byte at `pos`, and the digits behind it for `string2ll`. -/
def headerAccesses (c : Client) (pos : ℤ) : List Access :=
  if c.bulklen ≠ -1 then []
  else
    match strchr CR (c.querybuf.drop pos.toNat) with
    | none => []
    | some n =>
      if pos+n > int32 (int32 c.querybuf.length-2) then []
      else
        .examine pos c.querybuf.length::
          if (c.querybuf.drop pos.toNat).head? ≠ some 36 then []
          else
            .slice (pos+1) (n-1) c.querybuf.length::
              match bulkLength (((c.querybuf.drop pos.toNat).drop 1).take (n-1)) with
              | none => []
              | some _ => [.setPos (int32 (pos+n+2)) c.querybuf.length]

/-- The body of the loop: behind the header, the store of an argument and the bytes for `sdsnewlen`. -/
def passAccesses (a : Allocation) (c : Client) (pos : ℤ) : List Access :=
  headerAccesses c pos++
    match readHeader c pos with
    | .known c pos =>
      .setPos pos c.querybuf.length::
        if c.querybuf.length-pos < (c.bulklen+2)%4294967296 then []
        else if pos = 0 ∧ c.bulklen ≥ PROTO_MBULK_BIG_ARG ∧ int32 c.querybuf.length = c.bulklen+2 then
          [.store c.argv.length a]
        else
          [.store c.argv.length a,.slice pos c.bulklen c.querybuf.length,
            .setPos (int32 (pos+c.bulklen+2)) c.querybuf.length]
    | _ => []

/-- `while (c->multibulklen)`. -/
def loopAccesses (a : Allocation) : ℕ → Client → ℤ → List Access
  | 0, c, pos => [.point c pos a]
  | n+1, c, pos =>
    .point c pos a::
      (passAccesses a c pos++
        match bulkPass c pos with
        | .next c pos => loopAccesses a n c pos
        | .stop _ => [])

/-- `processMultibulkBuffer`, up to an assertion that fails, and what is allocated behind it. -/
def multibulkAccesses (a : Allocation) (c : Client) : List Access × Allocation :=
  if c.multibulklen = 0 then
    if c.argv ≠ [] then ([],a)
    else
      match strchr CR c.querybuf with
      | none => ([],a)
      | some n =>
        if n > int32 (int32 c.querybuf.length-2) then ([],a)
        else if c.querybuf.head? ≠ some 42 then ([.examine 0 c.querybuf.length],a)
        else
          let digits := [Access.examine 0 c.querybuf.length,.slice 1 (n-1) c.querybuf.length]
          match string2ll ((c.querybuf.drop 1).take (n-1)) with
          | none => (digits,a)
          | some ll =>
            if ll > MAX_MULTIBULK then (digits,a)
            else
              let line := digits++[.setPos (int32 (n+2)) c.querybuf.length]
              if ll ≤ 0 then (line,a)
              else
                let a := ⟨ll.toNat,ll.toNat⟩
                (line++loopAccesses a ll.toNat {c with multibulklen := ll.toNat} (int32 (n+2)),a)
  else (loopAccesses a c.multibulklen c 0,a)

/-- `processInlineBuffer`: the byte in front of the line end, the line for `sdsnewlen`, and a store for each
argument that is not empty, to as many slots as there are arguments. -/
def inlineAccesses (a : Allocation) (c : Client) : List Access × Allocation :=
  match strchr LF c.querybuf with
  | none => ([],a)
  | some n =>
    let querylen := if n ≠ 0 ∧ c.querybuf[n-1]? = some CR then n-1 else n
    let line := (if n = 0 then [] else [Access.examine (n-1) c.querybuf.length])++[.slice 0 querylen c.querybuf.length]
    match sdssplitargs (c.querybuf.take querylen) with
    | none => (line,a)
    | some argv =>
      let a := if argv = [] then a else ⟨a.announced,argv.length⟩
      (line++(List.range (argv.filter fun s => s ≠ []).length).map fun i => .store i a,a)

/-- A round of `processInputBuffer`, which looks at the first byte and calls the parser. -/
def callAccesses (a : Allocation) (x : Client) : List Access × Allocation :=
  let r := if x.reqtype = .inline then inlineAccesses a x else multibulkAccesses a x
  (.examine 0 x.querybuf.length::.point x 0 a::r.1,r.2)

def runAccesses (a : Allocation) : List Client → List Access
  | [] => []
  | x::calls => (callAccesses a x).1++runAccesses (callAccesses a x).2 calls

theorem headerAccesses_ok {c : Client} {pos : ℕ} (hlen : c.querybuf.length < 2147483648) :
    ∀ t ∈ headerAccesses c pos, t.Ok := by
  rw [headerAccesses,Int.toNat_natCast]
  by_cases hb : c.bulklen ≠ -1
  · rw [if_pos hb]
    simp
  rw [if_neg hb]
  cases hcr : strchr CR (c.querybuf.drop pos) with
  | none => simp
  | some n =>
    dsimp only
    by_cases hfar : (pos : ℤ)+n > int32 (int32 c.querybuf.length-2)
    · rw [if_pos hfar]
      simp
    rw [if_neg hfar]
    rw [int32_nat hlen,int32_of_bounds (by omega) (by omega)] at hfar
    refine List.forall_mem_cons.mpr ⟨⟨by omega,by omega⟩,?_⟩
    by_cases hmark : (c.querybuf.drop pos).head? ≠ some 36
    · rw [if_pos hmark]
      simp
    rw [if_neg hmark]
    -- the mark is not the CR, so there is a byte between the two offsets
    have hn : n ≠ 0 := by
      rintro rfl
      obtain ⟨l,t,hs,hl,-,-⟩ := strchr_some hcr
      obtain rfl := List.length_eq_zero_iff.mp hl
      rw [hs] at hmark
      exact hmark fun hne => absurd (Option.some.inj hne : CR = 36) (by decide)
    refine List.forall_mem_cons.mpr ⟨⟨by omega,by omega,by omega⟩,?_⟩
    cases bulkLength (((c.querybuf.drop pos).drop 1).take (n-1)) with
    | none => simp
    | some len =>
      rw [int32_of_bounds (by omega) (by omega)]
      exact List.forall_mem_singleton.mpr ⟨by omega,by omega⟩

theorem passAccesses_ok {a : Allocation} {c : Client} {pos : ℕ} (hlen : c.querybuf.length < 2147483648)
    (hpos : pos ≤ c.querybuf.length) (hb : BulkLengthOk c.bulklen) (hstore : c.argv.length < a.slots) :
    ∀ t ∈ passAccesses a c pos, t.Ok := by
  rw [passAccesses]
  refine List.forall_mem_append.mpr ⟨headerAccesses_ok hlen,?_⟩
  cases hr : readHeader c pos with
  | error log => simp
  | more => simp
  | known d pos' =>
    obtain ⟨len,b,k,htakes,rfl,rfl,hk,hblen⟩ := readHeader_takes hlen (Int.natCast_nonneg pos) (by omega) hb hr
    have hmax := htakes.len_le hb
    dsimp only
    rw [Int.emod_eq_of_lt (by omega) (by omega)]
    refine List.forall_mem_cons.mpr ⟨⟨by omega,by omega⟩,?_⟩
    split_ifs with hshort htake
    · simp
    · exact List.forall_mem_singleton.mpr hstore
    · rw [int32_of_bounds (by omega) (by omega)]
      simp only [List.forall_mem_cons,List.not_mem_nil,false_imp_iff,implies_true,and_true]
      exact ⟨hstore,⟨by omega,by omega,by omega⟩,by omega,by omega⟩

/-- The loop over the arguments: every pass keeps the sum, and so does a client that waits for more. -/
theorem loopAccesses_ok {a : Allocation} (ha : a.announced = a.slots) (n : ℕ) {c : Client} {pos : ℕ}
    (hlen : c.querybuf.length < 2147483648) (hpos : pos ≤ c.querybuf.length) (hb : BulkLengthOk c.bulklen)
    (hn : c.multibulklen = n) (hsum : c.argv.length+n = a.announced) :
    (∀ t ∈ loopAccesses a n c pos, t.Ok) ∧
      ∀ log d, bulkLoop n c pos = some (.err log d) → d.argv.length+d.multibulklen = a.announced := by
  have hpoint : (Access.point c pos a).Ok :=
    ⟨Int.natCast_nonneg pos,by omega,hb,fun _ => ⟨by omega,ha⟩⟩
  induction n generalizing c pos with
  | zero =>
    rw [loopAccesses,bulkLoop]
    refine ⟨List.forall_mem_singleton.mpr hpoint,fun log d hd => ?_⟩
    cases Option.some.inj hd
  | succ n ih =>
    have htakes := bulkPass_takes hlen hpos hb
    have hpass : ∀ t ∈ passAccesses a c pos, t.Ok := passAccesses_ok hlen hpos hb (by omega)
    rw [loopAccesses,bulkLoop_succ hn]
    generalize bulkPass c pos = q at htakes
    cases htakes with
    | rejected log _ =>
      refine ⟨List.forall_mem_cons.mpr ⟨hpoint,by simpa using hpass⟩,fun log' d hd => ?_⟩
      obtain ⟨-,rfl⟩ := Parsed.err.inj (Option.some.inj hd)
      omega
    | noLine _ =>
      refine ⟨List.forall_mem_cons.mpr ⟨hpoint,by simpa using hpass⟩,fun log d hd => ?_⟩
      obtain ⟨-,rfl⟩ := Parsed.err.inj (Option.some.inj hd)
      dsimp only
      omega
    | noPayload _ _ =>
      refine ⟨List.forall_mem_cons.mpr ⟨hpoint,by simpa using hpass⟩,fun log d hd => ?_⟩
      obtain ⟨-,rfl⟩ := Parsed.err.inj (Option.some.inj hd)
      dsimp only
      omega
    | @argument len p arg t b pos' h hp _ hposb hblen hrest _ =>
      have hsum' : (c.argv++[arg]).length+n = a.announced := by
        rw [List.length_append,List.length_singleton]
        omega
      obtain ⟨hall,herr⟩ := ih (c := ⟨b,c.reqtype,c.multibulklen-1,-1,c.argv++[arg]⟩) (by dsimp only; omega)
        hposb (Or.inl rfl) (by dsimp only; omega) hsum'
        ⟨Int.natCast_nonneg pos',by dsimp only; omega,Or.inl rfl,fun _ => ⟨by dsimp only; omega,ha⟩⟩
      exact ⟨List.forall_mem_cons.mpr ⟨hpoint,List.forall_mem_append.mpr ⟨hpass,hall⟩⟩,herr⟩

theorem strchr_pos {s : Bytes} {n : ℕ} (hcr : strchr CR s = some n) (hstar : s.head? = some 42) : n ≠ 0 := by
  rintro rfl
  obtain ⟨l,t,hs,hl,-,-⟩ := strchr_some hcr
  obtain rfl := List.length_eq_zero_iff.mp hl
  rw [hs] at hstar
  exact absurd (Option.some.inj hstar : CR = 42) (by decide)

theorem multibulkAccesses_ok {a : Allocation} {c : Client} (hlen : c.querybuf.length < 2147483648) (hb : c.BulkOk)
    (ha : c.Allocated a) : ∀ t ∈ (multibulkAccesses a c).1, t.Ok := by
  rw [multibulkAccesses]
  by_cases h0 : c.multibulklen = 0
  · rw [if_pos h0]
    by_cases hargv : c.argv ≠ []
    · rw [if_pos hargv]
      simp
    rw [if_neg hargv]
    cases hcr : strchr CR c.querybuf with
    | none => simp
    | some n =>
      dsimp only
      by_cases hfar : (n : ℤ) > int32 (int32 c.querybuf.length-2)
      · rw [if_pos hfar]
        simp
      rw [if_neg hfar]
      rw [int32_nat hlen,int32_of_bounds (by omega) (by omega)] at hfar
      have hint : int32 ((n : ℤ)+2) = ((n+2 : ℕ) : ℤ) := int32_of_bounds (by omega) (by omega)
      have hfirst : (Access.examine 0 c.querybuf.length).Ok := ⟨le_rfl,by omega⟩
      by_cases hstar : c.querybuf.head? ≠ some 42
      · rw [if_pos hstar]
        exact List.forall_mem_singleton.mpr hfirst
      rw [if_neg hstar]
      have hn := strchr_pos hcr (not_not.mp hstar)
      have hdigits : ∀ t ∈ [Access.examine 0 c.querybuf.length,.slice 1 (n-1) c.querybuf.length], t.Ok :=
        List.forall_mem_cons.mpr ⟨hfirst,List.forall_mem_singleton.mpr ⟨by omega,by omega,by omega⟩⟩
      cases string2ll ((c.querybuf.drop 1).take (n-1)) with
      | none => exact hdigits
      | some ll =>
        dsimp only
        by_cases hmax : ll > MAX_MULTIBULK
        · rw [if_pos hmax]
          exact hdigits
        rw [if_neg hmax,hint]
        have hset : (Access.setPos ((n+2 : ℕ) : ℤ) c.querybuf.length).Ok := ⟨by omega,by omega⟩
        have hall : ∀ t ∈ [Access.examine 0 c.querybuf.length,.slice 1 (n-1) c.querybuf.length]++
            [.setPos ((n+2 : ℕ) : ℤ) c.querybuf.length], t.Ok :=
          List.forall_mem_append.mpr ⟨hdigits,List.forall_mem_singleton.mpr hset⟩
        by_cases hneg : ll ≤ 0
        · rw [if_pos hneg]
          exact hall
        · have hline : c.bulklen = -1 := hb.resolve_right fun h => h.2.1 h0
          rw [if_neg hneg]
          refine List.forall_mem_append.mpr ⟨hall,?_⟩
          exact (loopAccesses_ok rfl ll.toNat (c := {c with multibulklen := ll.toNat}) hlen (by dsimp only; omega)
            (Or.inl hline) rfl (by dsimp only; rw [not_not.mp hargv]; exact Nat.zero_add _)).1
  · obtain ⟨hsum,hslots⟩ := ha h0
    rw [if_neg h0]
    exact (loopAccesses_ok hslots c.multibulklen hlen (Nat.zero_le _) (hb.imp_right fun h => h.2.2) rfl hsum).1

theorem CountLine.allocation {c : Client} {n : ℕ} {ll : ℤ} (h : CountLine c n ll) (hpos : 0 < ll) (a : Allocation) :
    (multibulkAccesses a c).2 = ⟨ll.toNat,ll.toNat⟩ := by
  rw [multibulkAccesses,if_pos h.closed,if_neg (not_not.mpr h.reset),h.cr]
  dsimp only
  rw [if_neg h.whole,if_neg (not_not.mpr h.star),h.number]
  dsimp only
  rw [if_neg h.limit,if_neg (not_le.mpr hpos)]

theorem multibulkAccesses_allocated {a : Allocation} {c d : Client} {log : Option Bytes}
    (hlen : c.querybuf.length < 2147483648) (hb : c.BulkOk) (ha : c.Allocated a)
    (hd : processMultibulkBuffer c = some (.err log d)) : d.Allocated (multibulkAccesses a c).2 := by
  have hcases := processMultibulkBuffer_cases c
  generalize processMultibulkBuffer c = p at hd hcases
  cases hcases with
  | notReset _ _ => cases hd
  | noStar _ _ => cases hd
  | blank _ _ => cases hd
  | waits log' h0 _ =>
    obtain ⟨-,rfl⟩ := Parsed.err.inj (Option.some.inj hd)
    exact fun hne => absurd h0 hne
  | @counted n ll hline hpos =>
    have hbulk : c.bulklen = -1 := hb.resolve_right fun h => h.2.1 hline.closed
    obtain ⟨hint,hin⟩ := hline.offset hlen
    rw [hint] at hd
    rw [hline.allocation hpos]
    exact fun _ => ⟨(loopAccesses_ok rfl ll.toNat (c := {c with multibulklen := ll.toNat}) hlen hin (Or.inl hbulk) rfl
      (by dsimp only; rw [hline.reset]; exact Nat.zero_add _)).2 log d hd,rfl⟩
  | resumed h0 =>
    obtain ⟨hsum,hslots⟩ := ha h0
    rw [multibulkAccesses,if_neg h0]
    exact fun _ => ⟨(loopAccesses_ok hslots c.multibulklen hlen (Nat.zero_le _) (hb.imp_right fun h => h.2.2) rfl hsum).2
      log d hd,hslots⟩

theorem inlineAccesses_ok (a : Allocation) (c : Client) : ∀ t ∈ (inlineAccesses a c).1, t.Ok := by
  rw [inlineAccesses]
  cases hlf : strchr LF c.querybuf with
  | none => simp
  | some n =>
    have hn : n < c.querybuf.length := by
      obtain ⟨l,t,hs,rfl,-,-⟩ := strchr_some hlf
      rw [hs,List.length_append,List.length_cons]
      omega
    dsimp only
    generalize hline : (if n ≠ 0 ∧ c.querybuf[n-1]? = some CR then n-1 else n) = len
    have hle : len ≤ n := by
      rw [← hline]
      split_ifs <;> omega
    have hfront : ∀ t ∈ (if n = 0 then [] else [Access.examine (n-1) c.querybuf.length])++
        [.slice 0 len c.querybuf.length], t.Ok := by
      refine List.forall_mem_append.mpr ⟨?_,List.forall_mem_singleton.mpr ⟨le_rfl,by omega,by omega⟩⟩
      split_ifs with h0
      · simp
      · exact List.forall_mem_singleton.mpr ⟨by omega,by omega⟩
    cases sdssplitargs (c.querybuf.take len) with
    | none => exact hfront
    | some argv =>
      dsimp only
      refine List.forall_mem_append.mpr ⟨hfront,fun t ht => ?_⟩
      obtain ⟨i,hi,rfl⟩ := List.mem_map.mp ht
      have hfew := List.length_filter_le (fun s => decide (s ≠ [])) argv
      rw [List.mem_range] at hi
      have hargv : argv ≠ [] := by
        rintro rfl
        simp at hi
      rw [if_neg hargv]
      exact hi.trans_le hfew

/-- What holds of a client and what was allocated for it, between two calls of the parser. -/
structure Client.Sound (c : Client) (a : Allocation) : Prop where
  bulk : c.BulkOk
  closed : c.reqtype ≠ .multibulk → c.multibulklen = 0
  allocated : c.Allocated a

theorem Client.sound_of_closed {c : Client} (hb : c.bulklen = -1) (hn : c.multibulklen = 0) (a : Allocation) : c.Sound a :=
  ⟨Or.inl hb,fun _ => hn,fun hne => absurd hn hne⟩

theorem setReqtype_sound {c : Client} {a : Allocation} (h : c.Sound a) : (setReqtype c).Sound a := by
  refine ⟨(setReqtype_bulk h.bulk).2,?_,?_⟩
  · rw [setReqtype]
    by_cases hu : c.reqtype = .unknown
    · rw [if_pos hu]
      exact fun _ => h.closed (by rw [hu]; decide)
    · rw [if_neg hu]
      exact h.closed
  · rw [setReqtype]
    by_cases hu : c.reqtype = .unknown
    · rw [if_pos hu]
      exact h.allocated
    · rw [if_neg hu]
      exact h.allocated

theorem callAccesses_ok {c : Client} {a : Allocation} (h : c.Sound a) (hne : c.querybuf ≠ [])
    (hlen : c.querybuf.length < 2147483648) :
    (∀ t ∈ (callAccesses a (setReqtype c)).1, t.Ok) ∧
      (∀ log d, parse (setReqtype c) = some (.err log d) → d.Sound (callAccesses a (setReqtype c)).2) ∧
      ∀ d, parse (setReqtype c) = some (.ok d) → ∀ a', d.Sound a' := by
  have hq := (setReqtype_bulk h.bulk).1
  have hpos := List.length_pos_iff.mpr hne
  have hleaves := parse_leavesBulk h.bulk
  have hx := setReqtype_sound h
  have hknown := setReqtype_known c
  rw [← hq] at hpos hlen
  generalize setReqtype c = x at hpos hlen hleaves hx hknown
  have hhead : (Access.examine 0 x.querybuf.length).Ok := ⟨le_rfl,by omega⟩
  have hpoint : (Access.point x 0 a).Ok := ⟨le_rfl,by omega,hx.bulk.imp_right fun hb => hb.2.2,hx.allocated⟩
  rw [callAccesses]
  dsimp only
  cases ht : x.reqtype with
  | unknown => exact absurd ht hknown
  | inline =>
    have hclosed : x.multibulklen = 0 := hx.closed (by rw [ht]; decide)
    have hline : x.bulklen = -1 := hx.bulk.resolve_right fun hb => hb.2.1 hclosed
    rw [parse,if_pos ht,if_pos rfl]
    refine ⟨List.forall_mem_cons.mpr ⟨hhead,List.forall_mem_cons.mpr ⟨hpoint,inlineAccesses_ok a x⟩⟩,?_,?_⟩
    · intro log d hd
      obtain hp | ⟨b,argv,hp⟩ := processInlineBuffer_cases x
      · obtain ⟨-,rfl⟩ := Parsed.err.inj (hp.symm.trans (Option.some.inj hd))
        exact Client.sound_of_closed hline hclosed _
      · cases hp.symm.trans (Option.some.inj hd)
    · intro d hd a'
      obtain hp | ⟨b,argv,hp⟩ := processInlineBuffer_cases x
      · cases hp.symm.trans (Option.some.inj hd)
      · cases hp.symm.trans (Option.some.inj hd)
  | multibulk =>
    have hall := multibulkAccesses_ok hlen hx.bulk hx.allocated
    have hparse : parse x = processMultibulkBuffer x := by rw [parse,if_neg (by rw [ht]; decide)]
    rw [hparse] at hleaves ⊢
    rw [if_neg (by decide)]
    refine ⟨List.forall_mem_cons.mpr ⟨hhead,List.forall_mem_cons.mpr ⟨hpoint,hall⟩⟩,?_,?_⟩
    · intro log d hd
      have hda := multibulkAccesses_allocated hlen hx.bulk hx.allocated hd
      obtain ⟨d',hd',-⟩ | ⟨log',d',hd',hdt⟩ | hd' := processMultibulkBuffer_left ht hd
      · cases hd'
      · obtain ⟨-,rfl⟩ := Parsed.err.inj hd'
        rw [hd] at hleaves
        cases hleaves with
        | err hdb => exact ⟨hdb,fun hne => absurd hdt hne,hda⟩
      · cases hd'
    · intro d hd a'
      obtain ⟨d',hd',hm⟩ | ⟨log',d',hd',-⟩ | hd' := processMultibulkBuffer_left ht hd
      · obtain rfl := Parsed.ok.inj hd'
        rw [hd] at hleaves
        cases hleaves with
        | ok hdb => exact Client.sound_of_closed hdb hm a'
      · cases hd'
      · cases hd'

def finalAllocation (a : Allocation) (calls : List Client) : Allocation :=
  calls.foldl (fun a x => (callAccesses a x).2) a

theorem runAccesses_append (a : Allocation) (calls calls' : List Client) :
    runAccesses a (calls++calls') = runAccesses a calls++runAccesses (finalAllocation a calls) calls' := by
  induction calls generalizing a with
  | nil => rfl
  | cons x calls ih => rw [List.cons_append,runAccesses,runAccesses,ih,List.append_assoc]; rfl

section
variable {exec : List Bytes → Status}

theorem Client.Parses.accesses_ok {c : Client} {a : Allocation} {p : Option Parsed} (hp : c.Parses p) (hc : c.Sound a)
    (hlen : (setReqtype c).querybuf.length < 2147483648) :
    (∀ t ∈ (callAccesses a (setReqtype c)).1, t.Ok) ∧
      (∀ log d, p = some (.err log d) → d.Sound (callAccesses a (setReqtype c)).2) ∧
      ∀ d, p = some (.ok d) → ∀ a', d.Sound a' := by
  rw [(setReqtype_bulk hc.bulk).1] at hlen
  rw [← hp.2]
  exact callAccesses_ok hc hp.1 hlen

theorem runAccesses_singleton (a : Allocation) (x : Client) : runAccesses a [x] = (callAccesses a x).1 :=
  List.append_nil _

theorem LoopRun.accesses_ok {c : Client} {es : List Event} {calls : List Client} {r : Result} {a : Allocation}
    (h : LoopRun exec c es calls r) (hc : c.Sound a) (hlen : ∀ x ∈ calls, x.querybuf.length < 2147483648) :
    (∀ t ∈ runAccesses a calls, t.Ok) ∧ ∀ d, r = .idle d → d.Sound (finalAllocation a calls) := by
  have hreset : ∀ (d : Client) a', (resetClient d).Sound a' := fun d a' => Client.sound_of_closed rfl rfl a'
  induction h generalizing a with
  | empty _ => exact ⟨by simp [runAccesses],fun d hd => Result.idle.inj hd ▸ hc⟩
  | waits hp =>
    obtain ⟨hall,herr,-⟩ := hp.accesses_ok hc (hlen _ (by simp))
    rw [runAccesses_singleton]
    exact ⟨hall,fun d' hd' => Result.idle.inj hd' ▸ herr _ _ rfl⟩
  | aborts hp =>
    rw [runAccesses_singleton]
    exact ⟨(hp.accesses_ok hc (hlen _ (by simp))).1,by simp⟩
  | frees hp =>
    rw [runAccesses_singleton]
    exact ⟨(hp.accesses_ok hc (hlen _ (by simp))).1,by simp⟩
  | fails hp =>
    rw [runAccesses_singleton]
    exact ⟨(hp.accesses_ok hc (hlen _ (by simp))).1,by simp⟩
  | repeats hp =>
    rw [runAccesses_singleton]
    exact ⟨(hp.accesses_ok hc (hlen _ (by simp))).1,by simp⟩
  | exits hp _ _ =>
    rw [runAccesses_singleton]
    exact ⟨(hp.accesses_ok hc (hlen _ (by simp))).1,by simp⟩
  | blank hp _ _ ih =>
    obtain ⟨hall,hidle⟩ := ih (hreset _ _) fun x hx => hlen x (by simp [hx])
    exact ⟨List.forall_mem_append.mpr ⟨(hp.accesses_ok hc (hlen _ (by simp))).1,hall⟩,hidle⟩
  | runs hp _ _ _ ih =>
    obtain ⟨hall,hidle⟩ := ih (hreset _ _) fun x hx => hlen x (by simp [hx])
    exact ⟨List.forall_mem_append.mpr ⟨(hp.accesses_ok hc (hlen _ (by simp))).1,hall⟩,hidle⟩
  | quits hp _ _ _ ih =>
    obtain ⟨hcall,-,hok⟩ := hp.accesses_ok hc (hlen _ (by simp))
    obtain ⟨hall,hidle⟩ := ih (hok _ rfl _) fun x hx => hlen x (by simp [hx])
    exact ⟨List.forall_mem_append.mpr ⟨hcall,hall⟩,hidle⟩

theorem sound_append {c : Client} {a : Allocation} (h : c.Sound a) (s : Bytes) :
    Client.Sound {c with querybuf := c.querybuf++s} a := ⟨h.bulk,h.closed,h.allocated⟩

theorem allCalls_ok {chunks : List Bytes} {c : Client} {a : Allocation} (hc : c.Sound a)
    (hlen : ∀ x ∈ allCalls exec c chunks, x.querybuf.length < 2147483648) :
    (∀ t ∈ runAccesses a (allCalls exec c chunks), t.Ok) ∧
      ∀ d, (readAll exec c chunks).2 = .idle d → d.Sound (finalAllocation a (allCalls exec c chunks)) := by
  induction chunks generalizing c a with
  | nil => exact ⟨by simp [allCalls,runAccesses],fun d hd => Result.idle.inj hd ▸ hc⟩
  | cons s chunks ih =>
    rw [allCalls] at hlen ⊢
    obtain ⟨hall,hidle⟩ := (readQueryFromClient_run exec c s).accesses_ok (sound_append hc s)
      fun x hx => hlen x (List.mem_append_left _ hx)
    rw [readAll,runAccesses_append]
    rcases hq : readQueryFromClient exec c s with ⟨es,r⟩
    rw [hq] at hidle hlen
    cases r with
    | idle c' =>
      obtain ⟨hrest,hend⟩ := ih (hidle c' rfl) fun x hx => hlen x (List.mem_append_right _ hx)
      refine ⟨List.forall_mem_append.mpr ⟨hall,hrest⟩,fun d hd => ?_⟩
      rw [finalAllocation,List.foldl_append]
      exact hend d hd
    | exit => exact ⟨by simpa [runAccesses] using hall,by simp⟩
    | abort => exact ⟨by simpa [runAccesses] using hall,by simp⟩
    | badFree => exact ⟨by simpa [runAccesses] using hall,by simp⟩
    | undefined => exact ⟨by simpa [runAccesses] using hall,by simp⟩

end

/-- However the bytes are cut into reads, and after however many rounds behind the last of them: as long as the
buffer has less than 2^31 bytes, the parser keeps to the slots of `argv` and to the buffer. -/
theorem parser_memory (exec : List Bytes → Status) (chunks : List Bytes) (c : Client)
    (hc : (readAll exec createClient chunks).2 = .idle c) (s : Bytes) (rounds : ℕ)
    (hlen : ∀ x ∈ allCalls exec createClient chunks++parserCalls exec rounds {c with querybuf := c.querybuf++s},
      x.querybuf.length < 2147483648) :
    ∀ t ∈ runAccesses ⟨0,0⟩ (allCalls exec createClient chunks++
      parserCalls exec rounds {c with querybuf := c.querybuf++s}), t.Ok := by
  have hstart : createClient.Sound ⟨0,0⟩ := Client.sound_of_closed rfl rfl _
  obtain ⟨hall,hidle⟩ := allCalls_ok hstart fun x hx => hlen x (List.mem_append_left _ hx)
  rw [runAccesses_append]
  refine List.forall_mem_append.mpr ⟨hall,?_⟩
  exact ((inputLoop_run exec rounds _).accesses_ok (sound_append (hidle c hc) s)
    fun x hx => hlen x (List.mem_append_right _ hx)).1

/-- A request in two reads, the first of which ends inside an argument. -/
theorem parser_memory_ping : ∃ c, (readAll commandStatus createClient [str "*1\r\n$4\r\npi"]).2 = .idle c ∧
    ∀ t ∈ runAccesses ⟨0,0⟩ (allCalls commandStatus createClient [str "*1\r\n$4\r\npi"]++
      parserCalls commandStatus 1 {c with querybuf := c.querybuf++str "ng\r\n"}), t.Ok := by
  have hc : (readAll commandStatus createClient [str "*1\r\n$4\r\npi"]).2 = .idle ⟨str "pi",.multibulk,1,4,[]⟩ := by
    decide +kernel
  exact ⟨_,hc,parser_memory commandStatus _ _ hc (str "ng\r\n") 1 (by decide +kernel)⟩

end Tadpole
