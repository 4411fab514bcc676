import Tadpole.SdsBuffer

/-! Each function of sds.c keeps the string in its block: what it makes of the bytes, and how much room it takes. -/
namespace Tadpole
namespace SdsBuf
variable {g : Garbage} {s : SdsBuf} {b t : Bytes}

theorem Carries.extend (h : s.Carries b) (ht : b.length+t.length ≤ s.sdsalloc) :
    ∃ s₁ s', s.store b.length t = some s₁ ∧ s₁.type = s.type ∧ s₁.len = s.len ∧ s₁.sdsavail = s.sdsavail ∧
      (s₁.sdssetlen (b.length+t.length)).store (b.length+t.length) [NUL] = some s' ∧ s'.Holds (b++t) ∧
      s'.sdsalloc ≤ s.sdsalloc := by
  obtain ⟨rest,hrest⟩ := h.bytes
  have hroom := h.room
  rw [hrest,List.length_append] at hroom
  have hnul := store_eq (s:=sdssetlen {s with mem := b++t++rest.drop t.length} (b.length+t.length)) (b:=b++t) (t:=[NUL])
    (r:=rest.drop t.length) rfl (by simp; omega)
  rw [List.length_append] at hnul
  obtain ⟨hh,ha⟩ := h.reset_nul (t:=b++t) (r:=(rest.drop t.length).drop 1) (by simp [hrest]; omega) (by simpa using ht)
  rw [List.length_append] at hh ha
  refine ⟨_,_,store_eq hrest (by omega),rfl,rfl,rfl,hnul,?_,?_⟩
  · simpa [sdssetlen] using hh
  · simpa [sdssetlen,sdsalloc] using ha

theorem sdsnewlen_holds (g : Garbage) (hb : b.length < 4611686018427387904) :
    ∃ s, sdsnewlen g (some b) b.length = some s ∧ s.Holds b ∧ s.sdsalloc = b.length := by
  obtain ⟨type,htype,hfits⟩ : ∃ type, (if sdsReqType b.length = .SDS_TYPE_5 ∧ b.length = 0 then .SDS_TYPE_8 else
      sdsReqType b.length) = type ∧ b.length < type.limit := by
    refine ⟨_,rfl,?_⟩
    split_ifs with h0
    · rw [h0.2]
      decide
    · exact sdsReqType_fits (by omega)
  have hmod : b.length%type.limit = b.length := Nat.mod_eq_of_lt hfits
  have hblock := block_length (g:=g) (k:=type) (n:=b.length) (by omega)
  obtain ⟨alloc,halloc⟩ : ∃ alloc, (sdssetalloc (sdssetlen ⟨type,0,0,block g type b.length⟩ b.length) b.length) =
      ⟨type,b.length,alloc,block g type b.length⟩ ∧ (type ≠ .SDS_TYPE_5 → alloc = b.length) := by
    by_cases h5 : type = .SDS_TYPE_5
    · subst h5
      exact ⟨0,by simp [sdssetalloc,sdssetlen,hmod],fun h => absurd rfl h⟩
    · exact ⟨b.length,by simp [sdssetalloc,sdssetlen,h5,hmod],fun _ => rfl⟩
  obtain ⟨rest,h₁,h₂,hlen⟩ := store_front (s:=⟨type,b.length,alloc,block g type b.length⟩) (t:=b)
    (m:=block g type b.length) (by omega)
  have hsds : sdsalloc ⟨type,b.length,alloc,b++NUL::rest⟩ = b.length := by
    rw [sdsalloc]
    split_ifs with h5
    · rfl
    · exact halloc.2 h5
  refine ⟨⟨type,b.length,alloc,b++NUL::rest⟩,?_,⟨⟨rfl,⟨_,rfl⟩,?_,?_,?_⟩,⟨rest,rfl⟩⟩,hsds⟩
  · rw [sdsnewlen,htype]
    simp only [Option.isNone_some,Bool.false_eq_true,if_false,halloc.1,peek_eq (List.append_nil b).symm,
      Option.bind_eq_bind,Option.bind_some]
    rw [h₁,Option.bind_some,h₂]
  · rw [hsds]
  · rw [hsds]
    show b.length < (b++NUL::rest).length
    simp
  · rw [hsds]
    exact hfits

theorem Holds.catlen (h : s.Holds b) (hsize : b.length+t.length < 4611686018427387904) :
    ∃ s', s.sdscatlen g t = some s' ∧ s'.Holds (b++t) ∧ s'.sdsalloc ≤ max s.sdsalloc (2*(b.length+t.length)) := by
  obtain ⟨s₁,hs₁,hc,hroom,hcap,-,-⟩ := h.roomFor (g:=g) _ hsize
  obtain ⟨s₂,s',hs₂,-,-,-,hs',hh,ha⟩ := hc.extend (t:=t) hroom
  refine ⟨s',?_,hh,ha.trans hcap⟩
  rw [sdscatlen,hs₁]
  simp only [Option.bind_eq_bind,Option.bind_some,sdslen,h.len,hs₂,sizeT_eq (show b.length+t.length < 18446744073709551616 by omega)]
  exact hs'

theorem Holds.cpylen (h : s.Holds b) (hsize : t.length < 4611686018427387904) :
    ∃ s', s.sdscpylen g t = some s' ∧ s'.Holds t ∧ s'.sdsalloc ≤ max s.sdsalloc (2*t.length) := by
  have hle := h.le
  -- the string has room for `t`, whatever it carries
  obtain ⟨s₁,hs₁,hc,hroom,hcap⟩ : ∃ s₁, (if s.sdsalloc < t.length then s.sdsMakeRoomFor g (t.length-s.sdslen) else some s) = some s₁ ∧
      s₁.Carries b ∧ t.length ≤ s₁.sdsalloc ∧ s₁.sdsalloc ≤ max s.sdsalloc (2*t.length) := by
    split_ifs with hlt
    · have hsum : b.length+(t.length-s.sdslen) = t.length := by
        rw [sdslen,h.len]
        omega
      obtain ⟨s₁,hs₁,hc,hroom,hcap,-,-⟩ := h.roomFor (g:=g) (t.length-s.sdslen) (by omega)
      rw [hsum] at hroom hcap
      exact ⟨s₁,hs₁,hc,hroom,hcap⟩
    · exact ⟨s,rfl,h.toCarries,by omega,Nat.le_max_left _ _⟩
  obtain ⟨rest,h₁,h₂,hlen⟩ := store_front (s:=s₁) (t:=t) (m:=s₁.mem) (by have := hc.room; omega)
  obtain ⟨hh,ha⟩ := hc.reset_nul hlen hroom
  refine ⟨_,?_,hh,ha.trans hcap⟩
  rw [sdscpylen,hs₁]
  simp only [Option.bind_eq_bind,Option.bind_some]
  rw [show s₁.store 0 t = _ from h₁]
  simp only [Option.bind_some,h₂]

theorem Holds.growzero (h : s.Holds b) (len : ℕ) (hsize : len < 4611686018427387904) :
    ∃ s', s.sdsgrowzero g len = some s' ∧ s'.Holds (b++List.replicate (len-b.length) NUL) ∧
      s'.sdsalloc ≤ max s.sdsalloc (2*len) := by
  rw [sdsgrowzero]
  simp only [sdslen,h.len]
  split_ifs with hle
  · have hz : len-b.length = 0 := by omega
    rw [hz,List.replicate_zero,List.append_nil]
    exact ⟨s,rfl,h,Nat.le_max_left _ _⟩
  · have hsum : b.length+(len-b.length) = len := by omega
    obtain ⟨s₁,hs₁,hc,hroom,hcap,-,-⟩ := h.roomFor (g:=g) (len-b.length) (by omega)
    rw [hsum] at hroom hcap
    obtain ⟨rest,hrest⟩ := hc.bytes
    have hblock := hc.room
    rw [hrest,List.length_append] at hblock
    have hstore := store_eq (t:=List.replicate (len-b.length+1) NUL) hrest (by simp; omega)
    obtain ⟨hh,ha⟩ := hc.reset_nul (t:=b++List.replicate (len-b.length) NUL) (r:=rest.drop (len-b.length+1))
      (by simp [hrest]; omega) (by simp; omega)
    rw [List.length_append,List.length_replicate,hsum] at hh ha
    refine ⟨_,?_,hh,ha.trans hcap⟩
    simp only [hs₁,Option.bind_eq_bind,Option.bind_some,hstore]
    simp [List.replicate_succ']

/-- As `readQueryFromClient` reads: room for `room` bytes, those that have come, and their number added. -/
def readInto (g : Garbage) (s : SdsBuf) (room : ℕ) (got : Bytes) : Option SdsBuf := do
  let qblen := s.sdslen
  let s ← s.sdsMakeRoomFor g room
  if got = [] then some s
  else
    let s ← s.store qblen got
    s.sdsIncrLen got.length

theorem sdsIncrLen_grow (h5 : s.type ≠ .SDS_TYPE_5) {n : ℕ} (hn : n ≤ s.sdsavail) :
    s.sdsIncrLen n = (s.sdssetlen (s.len+n)).store (s.len+n) [NUL] := by
  have hnew : ((s.len : ℤ)+n).toNat = s.len+n := by omega
  rw [sdsIncrLen,if_pos (Or.inl (by rw [if_neg h5]; omega))]
  simp only [hnew]

theorem sdsIncrLen_cut {n : ℕ} (hpos : 0 < n) (hn : n ≤ s.len) :
    s.sdsIncrLen (-n) = (s.sdssetlen (s.len-n)).store (s.len-n) [NUL] := by
  have hnew : ((s.len : ℤ)+(-n)).toNat = s.len-n := by omega
  rw [sdsIncrLen,if_pos (Or.inr (by omega))]
  simp only [hnew]

theorem Holds.readInto (h : s.Holds b) (room : ℕ) {got : Bytes} (hsize : b.length+room < 4611686018427387904)
    (hgot : got.length ≤ room) : ∃ s', s.readInto g room got = some s' ∧ s'.Holds (b++got) ∧
      s'.sdsalloc ≤ max s.sdsalloc (2*(b.length+room)) := by
  obtain ⟨s₁,hs₁,hc,hroom,hcap,h5,hnul⟩ := h.roomFor (g:=g) _ hsize
  rw [SdsBuf.readInto,hs₁]
  simp only [Option.bind_eq_bind,Option.bind_some]
  by_cases hempty : got = []
  · subst hempty
    rw [if_pos rfl,List.append_nil]
    exact ⟨s₁,rfl,⟨hc,hnul h.nul⟩,hcap⟩
  · have hpos : 0 < got.length := List.length_pos_iff.mpr hempty
    have h5' : s₁.type ≠ .SDS_TYPE_5 := h5 (by omega)
    obtain ⟨s₂,s',hs₂,htype,hlen,havail,hs',hh,ha⟩ := hc.extend (t:=got) (by omega)
    refine ⟨s',?_,hh,ha.trans hcap⟩
    have hl := hc.len
    have hfree : got.length ≤ s₂.sdsavail := by
      rw [havail,sdsavail,if_neg h5']
      rw [sdsalloc,if_neg h5'] at hroom
      omega
    rw [if_neg hempty,sdslen,h.len,hs₂,Option.bind_some,sdsIncrLen_grow (htype ▸ h5') hfree,hlen,hl]
    exact hs'

theorem Holds.decrLen (h : s.Holds b) {n : ℕ} (hn : 0 < n) (hb : n ≤ b.length) :
    ∃ s', s.sdsIncrLen (-n) = some s' ∧ s'.Holds (b.take (b.length-n)) ∧ s'.sdsalloc ≤ s.sdsalloc := by
  obtain ⟨rest,hrest⟩ := h.bytes
  have hle := h.le
  have hcut : (b.take (b.length-n)).length = s.len-n := by
    rw [h.len,List.length_take]
    omega
  have hmem : s.mem = b.take (b.length-n)++(b.drop (b.length-n)++rest) := by
    rw [← List.append_assoc,List.take_append_drop,hrest]
  have hlen := h.len
  have hstore := store_eq (s:=s.sdssetlen (s.len-n)) (t:=[NUL]) hmem (by simp; omega)
  obtain ⟨hh,ha⟩ := h.reset_nul (t:=b.take (b.length-n)) (r:=(b.drop (b.length-n)++rest).drop 1)
    (by simp [hrest]; omega) (by rw [hcut]; omega)
  rw [hcut] at hh ha hstore
  refine ⟨_,?_,hh,ha⟩
  rw [sdsIncrLen_cut hn (by omega),hstore]
  simp [sdssetlen]

theorem Holds.clear (h : s.Holds b) : ∃ s', s.sdsclear = some s' ∧ s'.Holds [] ∧ s'.sdsalloc ≤ s.sdsalloc := by
  obtain ⟨rest,hrest⟩ := h.nul
  have hstore := store_eq (s:=s.sdssetlen 0) (b:=[]) (t:=[NUL]) (r:=s.mem) rfl (by simp [hrest]; omega)
  obtain ⟨hh,ha⟩ := h.reset_nul (t:=[]) (r:=s.mem.drop 1) (by simp [hrest]; omega) (Nat.zero_le _)
  refine ⟨_,?_,hh,ha⟩
  rw [sdsclear]
  simpa [sdssetlen] using hstore

theorem Holds.updatelen (h : s.Holds b) (hb : b.length < 2147483648) :
    ∃ s', s.sdsupdatelen = some s' ∧ s'.Holds (cstr b) ∧ s'.sdsalloc ≤ s.sdsalloc := by
  obtain ⟨rest,hrest⟩ := h.nul
  have hle := h.le
  have hcstr : cstr s.mem = cstr b := by
    rw [hrest,cstr,cstr,List.takeWhile_append]
    split_ifs with hall
    · rw [List.takeWhile_eq_self_iff.mpr (List.takeWhile_eq_self_iff.mp ((List.takeWhile_prefix _).eq_of_length hall))]
      simp
    · rfl
  have hshort : (cstr b).length ≤ b.length := (List.takeWhile_prefix _).length_le
  -- the first NUL is in the string or behind it
  obtain ⟨rest',hrest'⟩ : ∃ rest', s.mem = cstr b++NUL::rest' := by
    have hsplit := List.takeWhile_append_dropWhile (p:=fun x : UInt8 => decide (x ≠ NUL)) (l:=s.mem)
    cases hdrop : s.mem.dropWhile (fun x : UInt8 => decide (x ≠ NUL)) with
    | nil =>
      have := List.dropWhile_eq_nil_iff.mp hdrop NUL (by simp [hrest])
      simp at this
    | cons x rest' =>
      have hx := List.head_dropWhile_not (fun x : UInt8 => decide (x ≠ NUL)) (l:=s.mem) (by rw [hdrop]; simp)
      simp only [hdrop,List.head_cons] at hx
      obtain rfl : x = NUL := by simpa using hx
      rw [hdrop] at hsplit
      exact ⟨rest',by rw [← hcstr]; exact hsplit.symm⟩
  obtain ⟨hh,ha⟩ := h.reset_nul (t:=cstr b) (r:=rest') (by rw [hrest']) (by omega)
  rw [← hrest'] at hh ha
  refine ⟨_,?_,hh,ha⟩
  have hnat : (int32 (cstr b).length%18446744073709551616).toNat = (cstr b).length := by
    rw [int32_nat (by omega)]
    omega
  rw [sdsupdatelen,if_pos (by simp [hrest]),hcstr,hnat]

theorem Holds.removeFreeSpace (h : s.Holds b) (hb : b.length < 4611686018427387904) :
    ∃ s', s.sdsRemoveFreeSpace g = some s' ∧ s'.Holds b ∧ s'.sdsalloc = b.length := by
  have hfits := sdsReqType_fits (n:=b.length) (by omega)
  obtain ⟨s',hs',hc,ha,-,hnul⟩ := h.resized (g:=g) (sdsReqType b.length) b.length (by omega) (Nat.le_refl _)
    hfits fun _ => rfl
  refine ⟨s',?_,⟨hc,hnul h.nul⟩,ha⟩
  rw [sdsRemoveFreeSpace,sdslen,h.len]
  exact hs'

/-- A part of the string is moved to the front, unless it is there already or empty. -/
theorem Holds.cut (h : s.Holds b) (pre post : Bytes) (hb : b = pre++t++post) (c : Prop) [Decidable c]
    (hc : ¬ c → pre = [] ∨ t = []) :
    ∃ s₁ s₂, (if c then (peek s.mem pre.length t.length).bind (s.store 0) else some s) = some s₁ ∧
      s₁.store t.length [NUL] = some s₂ ∧ (s₂.sdssetlen t.length).Holds t ∧
      (s₂.sdssetlen t.length).sdsalloc ≤ s.sdsalloc := by
  obtain ⟨rest,hrest⟩ := h.nul
  have hle := h.le
  have hlen : pre.length+t.length+post.length = b.length := by simp [hb,Nat.add_assoc]
  have hpart : peek s.mem pre.length t.length = some t := by
    rw [peek,if_pos (by simp [hrest]; omega)]
    simp [hrest,hb]
  by_cases hmove : c
  · obtain ⟨rest',h₁,h₂,hl⟩ := store_front (s:=s) (t:=t) (m:=s.mem) (by simp [hrest]; omega)
    obtain ⟨hh,ha⟩ := h.reset_nul hl (by omega)
    exact ⟨_,_,by rw [if_pos hmove,hpart]; exact h₁,h₂,hh,ha⟩
  · obtain ⟨rest',hfront⟩ : ∃ rest', s.mem = t++rest' := by
      rcases hc hmove with rfl | rfl
      · exact ⟨post++NUL::rest,by simp [hrest,hb]⟩
      · exact ⟨s.mem,rfl⟩
    have hlt : t.length+1 ≤ s.mem.length := by simp [hrest]; omega
    rw [hfront,List.length_append] at hlt
    have h₂ := store_eq (t:=[NUL]) hfront (by simp; omega)
    obtain ⟨hh,ha⟩ := h.reset_nul (t:=t) (r:=rest'.drop 1) (by simp [hfront]; omega) (by omega)
    exact ⟨s,_,if_neg hmove,h₂,by simpa using hh,by simpa using ha⟩

theorem Holds.trim (h : s.Holds b) (cset : Bytes) :
    ∃ s', s.sdstrim cset = some s' ∧ s'.Holds (Tadpole.sdstrim b cset) ∧
      s'.sdsalloc ≤ s.sdsalloc := by
  obtain ⟨rest,hrest⟩ := h.bytes
  have hdrop : b.drop (b.takeWhile (inCset cset)).length = b.dropWhile (inCset cset) := by
    have := @List.drop_left _ (b.takeWhile (inCset cset)) (b.dropWhile (inCset cset))
    rwa [List.takeWhile_append_dropWhile] at this
  obtain ⟨post,hpost⟩ := List.rdropWhile_prefix (inCset cset) (l:=b.dropWhile (inCset cset))
  obtain ⟨s₁,s₂,hs₁,hs₂,hh,ha⟩ := h.cut (t:=(b.dropWhile (inCset cset)).rdropWhile (inCset cset)) (b.takeWhile (inCset cset)) post
    (by rw [List.append_assoc,hpost,List.takeWhile_append_dropWhile])
    ((b.takeWhile (inCset cset)).length ≠ 0) (fun hno => Or.inl (by simpa using hno))
  refine ⟨_,?_,hh,ha⟩
  rw [SdsBuf.sdstrim,sdslen,h.len,peek_eq hrest]
  simp only [Option.bind_eq_bind,Option.bind_some,hdrop]
  rw [hs₁,Option.bind_some,hs₂,Option.bind_some]

theorem Holds.mapBytes (h : s.Holds b) (f : UInt8 → UInt8) :
    ∃ s', s.mapBytes f = some s' ∧ s'.Holds (b.map f) ∧ s'.sdsalloc ≤ s.sdsalloc := by
  obtain ⟨rest,hrest⟩ := h.nul
  have hstore := store_eq (s:=s) (b:=[]) (t:=b.map f) (r:=s.mem) rfl (by simp [hrest])
  obtain ⟨hh,ha⟩ := h.reset_nul (t:=b.map f) (r:=rest) (by simp [hrest]) (by rw [List.length_map]; exact h.le)
  -- the length is set to what it was
  have hsame : sdssetlen {s with mem := b.map f++NUL::rest} (b.map f).length = {s with mem := b.map f++NUL::rest} := by
    have hmod : b.length%s.type.limit = s.len := by
      rw [h.len]
      exact Nat.mod_eq_of_lt (Nat.lt_of_le_of_lt h.le h.fits)
    simp [sdssetlen,hmod]
  rw [hsame] at hh ha
  refine ⟨_,?_,hh,ha⟩
  have hpeek : peek s.mem 0 s.sdslen = some b := by rw [sdslen,h.len,peek_eq hrest]
  rw [SdsBuf.mapBytes,hpeek]
  simpa [hrest] using hstore

theorem Holds.mapCase (h : s.Holds b) (f : UInt8 → UInt8) (hb : b.length < 2147483648) :
    ∃ s', s.mapCase f = some s' ∧ s'.Holds (b.map f) ∧ s'.sdsalloc ≤ s.sdsalloc := by
  have hlen : (int32 s.sdslen).toNat = s.sdslen := by
    rw [sdslen,h.len,int32_nat hb,Int.toNat_natCast]
  rw [SdsBuf.mapCase,hlen]
  exact h.mapBytes f

theorem Holds.moved (h : s.Holds b) {start : ℤ} (hstart : 0 ≤ start) {n : ℕ} (hn : n ≠ 0 → start+n ≤ b.length) :
    ∃ s', (do
        let s ← (if start ≠ 0 ∧ n ≠ 0 then (peek s.mem start.toNat n).bind (s.store 0) else some s)
        let s ← s.store n [NUL]
        some (s.sdssetlen n)) = some s' ∧ s'.Holds ((b.drop start.toNat).take n) ∧ s'.sdsalloc ≤ s.sdsalloc := by
  have hlen : ((b.drop start.toNat).take n).length = n := by
    rw [List.length_take,List.length_drop]
    omega
  have hsplit : b = b.take start.toNat++(b.drop start.toNat).take n++(b.drop start.toNat).drop n := by
    rw [List.append_assoc,List.take_append_drop,List.take_append_drop]
  obtain ⟨s₁,s₂,hs₁,hs₂,hh,ha⟩ := h.cut _ _ hsplit (start ≠ 0 ∧ n ≠ 0) (fun hno => by
    rw [not_and_or,not_not,not_not] at hno
    rcases hno with rfl | rfl
    · exact Or.inl rfl
    · exact Or.inr rfl)
  rw [hlen] at hs₂ hh ha
  refine ⟨_,?_,hh,ha⟩
  have hs₁' : (if start ≠ 0 ∧ n ≠ 0 then (peek s.mem start.toNat n).bind (s.store 0) else some s) = some s₁ := by
    rw [← hs₁,hlen]
    split_ifs with hmove
    · have hpre : (b.take start.toNat).length = start.toNat := by
        have := hn hmove.2
        rw [List.length_take]
        omega
      rw [hpre]
    · rfl
  rw [hs₁']
  simp only [Option.bind_eq_bind,Option.bind_some,hs₂]

/-- The part that is kept is in the string; `sdsrange` of the byte string has the same. -/
theorem rangeBounds_spec (hb : b.length < 2147483648) {i j : ℤ} (hi : 0 ≤ i) :
    0 ≤ (rangeBounds b.length i j).1 ∧
      ((rangeBounds b.length i j).2 ≠ 0 → (rangeBounds b.length i j).1+(rangeBounds b.length i j).2 ≤ b.length) ∧
      (b.drop (rangeBounds b.length i j).1.toNat).take (rangeBounds b.length i j).2 =
        if i > j then []
        else if i ≥ int32 b.length then []
        else if j ≥ int32 b.length then
          if i > int32 (b.length-1) then [] else (b.drop i.toNat).take (int32 (b.length-1)-i+1).toNat
        else (b.drop i.toNat).take (j-i+1).toNat := by
  have hl := int32_nat hb
  have hlast : b.length ≠ 0 → int32 ((b.length : ℤ)-1) = (b.length : ℤ)-1 := fun h0 =>
    int32_of_bounds (by omega) (by omega)
  rw [rangeBounds,hl]
  by_cases hij : i > j
  · simp [hij]
  · have hn : (j-i+1).toNat ≠ 0 := by omega
    simp only [if_neg hij,if_pos hn]
    by_cases hi' : i ≥ b.length
    · simp [hi',hi]
    · rw [if_neg hi',if_neg hi',hlast (by omega)]
      by_cases hj' : j ≥ b.length
      · simp only [if_pos hj',if_neg (show ¬ i > (b.length : ℤ)-1 by omega)]
        exact ⟨hi,fun _ => by omega,trivial⟩
      · simp only [if_neg hj']
        exact ⟨hi,fun _ => by omega,trivial⟩

theorem Holds.range (h : s.Holds b) (start : ℤ) {stop : ℤ} (hb : b.length < 2147483648) (hstop : -2147483648 ≤ stop)
    (hmax : stop < 2147483647) :
    ∃ s', s.sdsrange start stop = some s' ∧ s'.Holds (Tadpole.sdsrange b start stop) ∧ s'.sdsalloc ≤ s.sdsalloc := by
  rw [SdsBuf.sdsrange,Tadpole.sdsrange]
  simp only [sdslen,h.len]
  by_cases h0 : b.length = 0
  · rw [if_pos h0,if_pos h0]
    exact ⟨s,rfl,h,Nat.le_refl _⟩
  · rw [if_neg h0,if_neg h0]
    -- the offsets from the front
    obtain ⟨i,hi,hi0⟩ : ∃ i, (if start < 0 then max (int32 (b.length+start)) 0 else start) = i ∧ 0 ≤ i := by
      refine ⟨_,rfl,?_⟩
      split_ifs <;> omega
    obtain ⟨j,hj,hj0,hjmax⟩ : ∃ j, (if stop < 0 then max (int32 (b.length+stop)) 0 else stop) = j ∧ 0 ≤ j ∧ j < 2147483647 := by
      refine ⟨_,rfl,?_,?_⟩
      · split_ifs <;> omega
      · split_ifs
        · rw [int32_of_bounds (by omega) (by omega)]
          omega
        · omega
    rw [hi,hj,if_neg (by omega)]
    obtain ⟨hr0,hr,hpart⟩ := rangeBounds_spec (j:=j) hb hi0
    rw [← hpart]
    exact h.moved hr0 hr

theorem Carries.roomForItem (h : s.Carries b) (item : FmtItem)
    (hsize : b.length+item.bytes.length+1 < 2305843009213693952) : ∃ s₁ s₂,
    (if s.sdsavail = 0 then s.sdsMakeRoomFor g 1 else some s) = some s₁ ∧
      s₁.itemRoom g item = some s₂ ∧ s₂.Carries b ∧ b.length+item.bytes.length ≤ s₂.sdsalloc ∧
      s₂.sdsalloc ≤ max s.sdsalloc (2*(b.length+item.bytes.length+1)) := by
  obtain ⟨s₁,hs₁,hc,hroom,hcap⟩ : ∃ s₁, (if s.sdsavail = 0 then s.sdsMakeRoomFor g 1 else some s) = some s₁ ∧
      s₁.Carries b ∧ b.length+1 ≤ s₁.sdsalloc ∧ s₁.sdsalloc ≤ max s.sdsalloc (2*(b.length+1)) := by
    split_ifs with h0
    · obtain ⟨s₁,hs₁,hc,hroom,hcap,-,-⟩ := h.roomFor (g:=g) 1 (by omega)
      exact ⟨s₁,hs₁,hc,hroom,hcap⟩
    · refine ⟨s,rfl,h,?_,Nat.le_max_left _ _⟩
      have hlen := h.len
      rw [sdsavail] at h0
      rw [sdsalloc]
      split_ifs at * <;> omega
  refine ⟨s₁,?_⟩
  cases item with
  | char x => exact ⟨s₁,hs₁,rfl,hc,hroom,by simp only [FmtItem.bytes,List.length_singleton]; omega⟩
  | block t =>
    simp only [FmtItem.bytes,itemRoom] at hsize ⊢
    by_cases hlt : s₁.sdsavail < t.length
    · obtain ⟨s₂,hs₂,hc₂,hroom₂,hcap₂,-,-⟩ := hc.roomFor (g:=g) t.length (by omega)
      exact ⟨s₂,hs₁,by rw [if_pos hlt,hs₂],hc₂,hroom₂,by omega⟩
    · refine ⟨s₁,hs₁,if_neg hlt,hc,?_,by omega⟩
      have hlen := hc.len
      rw [sdsavail] at hlt
      rw [sdsalloc] at hroom ⊢
      split_ifs at * <;> omega

theorem Carries.append (h : s.Carries b) (ht : b.length+t.length ≤ s.sdsalloc) : ∃ s₁, s.store b.length t = some s₁ ∧
    (s₁.sdsinclen t.length).Carries (b++t) ∧ (s₁.sdsinclen t.length).sdsalloc ≤ s.sdsalloc := by
  obtain ⟨rest,hrest⟩ := h.bytes
  have hroom := h.room
  rw [hrest,List.length_append] at hroom
  obtain ⟨hc,ha⟩ := h.reset (t:=b++t) (r:=rest.drop t.length) (by simp [hrest]; omega) (by simpa using ht)
  rw [List.length_append] at hc ha
  refine ⟨_,store_eq hrest (by omega),?_,?_⟩
  · rw [sdsinclen]
    simpa only [h.len] using hc
  · rw [sdsinclen]
    simpa only [h.len] using ha

theorem Carries.terminate (h : s.Carries b) : ∃ s', s.store b.length [NUL] = some s' ∧ s'.Holds b ∧ s'.sdsalloc = s.sdsalloc := by
  obtain ⟨rest,hrest⟩ := h.bytes
  have hle := h.le
  have hroom := h.room
  rw [hrest,List.length_append] at hroom
  refine ⟨_,store_eq hrest (by simp; omega),⟨⟨h.len,⟨NUL::rest.drop 1,by simp⟩,h.le,?_,h.fits⟩,⟨rest.drop 1,by simp⟩⟩,rfl⟩
  show s.sdsalloc < (b++[NUL]++rest.drop 1).length
  simp
  omega

def itemsBytes (items : List FmtItem) : Bytes := items.flatMap FmtItem.bytes

theorem Carries.catfmtLoop (h : s.Carries b) {items : List FmtItem}
    (hsize : b.length+(itemsBytes items).length < 2147483648) :
    ∃ s', s.catfmtLoop g b.length items = some s' ∧ s'.Holds (b++itemsBytes items) ∧
      s'.sdsalloc ≤ max s.sdsalloc (2*(b.length+(itemsBytes items).length+1)) := by
  induction items generalizing s b with
  | nil =>
    obtain ⟨s',hs',hh,ha⟩ := h.terminate
    have hlt : b.length < 2147483648 := by omega
    refine ⟨s',?_,by simpa [itemsBytes] using hh,by omega⟩
    rw [SdsBuf.catfmtLoop,if_pos hlt,hs']
  | cons item items ih =>
    rw [itemsBytes,List.flatMap_cons,List.length_append] at hsize
    obtain ⟨s₁,s₂,hs₁,hs₂,hc,hroom,hcap⟩ := h.roomForItem (g:=g) item (by omega)
    obtain ⟨s₃,hs₃,hc₃,ha₃⟩ := hc.append hroom
    obtain ⟨s',hs',hh,ha⟩ := ih hc₃ (by rw [List.length_append]; unfold itemsBytes; omega)
    rw [List.length_append] at hs' ha
    refine ⟨s',?_,?_,?_⟩
    · rw [SdsBuf.catfmtLoop,hs₁]
      simp only [Option.bind_eq_bind,Option.bind_some]
      rw [hs₂]
      simp only [Option.bind_some]
      rw [if_pos (by omega),hs₃]
      exact hs'
    · rw [itemsBytes,List.flatMap_cons,← List.append_assoc]
      exact hh
    · rw [itemsBytes,List.flatMap_cons,List.length_append]
      unfold itemsBytes at ha
      omega

theorem Holds.catfmt (h : s.Holds b) (items : List FmtItem) (hsize : b.length+(itemsBytes items).length < 2147483648) :
    ∃ s', s.sdscatfmt g items = some s' ∧ s'.Holds (b++itemsBytes items) ∧
      s'.sdsalloc ≤ max s.sdsalloc (2*(b.length+(itemsBytes items).length+1)) := by
  rw [SdsBuf.sdscatfmt,sdslen,h.len]
  exact h.toCarries.catfmtLoop hsize

end SdsBuf
end Tadpole
