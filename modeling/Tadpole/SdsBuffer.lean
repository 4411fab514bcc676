import Tadpole.Sds
import Mathlib.Data.List.DropRight

/-! The block of memory behind an sds string: a header of one of five types, the bytes of the string, its NUL and
free space. `malloc`, which `s_malloc` is here, never gives NULL. A copy out of the block, or a failed assertion, is
`none`. -/
namespace Tadpole

inductive SdsType
  | SDS_TYPE_5 | SDS_TYPE_8 | SDS_TYPE_16 | SDS_TYPE_32 | SDS_TYPE_64
  deriving DecidableEq

/-- What a length field of the type can hold, in the header of type 5 beside the flags. -/
def SdsType.limit : SdsType → ℕ
  | SDS_TYPE_5 => 32
  | SDS_TYPE_8 => 256
  | SDS_TYPE_16 => 65536
  | SDS_TYPE_32 => 4294967296
  | SDS_TYPE_64 => 18446744073709551616

def sdsHdrSize : SdsType → ℕ
  | .SDS_TYPE_5 => 1
  | .SDS_TYPE_8 => 3
  | .SDS_TYPE_16 => 5
  | .SDS_TYPE_32 => 9
  | .SDS_TYPE_64 => 17

def sdsReqType (string_size : ℕ) : SdsType :=
  if string_size < 32 then .SDS_TYPE_5
  else if string_size < 256 then .SDS_TYPE_8
  else if string_size < 65536 then .SDS_TYPE_16
  else if string_size < 4294967296 then .SDS_TYPE_32
  else .SDS_TYPE_64

/-- Arithmetic of `size_t`. -/
def sizeT (n : ℕ) : ℕ := n%18446744073709551616

abbrev SDS_MAX_PREALLOC : ℕ := 1024*1024

/-- The fields of the header, and the bytes from the pointer to the end of the block. A header of type 5 has no
`alloc`. -/
structure SdsBuf where
  type : SdsType
  len : ℕ
  alloc : ℕ
  mem : Bytes
  deriving DecidableEq

/-- What new memory is filled with. -/
abbrev Garbage := ℕ → UInt8

/-- `memcpy(mem+off,t,len)`, inside of the block. -/
def poke (mem : Bytes) (off : ℕ) (t : Bytes) : Option Bytes :=
  if off+t.length ≤ mem.length then some (mem.take off++t++mem.drop (off+t.length)) else none

def peek (mem : Bytes) (off len : ℕ) : Option Bytes :=
  if off+len ≤ mem.length then some ((mem.drop off).take len) else none

/-- `strchr` finds also the NUL behind `cset`. -/
def inCset (cset : Bytes) (b : UInt8) : Bool := b = NUL ∨ b ∈ cstr cset

/-- What `sdstrim` leaves of the bytes. -/
def sdstrim (s cset : Bytes) : Bytes := (s.dropWhile (inCset cset)).rdropWhile (inCset cset)

namespace SdsBuf

def sdslen (s : SdsBuf) : ℕ := s.len

def sdsalloc (s : SdsBuf) : ℕ := if s.type = .SDS_TYPE_5 then s.len else s.alloc

def sdsavail (s : SdsBuf) : ℕ := if s.type = .SDS_TYPE_5 then 0 else s.alloc-s.len

/-- The field keeps what fits in it. -/
def sdssetlen (s : SdsBuf) (newlen : ℕ) : SdsBuf := {s with len := newlen%s.type.limit}

def sdssetalloc (s : SdsBuf) (newlen : ℕ) : SdsBuf :=
  if s.type = .SDS_TYPE_5 then s else {s with alloc := newlen%s.type.limit}

def sdsinclen (s : SdsBuf) (inc : ℕ) : SdsBuf := s.sdssetlen (s.len+inc)

def store (s : SdsBuf) (off : ℕ) (t : Bytes) : Option SdsBuf := (poke s.mem off t).map fun mem => {s with mem := mem}

/-- The usable bytes of `malloc(hdrlen+size+1)`. -/
def block (g : Garbage) (type : SdsType) (size : ℕ) : Bytes :=
  (List.range (sizeT (sdsHdrSize type+size+1)-sdsHdrSize type)).map g

/-- `init` is at least as long as `initlen`, or NULL. -/
def sdsnewlen (g : Garbage) (init : Option Bytes) (initlen : ℕ) : Option SdsBuf := do
  let type := sdsReqType initlen
  let type := if type = .SDS_TYPE_5 ∧ initlen = 0 then .SDS_TYPE_8 else type
  let mem := block (if init.isNone then fun _ => NUL else g) type initlen
  let s : SdsBuf := ⟨type,0,0,mem⟩
  let s := (s.sdssetlen initlen).sdssetalloc initlen
  let s ← (match init with
    | some p => (peek p 0 initlen).bind (s.store 0)
    | none => some s)
  s.store initlen [NUL]

/-- With a type of its own each string is moved, else the block is resized. -/
def resize (g : Garbage) (s : SdsBuf) (type : SdsType) (size : ℕ) : Option SdsBuf := do
  let newsh := block g type size
  if s.type = type then
    let s := {s with mem := s.mem.take newsh.length++newsh.drop s.mem.length}
    some (s.sdssetalloc size)
  else
    let t ← peek s.mem 0 (s.len+1)
    let s ← store (sdssetlen ⟨type,0,0,newsh⟩ s.len) 0 t
    some (s.sdssetalloc size)

def sdsMakeRoomFor (g : Garbage) (s : SdsBuf) (addlen : ℕ) : Option SdsBuf :=
  if s.sdsavail ≥ addlen then some s
  else
    let newlen := sizeT (s.sdslen+addlen)
    let newlen := if newlen < SDS_MAX_PREALLOC then sizeT (newlen*2) else sizeT (newlen+SDS_MAX_PREALLOC)
    let type := sdsReqType newlen
    let type := if type = .SDS_TYPE_5 then .SDS_TYPE_8 else type
    s.resize g type newlen

def sdsRemoveFreeSpace (g : Garbage) (s : SdsBuf) : Option SdsBuf := s.resize g (sdsReqType s.sdslen) s.sdslen

def sdsIncrLen (s : SdsBuf) (incr : ℤ) : Option SdsBuf :=
  let grows := if s.type = .SDS_TYPE_5 then 0 < incr ∧ s.len+incr < 32 else 0 ≤ incr ∧ incr ≤ s.sdsavail
  if grows ∨ (incr < 0 ∧ -incr ≤ s.len) then
    let len := (s.len+incr).toNat
    (s.sdssetlen len).store len [NUL]
  else none

def sdsgrowzero (g : Garbage) (s : SdsBuf) (len : ℕ) : Option SdsBuf := do
  let curlen := s.sdslen
  if len ≤ curlen then some s
  else
    let s ← s.sdsMakeRoomFor g (len-curlen)
    let s ← s.store curlen (List.replicate (len-curlen+1) NUL)
    some (s.sdssetlen len)

def sdscatlen (g : Garbage) (s : SdsBuf) (t : Bytes) : Option SdsBuf := do
  let curlen := s.sdslen
  let s ← s.sdsMakeRoomFor g t.length
  let s ← s.store curlen t
  (s.sdssetlen (sizeT (curlen+t.length))).store (sizeT (curlen+t.length)) [NUL]

def sdscpylen (g : Garbage) (s : SdsBuf) (t : Bytes) : Option SdsBuf := do
  let s ← (if s.sdsalloc < t.length then s.sdsMakeRoomFor g (t.length-s.sdslen) else some s)
  let s ← s.store 0 t
  let s ← s.store t.length [NUL]
  some (s.sdssetlen t.length)

def sdsclear (s : SdsBuf) : Option SdsBuf := (s.sdssetlen 0).store 0 [NUL]

/-- `reallen` is an `int`. -/
def sdsupdatelen (s : SdsBuf) : Option SdsBuf :=
  if NUL ∈ s.mem then some (s.sdssetlen (int32 (cstr s.mem).length%18446744073709551616).toNat) else none

def sdstrim (s : SdsBuf) (cset : Bytes) : Option SdsBuf := do
  let b ← peek s.mem 0 s.sdslen
  let sp := (b.takeWhile (inCset cset)).length
  let len := ((b.drop sp).rdropWhile (inCset cset)).length
  let s ← (if sp ≠ 0 then (peek s.mem sp len).bind (s.store 0) else some s)
  let s ← s.store len [NUL]
  some (s.sdssetlen len)

/-- Where the part begins that `sdsrange` keeps, and its length. -/
def rangeBounds (len : ℕ) (start stop : ℤ) : ℤ × ℕ :=
  let newlen := if start > stop then 0 else (stop-start+1).toNat
  if newlen ≠ 0 then
    if start ≥ int32 len then (start,0)
    else if stop ≥ int32 len then
      let stop := int32 (len-1)
      (start,if start > stop then 0 else (stop-start+1).toNat)
    else (start,newlen)
  else (0,newlen)

/-- The offsets are `int`s; the difference of two of them may be out of their range. -/
def sdsrange (s : SdsBuf) (start stop : ℤ) : Option SdsBuf :=
  let len := s.sdslen
  if len = 0 then some s
  else
    let start := if start < 0 then max (int32 (len+start)) 0 else start
    let stop := if stop < 0 then max (int32 (len+stop)) 0 else stop
    if start ≤ stop ∧ stop-start+1 ≥ 2147483648 then none
    else
      let r := rangeBounds len start stop
      do
        let s ← (if r.1 ≠ 0 ∧ r.2 ≠ 0 then (peek s.mem r.1.toNat r.2).bind (s.store 0) else some s)
        let s ← s.store r.2 [NUL]
        some (s.sdssetlen r.2)

/-- `sdstolower` and `sdstoupper`, with `int len = sdslen(s), j`. -/
def mapCase (f : UInt8 → UInt8) (s : SdsBuf) : Option SdsBuf := do
  let b ← peek s.mem 0 (int32 s.sdslen).toNat
  s.store 0 (b.map f)

/-- `sdsmapchars` goes over the bytes one by one. -/
def mapBytes (f : UInt8 → UInt8) (s : SdsBuf) : Option SdsBuf := do
  let b ← peek s.mem 0 s.sdslen
  s.store 0 (b.map f)

/-- A byte of the format, or what a directive expands to. -/
inductive FmtItem
  | char (b : UInt8)
  | block (t : Bytes)

def FmtItem.bytes : FmtItem → Bytes
  | char b => [b]
  | block t => t

def itemRoom (g : Garbage) (s : SdsBuf) : FmtItem → Option SdsBuf
  | .block t => if s.sdsavail < t.length then s.sdsMakeRoomFor g t.length else some s
  | .char _ => some s

/-- The loop of `sdscatfmt` at the write position `i`, which is an `int`. -/
def catfmtLoop (g : Garbage) (s : SdsBuf) (i : ℕ) : List FmtItem → Option SdsBuf
  | [] => if i < 2147483648 then s.store i [NUL] else none
  | item::items => do
    let s ← (if s.sdsavail = 0 then s.sdsMakeRoomFor g 1 else some s)
    let s ← s.itemRoom g item
    if i < 2147483648 then
      let s ← s.store i item.bytes
      catfmtLoop g (s.sdsinclen item.bytes.length) (i+item.bytes.length) items
    else none

def sdscatfmt (g : Garbage) (s : SdsBuf) (items : List FmtItem) : Option SdsBuf := catfmtLoop g s s.sdslen items

/-- The string `b` in a block that has room for `sdsalloc` bytes and a NUL; the header says so. -/
structure Carries (s : SdsBuf) (b : Bytes) : Prop where
  len : s.len = b.length
  bytes : ∃ rest, s.mem = b++rest
  le : b.length ≤ s.sdsalloc
  room : s.sdsalloc < s.mem.length
  fits : s.sdsalloc < s.type.limit

/-- The string with the NUL behind it, as it is outside of the functions. -/
structure Holds (s : SdsBuf) (b : Bytes) : Prop extends s.Carries b where
  nul : ∃ rest, s.mem = b++NUL::rest

end SdsBuf

theorem sizeT_eq {n : ℕ} (h : n < 18446744073709551616) : sizeT n = n := Nat.mod_eq_of_lt h

theorem sdsReqType_fits {n : ℕ} (h : n < 18446744073709551616) : n < (sdsReqType n).limit := by
  rw [sdsReqType]
  split_ifs <;> simp only [SdsType.limit] <;> omega

theorem poke_eq {mem b t r : Bytes} (h : mem = b++r) (ht : t.length ≤ r.length) :
    poke mem b.length t = some (b++t++r.drop t.length) := by
  subst h
  rw [poke,if_pos (by simpa using ht),List.take_left]
  simp [List.drop_append]

theorem peek_eq {m b r : Bytes} (h : m = b++r) : peek m 0 b.length = some b := by
  subst h
  rw [peek,if_pos (by simp)]
  simp

namespace SdsBuf
variable {g : Garbage} {s : SdsBuf} {b t : Bytes}

theorem store_eq {r : Bytes} (h : s.mem = b++r) (ht : t.length ≤ r.length) :
    s.store b.length t = some {s with mem := b++t++r.drop t.length} := by
  rw [store,poke_eq h ht,Option.map_some]

theorem Carries.reset (h : s.Carries b) {r : Bytes} (hmem : (t++r).length = s.mem.length)
    (ht : t.length ≤ s.sdsalloc) : (sdssetlen {s with mem := t++r} t.length).Carries t ∧
      (sdssetlen {s with mem := t++r} t.length).sdsalloc ≤ s.sdsalloc := by
  have hfits := h.fits
  have hroom := h.room
  have hlen : t.length%s.type.limit = t.length := Nat.mod_eq_of_lt (by omega)
  have halloc : (sdssetlen {s with mem := t++r} t.length).sdsalloc =
      if s.type = .SDS_TYPE_5 then t.length else s.sdsalloc := by
    simp only [sdsalloc,sdssetlen,hlen]
    split_ifs <;> rfl
  refine ⟨⟨hlen,⟨r,rfl⟩,?_,?_,?_⟩,?_⟩
  · rw [halloc]
    split_ifs <;> omega
  · rw [halloc]
    show _ < (t++r).length
    split_ifs <;> omega
  · rw [halloc]
    show _ < s.type.limit
    split_ifs <;> omega
  · rw [halloc]
    split_ifs <;> omega

theorem Carries.reset_nul (h : s.Carries b) {r : Bytes} (hmem : (t++NUL::r).length = s.mem.length)
    (ht : t.length ≤ s.sdsalloc) : (sdssetlen {s with mem := t++NUL::r} t.length).Holds t ∧
      (sdssetlen {s with mem := t++NUL::r} t.length).sdsalloc ≤ s.sdsalloc :=
  ⟨⟨(h.reset hmem ht).1,⟨r,rfl⟩⟩,(h.reset hmem ht).2⟩

theorem store_front {m : Bytes} (ht : t.length < m.length) : ∃ rest,
    (store {s with mem := m} 0 t = some {s with mem := t++m.drop t.length}) ∧
      (store {s with mem := t++m.drop t.length} t.length [NUL] = some {s with mem := t++NUL::rest}) ∧
      (t++NUL::rest).length = m.length := by
  have h₁ := store_eq (s:={s with mem := m}) (b:=[]) (t:=t) (r:=m) rfl (by omega)
  have h₂ := store_eq (s:={s with mem := t++m.drop t.length}) (b:=t) (t:=[NUL]) rfl (by simp; omega)
  refine ⟨(m.drop t.length).drop 1,h₁,?_,by simp; omega⟩
  simpa using h₂

theorem block_length {k : SdsType} {n : ℕ} (h : n < 9223372036854775808) :
    (block g k n).length = n+1 := by
  have hhdr : sdsHdrSize k ≤ 17 := by cases k <;> decide
  rw [block,List.length_map,List.length_range,sizeT_eq (by omega)]
  omega

theorem carries_sized {u : SdsBuf} {size : ℕ} {x : UInt8} {r : Bytes} (hmem : u.mem = b++x::r)
    (hlen : u.mem.length = size+1) (hb : b.length ≤ size) (hfits : size < u.type.limit)
    (htype : u.type = .SDS_TYPE_5 → size = b.length) (hs' : u.len = b.length) :
    (u.sdssetalloc size).Carries b ∧ (u.sdssetalloc size).sdsalloc = size ∧
      (u.sdssetalloc size).type = u.type ∧ (u.sdssetalloc size).mem = b++x::r := by
  have hmod : size%u.type.limit = size := Nat.mod_eq_of_lt hfits
  have hkeep : (u.sdssetalloc size).mem = u.mem ∧ (u.sdssetalloc size).type = u.type ∧
      (u.sdssetalloc size).len = u.len := by
    rw [sdssetalloc]
    split_ifs <;> exact ⟨rfl,rfl,rfl⟩
  have halloc : (u.sdssetalloc size).sdsalloc = size := by
    by_cases h5 : u.type = .SDS_TYPE_5
    · rw [sdssetalloc,if_pos h5,sdsalloc,if_pos h5,hs',htype h5]
    · rw [sdssetalloc,if_neg h5,sdsalloc,if_neg h5]
      exact hmod
  obtain ⟨hm,ht,hl⟩ := hkeep
  refine ⟨⟨hl.trans hs',⟨x::r,hm.trans hmem⟩,by rw [halloc]; exact hb,?_,by rw [halloc,ht]; exact hfits⟩,halloc,ht,
    hm.trans hmem⟩
  rw [halloc,hm,hlen]
  omega

theorem Carries.resized (h : s.Carries b) (type : SdsType) (size : ℕ) (hsize : size < 9223372036854775808)
    (hb : b.length ≤ size) (hfits : size < type.limit) (htype : type = .SDS_TYPE_5 → size = b.length) :
    ∃ s', s.resize g type size = some s' ∧ s'.Carries b ∧ s'.sdsalloc = size ∧ s'.type = type ∧
      ((∃ rest, s.mem = b++NUL::rest) → ∃ rest, s'.mem = b++NUL::rest) := by
  have hblock := block_length (g:=g) (k:=type) hsize
  have hroom := h.room
  have hle := h.le
  -- the byte behind the string comes along, be it the NUL or not
  obtain ⟨x,rest,hx⟩ : ∃ x rest, s.mem = b++x::rest := by
    obtain ⟨rest,hrest⟩ := h.bytes
    cases rest with
    | nil =>
      rw [hrest,List.append_nil] at hroom
      omega
    | cons x rest => exact ⟨x,rest,hrest⟩
  have hnul : (∃ rest, s.mem = b++NUL::rest) → x = NUL := by
    rintro ⟨rest',hrest'⟩
    rw [hx] at hrest'
    exact (List.cons.inj (List.append_cancel_left hrest')).1
  rw [resize]
  by_cases hsame : s.type = type
  · obtain ⟨mem,hmem⟩ : ∃ mem, s.mem.take (block g type size).length++(block g type size).drop s.mem.length = mem :=
      ⟨_,rfl⟩
    have hfront : mem = b++x::(rest.take (size-b.length)++(block g type size).drop s.mem.length) := by
      have hn : size+1 = b.length+(size-b.length+1) := by omega
      rw [← hmem,hblock,hx,hn,List.take_length_add_append,List.take_succ_cons]
      simp
    have hlen : mem.length = size+1 := by
      rw [← hmem,List.length_append,List.length_take,List.length_drop,hblock]
      omega
    obtain ⟨hc,ha,ht,hm⟩ := carries_sized (u:={s with mem := mem}) hfront hlen hb (hsame ▸ hfits) (hsame ▸ htype) h.len
    rw [if_pos hsame,hmem]
    exact ⟨_,rfl,hc,ha,ht.trans hsame,fun hn => ⟨_,hm.trans (by rw [hnul hn])⟩⟩
  · have hpeek : peek s.mem 0 (s.len+1) = some (b++[x]) := by
      have := peek_eq (m:=s.mem) (b:=b++[x]) (r:=rest) (by simp [hx])
      rwa [List.length_append,List.length_singleton,← h.len] at this
    have hmod : s.len%type.limit = b.length := by
      rw [h.len]
      exact Nat.mod_eq_of_lt (by omega)
    have hstore : store (sdssetlen ⟨type,0,0,block g type size⟩ s.len) 0 (b++[x]) =
        some ⟨type,b.length,0,b++x::(block g type size).drop (b.length+1)⟩ := by
      have := store_eq (s:=sdssetlen ⟨type,0,0,block g type size⟩ s.len) (b:=[]) (t:=b++[x])
        (r:=block g type size) rfl (by simp; omega)
      simpa [sdssetlen,hmod] using this
    obtain ⟨hc,ha,ht,hm⟩ := carries_sized (u:=⟨type,b.length,0,b++x::(block g type size).drop (b.length+1)⟩) rfl
      (by simp; omega) hb hfits htype rfl
    rw [if_neg hsame,hpeek]
    simp only [Option.bind_eq_bind,Option.bind_some,hstore]
    exact ⟨_,rfl,hc,ha,ht,fun hn => ⟨_,hm.trans (by rw [hnul hn])⟩⟩

theorem Carries.roomFor (h : s.Carries b) (addlen : ℕ) (hsize : b.length+addlen < 4611686018427387904) :
    ∃ s', s.sdsMakeRoomFor g addlen = some s' ∧ s'.Carries b ∧ b.length+addlen ≤ s'.sdsalloc ∧
      s'.sdsalloc ≤ max s.sdsalloc (2*(b.length+addlen)) ∧ (0 < addlen → s'.type ≠ .SDS_TYPE_5) ∧
      ((∃ rest, s.mem = b++NUL::rest) → ∃ rest, s'.mem = b++NUL::rest) := by
  have hle := h.le
  have hlen := h.len
  rw [sdsMakeRoomFor]
  split_ifs with havail
  · refine ⟨s,rfl,h,?_,Nat.le_max_left _ _,?_,id⟩
    · rw [sdsavail] at havail
      rw [sdsalloc] at hle ⊢
      split_ifs at * <;> omega
    · intro hpos h5
      rw [sdsavail,if_pos h5] at havail
      omega
  · simp only [sdslen,hlen,sizeT_eq (show b.length+addlen < 18446744073709551616 by omega)]
    have hadd : 0 < addlen := by omega
    obtain ⟨newlen,hnew,hlow,hhigh⟩ : ∃ newlen, (if b.length+addlen < SDS_MAX_PREALLOC then sizeT ((b.length+addlen)*2) else
        sizeT (b.length+addlen+SDS_MAX_PREALLOC)) = newlen ∧ b.length+addlen ≤ newlen ∧ newlen ≤ 2*(b.length+addlen) := by
      refine ⟨_,rfl,?_,?_⟩
      · split_ifs <;> rw [sizeT_eq (by omega)] <;> omega
      · split_ifs <;> rw [sizeT_eq (by omega)] <;> omega
    rw [hnew]
    have hfits := sdsReqType_fits (n:=newlen) (by omega)
    obtain ⟨s',hs',hc,ha,ht,hn⟩ := h.resized (g:=g)
      (if sdsReqType newlen = .SDS_TYPE_5 then .SDS_TYPE_8 else sdsReqType newlen) newlen (by omega)
      (by omega) (by
        split_ifs with h5
        · rw [h5] at hfits
          exact hfits.trans (by decide)
        · exact hfits) (fun h5 => by split_ifs at h5; contradiction)
    refine ⟨s',hs',hc,by omega,?_,fun _ => ?_,hn⟩
    · rw [ha]
      exact hhigh.trans (Nat.le_max_right _ _)
    · rw [ht]
      split_ifs with h5
      · decide
      · exact h5

end SdsBuf
end Tadpole
