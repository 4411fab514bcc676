import Tadpole.Lib.Incremental
import Tadpole.Lib.Resp
import Tadpole.Numerals
import Tadpole.Quoting

/-! The reply reader of the bundled client, `redisReader` of hiredis.c: a stack of unfinished arrays over a buffer that
is filled read by read. Replies in arrays up to eight deep come back as they were encoded. -/
namespace Tadpole

inductive ReplyType
  | string | array | integer | status | error
  deriving DecidableEq

/-- `redisReply`, as the default functions make it; an array has its count beside its elements. -/
inductive RedisReply
  | string (s : Bytes)
  | status (s : Bytes)
  | error (s : Bytes)
  | integer (n : ℤ)
  | nil
  | array (elements : ℕ) (element : List RedisReply)

/-- `redisReadTask`; a task of an array has the elements that are finished. -/
structure ReadTask where
  type : Option ReplyType
  elements : ℤ
  idx : ℤ
  obj : List RedisReply

/-- What `processItem` does to the reader: it waits for more, goes on with another stack and the root reply once that
is finished, sets an error, or does what C leaves undefined. -/
inductive ItemResult
  | wait (taken : ℕ) (rstack : List ReadTask)
  | done (taken : ℕ) (rstack : List ReadTask) (reply : Option RedisReply)
  | error (errstr : Bytes)
  | undefined

/-- The loop of `seekNewline` over so many positions. -/
def seek : ℕ → Bytes → Option ℕ
  | n+1, b::c::s => if b = CR ∧ c = LF then some 0 else (seek n (c::s)).map (·+1)
  | _, _ => none

/-- The offset of the first CR LF; the last position is an `int`. -/
def seekNewline (s : Bytes) : Option ℕ := seek (int32 (s.length-1)).toNat s

/-- The digits up to the CR, behind the value `v`. -/
def readDigits (v : ℤ) : Bytes → Option ℤ
  | [] => none
  | b::s => if b = CR then some v else if 48 ≤ b ∧ b ≤ 57 then readDigits (int64 (v*10+(b.toNat-48))) s else none

def readLongLong (s : Bytes) : ℤ :=
  match s with
  | 45::s => ((readDigits 0 s).map fun v => int64 (-v)).getD (-1)
  | 43::s => (readDigits 0 s).getD (-1)
  | s => (readDigits 0 s).getD (-1)

/-- `createObject` and `moveToNextTask`: the object of a task with this index goes to the array of the task below, which
is finished in its turn with its last element. Storing outside of the array is undefined. -/
def moveToNextTask (obj : RedisReply) (idx : ℤ) : List ReadTask → Option (List ReadTask × Option RedisReply)
  | [] => some ([],some obj)
  | prv::rest =>
    if prv.obj.length < prv.elements then
      if idx = prv.elements-1 then moveToNextTask (.array prv.elements.toNat (prv.obj++[obj])) prv.idx rest
      else if idx < prv.elements then some (⟨none,-1,idx+1,[]⟩::{prv with obj := prv.obj++[obj]}::rest,none)
      else none
    else none

def finishItem (taken : ℕ) (obj : RedisReply) (cur : ReadTask) (rest : List ReadTask) : ItemResult :=
  match moveToNextTask obj cur.idx rest with
  | none => .undefined
  | some (rstack,reply) => .done taken rstack reply

def processLineItem (cur : ReadTask) (rest : List ReadTask) (p : Bytes) : ItemResult :=
  match seekNewline p with
  | none => .wait 0 (cur::rest)
  | some len =>
    let obj := match cur.type with
      | some .integer => .integer (readLongLong p)
      | some .status => .status (p.take len)
      | _ => .error (p.take len)
    finishItem (len+2) obj cur rest

def processBulkItem (cur : ReadTask) (rest : List ReadTask) (p : Bytes) : ItemResult :=
  match seekNewline p with
  | none => .wait 0 (cur::rest)
  | some s =>
    let len := readLongLong p
    if len < 0 then finishItem (s+2) .nil cur rest
    else if s+2+(len.toNat+2) ≤ p.length then
      finishItem (s+2+(len.toNat+2)) (.string ((p.drop (s+2)).take len.toNat)) cur rest
    else .wait 0 (cur::rest)

def processMultiBulkItem (cur : ReadTask) (rest : List ReadTask) (p : Bytes) : ItemResult :=
  if rest.length = 8 then .error (str "No support for nested multi bulk replies with depth > 7")
  else
    match seekNewline p with
    | none => .wait 0 (cur::rest)
    | some len =>
      let elements := readLongLong p
      if elements = -1 then finishItem (len+2) .nil cur rest
      else if elements > 0 then
        .done (len+2) (⟨none,-1,0,[]⟩::{cur with elements := int32 elements, obj := []}::rest) none
      else finishItem (len+2) (.array (int32 elements%18446744073709551616).toNat []) cur rest

def processTyped (cur : ReadTask) (rest : List ReadTask) (p : Bytes) : ItemResult :=
  match cur.type with
  | some .error | some .status | some .integer => processLineItem cur rest p
  | some .string => processBulkItem cur rest p
  | some .array => processMultiBulkItem cur rest p
  | none => .undefined

def replyType (b : UInt8) : Option ReplyType :=
  if b = 45 then some .error
  else if b = 43 then some .status
  else if b = 58 then some .integer
  else if b = 36 then some .string
  else if b = 42 then some .array
  else none

/-- The text of `chrtos`. -/
def chrtos (b : UInt8) : Bytes := str "\""++reprByte b++str "\""

def ItemResult.skip (n : ℕ) : ItemResult → ItemResult
  | wait taken rstack => wait (n+taken) rstack
  | done taken rstack reply => done (n+taken) rstack reply
  | r => r

/-- The item on top of the stack, with the unread bytes `p`. -/
def processItem (rstack : List ReadTask) (p : Bytes) : ItemResult :=
  match rstack with
  | [] => .undefined
  | cur::rest =>
    match cur.type with
    | some _ => processTyped cur rest p
    | none =>
      match p with
      | [] => .wait 0 rstack
      | b::p =>
        match replyType b with
        | none => .error (str "Protocol error, got "++chrtos b++str " as reply type byte")
        | some t => (processTyped {cur with type := some t} rest p).skip 1

/-- `redisReader`; the buffer is gone once there is an error. -/
structure RedisReader where
  err : Option Bytes
  buf : Bytes
  pos : ℕ
  rstack : List ReadTask
  reply : Option RedisReply

def redisReaderCreate : RedisReader := ⟨none,[],0,[],none⟩

namespace RedisReader

def setError (errstr : Bytes) : RedisReader := ⟨some errstr,[],0,[],none⟩

/-- `redisReaderFeed`, in a state without an error. -/
def feed (r : RedisReader) (chunk : Bytes) : RedisReader := {r with buf := r.buf++chunk}

/-- The loop of `redisReaderGetReply`. -/
def processItems : ℕ → RedisReader → Option RedisReader
  | 0, r => some r
  | fuel+1, r =>
    if r.rstack = [] then some r
    else
      match processItem r.rstack (r.buf.drop r.pos) with
      | .wait taken rstack => some {r with pos := r.pos+taken, rstack}
      | .done taken rstack reply => processItems fuel {r with pos := r.pos+taken, rstack, reply}
      | .error errstr => some (setError errstr)
      | .undefined => none

def rootTask : ReadTask := ⟨none,-1,-1,[]⟩

/-- Behind the loop: what was read is dropped once it is 1k, and the reply is handed over. -/
def emit (r : RedisReader) : RedisReader × Option RedisReply :=
  let r := if r.pos ≥ 1024 then {r with buf := sdsrange r.buf (int32 r.pos) (-1), pos := 0} else r
  if r.rstack = [] then ({r with reply := none},r.reply) else (r,none)

/-- `redisReaderGetReply`; an error stays. -/
def getReply (r : RedisReader) : Option (RedisReader × Except Bytes (Option RedisReply)) :=
  match r.err with
  | some errstr => some (r,.error errstr)
  | none =>
    if r.buf = [] then some (r,.ok none)
    else
      let r := if r.rstack = [] then {r with rstack := [rootTask]} else r
      match r.processItems (r.buf.length-r.pos+1) with
      | none => none
      | some r =>
        match r.err with
        | some errstr => some (r,.error errstr)
        | none => some (r.emit.1,.ok r.emit.2)

end RedisReader

/-- `redisGetReply` of a blocking context, over what its reads will give; without another read it blocks. -/
def redisGetReply (r : RedisReader) : List Bytes → Option (RedisReader × List Bytes × Except Bytes (Option RedisReply))
  | [] => r.getReply.map fun a => (a.1,[],a.2)
  | chunk::chunks =>
    match r.getReply with
    | none => none
    | some (r,.ok none) => redisGetReply (r.feed chunk) chunks
    | some (r,a) => some (r,chunk::chunks,a)

theorem seek_lt {n k : ℕ} {s : Bytes} (h : seek n s = some k) : k < n ∧ k+2 ≤ s.length ∧ CR ∈ s := by
  induction n generalizing s k with
  | zero => simp [seek] at h
  | succ n ih =>
    match s, h with
    | [], h => simp [seek] at h
    | [_], h => simp [seek] at h
    | b::c::s, h =>
      rw [seek] at h
      split_ifs at h with hb
      · obtain rfl := Option.some.inj h
        exact ⟨by omega,by simp,by simp [hb.1]⟩
      · obtain ⟨k',hk',rfl⟩ := Option.map_eq_some_iff.mp h
        obtain ⟨h₁,h₂,h₃⟩ := ih hk'
        simp only [List.length_cons] at h₂ ⊢
        exact ⟨by omega,by omega,List.mem_cons_of_mem _ h₃⟩

theorem seek_append {n m k : ℕ} {s : Bytes} (h : seek n s = some k) (hm : n ≤ m) (t : Bytes) :
    seek m (s++t) = some k := by
  induction n generalizing s k m with
  | zero => simp [seek] at h
  | succ n ih =>
    obtain ⟨m,rfl⟩ : ∃ i, m = i+1 := ⟨m-1,by omega⟩
    match s, h with
    | [], h => simp [seek] at h
    | [_], h => simp [seek] at h
    | b::c::s, h =>
      rw [seek] at h
      rw [List.cons_append,List.cons_append,seek]
      split_ifs at h ⊢ with hb
      · exact h
      · obtain ⟨k',hk',rfl⟩ := Option.map_eq_some_iff.mp h
        rw [← List.cons_append,ih hk' (by omega)]
        rfl

theorem seekNewline_eq {s : Bytes} (h : s.length < 2147483648) : seekNewline s = seek (s.length-1) s := by
  rw [seekNewline]
  congr 1
  unfold int32
  omega

theorem seekNewline_append {s : Bytes} {k : ℕ} (h : seekNewline s = some k) {t : Bytes}
    (hlen : (s++t).length < 2147483648) : seekNewline (s++t) = some k := by
  rw [List.length_append] at hlen
  rw [seekNewline_eq (by omega)] at h
  rw [seekNewline_eq (by rw [List.length_append]; omega)]
  exact seek_append h (by rw [List.length_append]; omega) t

theorem seekNewline_lt {s : Bytes} {k : ℕ} (h : seekNewline s = some k) : k+2 ≤ s.length ∧ CR ∈ s := (seek_lt h).2

theorem seek_clean {s : Bytes} (h : ¬ CRLF <:+: s) (t : Bytes) {n : ℕ} (hn : s.length < n) :
    seek n (s++CRLF++t) = some s.length := by
  induction s generalizing n with
  | nil =>
    obtain ⟨n,rfl⟩ : ∃ i, n = i+1 := ⟨n-1,by omega⟩
    rfl
  | cons b s ih =>
    rw [List.length_cons] at hn
    obtain ⟨n,rfl⟩ : ∃ i, n = i+1 := ⟨n-1,by omega⟩
    have hs : ¬ CRLF <:+: s := fun hi => h (hi.trans (List.suffix_cons b s).isInfix)
    have hrest := ih hs (by omega : s.length < n)
    cases s with
    | nil =>
      have hb : ¬ (b = CR ∧ CR = LF) := by
        rintro ⟨-,hc⟩
        cases hc
      rw [show [b]++CRLF++t = b::CR::LF::t by rfl,seek,if_neg hb]
      rw [show ([]:Bytes)++CRLF++t = CR::LF::t by rfl] at hrest
      rw [hrest]
      rfl
    | cons c s =>
      have hb : ¬ (b = CR ∧ c = LF) := by
        rintro ⟨rfl,rfl⟩
        exact h ⟨[],s,rfl⟩
      simp only [List.cons_append] at hrest ⊢
      rw [seek,if_neg hb,hrest]
      rfl

theorem seekNewline_clean {s : Bytes} (h : ¬ CRLF <:+: s) {t : Bytes} (hlen : (s++CRLF++t).length < 2147483648) :
    seekNewline (s++CRLF++t) = some s.length := by
  rw [seekNewline_eq hlen]
  refine seek_clean h t ?_
  simp only [List.length_append,List.length_cons,List.length_nil]
  omega

theorem readDigits_append {s : Bytes} (h : CR ∈ s) (v : ℤ) (t : Bytes) : readDigits v (s++t) = readDigits v s := by
  induction s generalizing v with
  | nil => cases h
  | cons b s ih =>
    rw [List.cons_append,readDigits,readDigits]
    split_ifs with hb
    · rfl
    · exact ih ((List.mem_cons.mp h).resolve_left (Ne.symm hb)) _
    · rfl

theorem readLongLong_cons {b : UInt8} (h₁ : b ≠ 45) (h₂ : b ≠ 43) (s : Bytes) :
    readLongLong (b::s) = (readDigits 0 (b::s)).getD (-1) := by
  unfold readLongLong
  split <;> simp_all

theorem readLongLong_append {s : Bytes} (h : CR ∈ s) (t : Bytes) : readLongLong (s++t) = readLongLong s := by
  cases s with
  | nil => cases h
  | cons b s =>
    by_cases h₁ : b = 45
    · subst h₁
      have hs : CR ∈ s := (List.mem_cons.mp h).resolve_left (by decide)
      simp only [List.cons_append,readLongLong,readDigits_append hs]
    · by_cases h₂ : b = 43
      · subst h₂
        have hs : CR ∈ s := (List.mem_cons.mp h).resolve_left (by decide)
        simp only [List.cons_append,readLongLong,readDigits_append hs]
      · rw [List.cons_append,readLongLong_cons h₁ h₂,readLongLong_cons h₁ h₂,← List.cons_append,readDigits_append h]

theorem readDigits_value {s : Bytes} (hs : ∀ b ∈ s, Decimal.IsDigit b) {v : ℕ}
    (hv : Decimal.value v s < 9223372036854775808) (t : Bytes) :
    readDigits v (s++CR::t) = some (Decimal.value v s : ℤ) := by
  induction s generalizing v with
  | nil => simp [readDigits]
  | cons b s ih =>
    obtain ⟨hb,hrest⟩ := List.forall_mem_cons.mp hs
    have hle := Decimal.le_value (Decimal.shift v b) s
    rw [Decimal.value_cons] at hv ⊢
    have hne : b ≠ CR := by
      rintro rfl
      exact absurd hb (by decide)
    have hrange : 48 ≤ b ∧ b ≤ 57 := ⟨UInt8.le_iff_toNat_le.mpr hb.1,UInt8.le_iff_toNat_le.mpr hb.2⟩
    have hlt : Decimal.shift v b < 9223372036854775808 := hle.trans_lt hv
    have hshift : (Decimal.shift v b : ℤ) = v*10+(b.toNat-48) := by
      have := hb.1
      unfold Decimal.shift
      omega
    have hstep : int64 ((v : ℤ)*10+(b.toNat-48)) = (Decimal.shift v b : ℤ) := by
      rw [← hshift]
      unfold int64
      omega
    rw [List.cons_append,readDigits,if_neg hne,if_pos hrange,hstep]
    exact ih hrest hv

theorem readLongLong_encode {n : ℕ} (h : n < 9223372036854775808) (t : Bytes) :
    readLongLong (Decimal.encode n++CRLF++t) = n := by
  have hv := Decimal.value_encode n
  have hd := Decimal.encode_isDigit n
  have hread := readDigits_value hd (v:=0) (by rw [hv]; exact h) (LF::t)
  rw [hv] at hread
  have hend : Decimal.encode n++CRLF++t = Decimal.encode n++CR::LF::t := by simp
  obtain ⟨b,s,hb,h₁,h₂⟩ : ∃ b s, Decimal.encode n++CR::LF::t = b::s ∧ b ≠ 45 ∧ b ≠ 43 := by
    cases he : Decimal.encode n with
    | nil => exact ⟨CR,LF::t,rfl,by decide,by decide⟩
    | cons d ds =>
      have hdigit := hd d (by simp [he])
      refine ⟨d,ds++CR::LF::t,rfl,?_,?_⟩ <;> rintro rfl <;> exact absurd hdigit (by decide)
  rw [hend,hb,readLongLong_cons h₁ h₂,← hb]
  simpa using congrArg (·.getD (-1)) hread

theorem readLongLong_sdsll2str {n : ℤ} (h₁ : -9223372036854775808 < n) (h₂ : n < 9223372036854775808) (t : Bytes) :
    readLongLong (sdsll2str n++CRLF++t) = n := by
  by_cases hn : n < 0
  · have hread := readDigits_value (Decimal.encode_isDigit n.natAbs) (v:=0)
      (by rw [Decimal.value_encode]; omega) (LF::t)
    rw [Decimal.value_encode] at hread
    have hend : sdsll2str n++CRLF++t = 45::(Decimal.encode n.natAbs++CR::LF::t) := by simp [sdsll2str,hn]
    have hneg : int64 (-(n.natAbs : ℤ)) = n := by
      unfold int64
      omega
    rw [hend,readLongLong]
    rw [show ((0:ℕ):ℤ) = 0 by rfl] at hread
    rw [hread,Option.map_some,Option.getD_some,hneg]
  · obtain ⟨m,rfl⟩ := Int.eq_ofNat_of_zero_le (not_lt.mp hn)
    rw [sdsll2str_nat]
    exact readLongLong_encode (by omega) t

theorem finishItem_done {taken k : ℕ} {obj : RedisReply} {cur : ReadTask} {rest S : List ReadTask}
    {o : Option RedisReply} (h : finishItem taken obj cur rest = .done k S o) : k = taken := by
  unfold finishItem at h
  split at h
  · cases h
  · cases h
    rfl

theorem finishItem_ne_wait {taken k : ℕ} {obj : RedisReply} {cur : ReadTask} {rest S : List ReadTask} :
    finishItem taken obj cur rest ≠ .wait k S := by
  unfold finishItem
  split <;> simp

/-- An item that waits has taken nothing; what is behind another one does not change it. -/
structure Settles (cur : ReadTask) (rest : List ReadTask) (f : Bytes → ItemResult) : Prop where
  wait : ∀ {p k S}, f p = .wait k S → k = 0 ∧ S = cur::rest
  done : ∀ {p k S o}, f p = .done k S o → 0 < k ∧ k ≤ p.length
  behind : ∀ {p} t, f p ≠ .wait 0 (cur::rest) → (p++t).length < 2147483648 → f (p++t) = f p

section
variable {cur : ReadTask} {rest : List ReadTask}

theorem processLineItem_settles : Settles cur rest (processLineItem cur rest) where
  wait := by
    intro p k S h
    unfold processLineItem at h
    split at h
    · obtain ⟨rfl,rfl⟩ := ItemResult.wait.inj h
      exact ⟨rfl,rfl⟩
    · exact absurd h finishItem_ne_wait
  done := by
    intro p k S o h
    unfold processLineItem at h
    split at h
    · cases h
    · rename_i len hseek
      have hlen := (seekNewline_lt hseek).1
      have := finishItem_done h
      omega
  behind := by
    intro p t h hlen
    cases hseek : seekNewline p with
    | none => simp [processLineItem,hseek] at h
    | some len =>
      obtain ⟨hle,hcr⟩ := seekNewline_lt hseek
      simp only [processLineItem,hseek,seekNewline_append hseek hlen,readLongLong_append hcr,
        List.take_append_of_le_length (by omega : len ≤ p.length)]

theorem processBulkItem_settles : Settles cur rest (processBulkItem cur rest) where
  wait := by
    intro p k S h
    unfold processBulkItem at h
    split at h
    · obtain ⟨rfl,rfl⟩ := ItemResult.wait.inj h
      exact ⟨rfl,rfl⟩
    · dsimp only at h
      split_ifs at h
      · exact absurd h finishItem_ne_wait
      · exact absurd h finishItem_ne_wait
      · obtain ⟨rfl,rfl⟩ := ItemResult.wait.inj h
        exact ⟨rfl,rfl⟩
  done := by
    intro p k S o h
    unfold processBulkItem at h
    split at h
    · cases h
    · rename_i s hseek
      have hlen := (seekNewline_lt hseek).1
      dsimp only at h
      split_ifs at h with hneg hall
      · have := finishItem_done h
        omega
      · have := finishItem_done h
        omega
  behind := by
    intro p t h hlen
    cases hseek : seekNewline p with
    | none => simp [processBulkItem,hseek] at h
    | some s =>
      obtain ⟨hle,hcr⟩ := seekNewline_lt hseek
      simp only [processBulkItem,hseek] at h
      simp only [processBulkItem,hseek,seekNewline_append hseek hlen,readLongLong_append hcr]
      by_cases hneg : readLongLong p < 0
      · simp only [if_pos hneg]
      · simp only [if_neg hneg] at h ⊢
        by_cases hall : s+2+((readLongLong p).toNat+2) ≤ p.length
        · rw [if_pos hall,if_pos (by rw [List.length_append]; omega),List.drop_append_of_le_length (by omega),
            List.take_append_of_le_length (by rw [List.length_drop]; omega)]
        · rw [if_neg hall] at h
          exact absurd rfl h

theorem processMultiBulkItem_settles : Settles cur rest (processMultiBulkItem cur rest) where
  wait := by
    intro p k S h
    unfold processMultiBulkItem at h
    split_ifs at h
    split at h
    · obtain ⟨rfl,rfl⟩ := ItemResult.wait.inj h
      exact ⟨rfl,rfl⟩
    · dsimp only at h
      split_ifs at h
      · exact absurd h finishItem_ne_wait
      · exact absurd h finishItem_ne_wait
  done := by
    intro p k S o h
    unfold processMultiBulkItem at h
    split_ifs at h
    split at h
    · cases h
    · rename_i len hseek
      have hlen := (seekNewline_lt hseek).1
      dsimp only at h
      split_ifs at h
      · have := finishItem_done h
        omega
      · obtain ⟨rfl,-⟩ := ItemResult.done.inj h
        omega
      · have := finishItem_done h
        omega
  behind := by
    intro p t h hlen
    cases hseek : seekNewline p with
    | none =>
      by_cases hdeep : rest.length = 8
      · simp only [processMultiBulkItem,if_pos hdeep]
      · simp [processMultiBulkItem,hseek,hdeep] at h
    | some len =>
      have hcr := (seekNewline_lt hseek).2
      simp only [processMultiBulkItem,hseek,seekNewline_append hseek hlen,readLongLong_append hcr]

theorem processTyped_settles : Settles cur rest (processTyped cur rest) := by
  have hundefined : Settles cur rest fun _ => .undefined := ⟨nofun,nofun,fun _ _ _ => rfl⟩
  have hfun : ∀ f, (∀ p, processTyped cur rest p = f p) → Settles cur rest f → Settles cur rest (processTyped cur rest) := by
    intro f h hf
    rwa [funext h]
  cases htype : cur.type with
  | none => exact hfun _ (fun p => by simp only [processTyped,htype]) hundefined
  | some t =>
    cases t with
    | string => exact hfun _ (fun p => by simp only [processTyped,htype]) processBulkItem_settles
    | array => exact hfun _ (fun p => by simp only [processTyped,htype]) processMultiBulkItem_settles
    | integer => exact hfun _ (fun p => by simp only [processTyped,htype]) processLineItem_settles
    | status => exact hfun _ (fun p => by simp only [processTyped,htype]) processLineItem_settles
    | error => exact hfun _ (fun p => by simp only [processTyped,htype]) processLineItem_settles

end

def ItemResult.outcome : ItemResult → Incremental.Outcome (List ReadTask) RedisReply
  | wait taken rstack => .wait taken rstack
  | done taken rstack reply => .done taken rstack reply
  | _ => .broken

/-- `processItem` as an attempt to read. -/
def attempt (rstack : List ReadTask) (p : Bytes) : Incremental.Outcome (List ReadTask) RedisReply :=
  (processItem rstack p).outcome

theorem outcome_skip (n : ℕ) (r : ItemResult) : (r.skip n).outcome = r.outcome.skip n := by
  cases r <;> rfl

theorem attempt_typed {cur : ReadTask} {rest : List ReadTask} (h : cur.type ≠ none) (p : Bytes) :
    attempt (cur::rest) p = (processTyped cur rest p).outcome := by
  obtain ⟨t,ht⟩ := Option.ne_none_iff_exists'.mp h
  simp only [attempt,processItem,ht]

theorem attempt_untyped {cur : ReadTask} {rest : List ReadTask} (h : cur.type = none) {b : UInt8} {t : ReplyType}
    (hb : replyType b = some t) (p : Bytes) :
    attempt (cur::rest) (b::p) = (processTyped {cur with type := some t} rest p).outcome.skip 1 := by
  simp only [attempt,processItem,h,hb,outcome_skip]

theorem attempt_cases (S : List ReadTask) (p : Bytes) :
    attempt S p = .broken ∧ (∀ t, attempt S (p++t) = .broken) ∨ p = [] ∧ attempt S p = .wait 0 S ∨
      ∃ n cur rest p', cur.type ≠ none ∧ p.length = n+p'.length ∧ p.drop n = p' ∧
        ∀ t, attempt S (p++t) = (processTyped cur rest (p'++t)).outcome.skip n := by
  cases S with
  | nil => exact Or.inl ⟨rfl,fun _ => rfl⟩
  | cons cur rest =>
    by_cases htype : cur.type = none
    · cases p with
      | nil => exact Or.inr (Or.inl ⟨rfl,by simp only [attempt,processItem,htype]; rfl⟩)
      | cons b p =>
        cases hb : replyType b with
        | none =>
          have hbad : ∀ q, attempt (cur::rest) (b::q) = .broken := by
            intro q
            simp only [attempt,processItem,htype,hb]
            rfl
          exact Or.inl ⟨hbad p,fun t => hbad (p++t)⟩
        | some t =>
          refine Or.inr (Or.inr ⟨1,{cur with type := some t},rest,p,by simp,by simp [Nat.add_comm],rfl,fun q => ?_⟩)
          exact attempt_untyped htype hb (p++q)
    · refine Or.inr (Or.inr ⟨0,cur,rest,p,htype,by simp,rfl,fun t => ?_⟩)
      rw [attempt_typed htype,Incremental.Outcome.skip_zero]

theorem skip_wait {n k : ℕ} {r : ItemResult} {S : List ReadTask} (h : r.outcome.skip n = .wait k S) :
    ∃ j, r = .wait j S ∧ k = n+j := by
  cases r with
  | wait j S' =>
    cases h
    exact ⟨j,rfl,rfl⟩
  | done => cases h
  | error => cases h
  | undefined => cases h

theorem skip_done {n k : ℕ} {r : ItemResult} {S : List ReadTask} {o : Option RedisReply}
    (h : r.outcome.skip n = .done k S o) : ∃ j, r = .done j S o ∧ k = n+j := by
  cases r with
  | done j S' o' =>
    cases h
    exact ⟨j,rfl,rfl⟩
  | wait => cases h
  | error => cases h
  | undefined => cases h

theorem attempt_resumes : Incremental.Resumes attempt 2147483648 where
  taken := by
    intro S p k S' h
    rcases attempt_cases S p with ⟨hb,-⟩ | ⟨rfl,hw⟩ | ⟨n,cur,rest,p',-,hp,-,hstep⟩
    · cases hb.symm.trans h
    · cases hw.symm.trans h
      exact le_rfl
    · have hnow := hstep []
      rw [List.append_nil,List.append_nil,h] at hnow
      obtain ⟨j,hj,rfl⟩ := skip_wait hnow.symm
      obtain ⟨rfl,-⟩ := processTyped_settles.wait hj
      omega
  done := by
    intro S p k S' o h
    rcases attempt_cases S p with ⟨hb,-⟩ | ⟨rfl,hw⟩ | ⟨n,cur,rest,p',-,hp,-,hstep⟩
    · cases hb.symm.trans h
    · cases hw.symm.trans h
    · have hnow := hstep []
      rw [List.append_nil,List.append_nil,h] at hnow
      obtain ⟨j,hj,rfl⟩ := skip_done hnow.symm
      have := processTyped_settles.done hj
      omega
  behind := by
    intro S p k S' o t h hlen
    rcases attempt_cases S p with ⟨hb,-⟩ | ⟨rfl,hw⟩ | ⟨n,cur,rest,p',-,hp,-,hstep⟩
    · cases hb.symm.trans h
    · cases hw.symm.trans h
    · have hnow := hstep []
      rw [List.append_nil,List.append_nil,h] at hnow
      obtain ⟨j,hj,rfl⟩ := skip_done hnow.symm
      rw [List.length_append] at hlen
      rw [hstep t,processTyped_settles.behind t (by rw [hj]; simp) (by rw [List.length_append]; omega),hj]
      rfl
  again := by
    intro S p k S' t h hlen
    rcases attempt_cases S p with ⟨hb,-⟩ | ⟨rfl,hw⟩ | ⟨n,cur,rest,p',htype,hp,hdrop,hstep⟩
    · cases hb.symm.trans h
    · cases hw.symm.trans h
      rw [Incremental.Outcome.skip_zero]
      rfl
    · have hnow := hstep []
      rw [List.append_nil,List.append_nil,h] at hnow
      obtain ⟨j,hj,rfl⟩ := skip_wait hnow.symm
      obtain ⟨rfl,rfl⟩ := processTyped_settles.wait hj
      rw [hstep t,Nat.add_zero,hdrop,attempt_typed htype]
  broken := by
    intro S p t h hlen
    rcases attempt_cases S p with ⟨-,hb⟩ | ⟨rfl,hw⟩ | ⟨n,cur,rest,p',-,hp,-,hstep⟩
    · exact hb t
    · cases hw.symm.trans h
    · have hnow := hstep []
      rw [List.append_nil,List.append_nil,h] at hnow
      have hne : processTyped cur rest p' ≠ .wait 0 (cur::rest) := by
        intro hw
        rw [hw] at hnow
        cases hnow
      rw [List.length_append] at hlen
      rw [hstep t,processTyped_settles.behind t hne (by rw [List.length_append]; omega),hnow]

mutual

def RedisReply.encode : RedisReply → Bytes
  | .string s => str "$"++Decimal.encode s.length++CRLF++s++CRLF
  | .status s => str "+"++s++CRLF
  | .error s => str "-"++s++CRLF
  | .integer n => str ":"++sdsll2str n++CRLF
  | .nil => str "$-1\r\n"
  | .array elements element => str "*"++Decimal.encode elements++CRLF++encodeAll element

def encodeAll : List RedisReply → Bytes
  | [] => []
  | v::vs => v.encode++encodeAll vs

end

mutual

/-- No line is broken, every number fits, and no array is nested deeper than so many levels. -/
def RedisReply.Fits : ℕ → RedisReply → Prop
  | _, .string _ => True
  | _, .status s => ¬ CRLF <:+: s
  | _, .error s => ¬ CRLF <:+: s
  | _, .integer n => -9223372036854775808 < n ∧ n < 9223372036854775808
  | _, .nil => True
  | 0, .array _ _ => False
  | depth+1, .array elements element => elements = element.length ∧ AllFit depth element

def AllFit : ℕ → List RedisReply → Prop
  | _, [] => True
  | depth, v::vs => v.Fits depth ∧ AllFit depth vs

end

theorem moveToNextTask_root {v : RedisReply} {idx : ℤ} {rest S : List ReadTask} {o : Option RedisReply}
    (h : moveToNextTask v idx rest = some (S,o)) : S = [] ↔ o ≠ none := by
  induction rest generalizing v idx with
  | nil =>
    obtain ⟨rfl,rfl⟩ := Prod.mk.inj (Option.some.inj h)
    simp
  | cons prv rest ih =>
    rw [moveToNextTask] at h
    split_ifs at h
    · exact ih h
    · obtain ⟨rfl,rfl⟩ := Prod.mk.inj (Option.some.inj h)
      simp

section
variable {cur : ReadTask} {rest S : List ReadTask} {v : RedisReply} {o : Option RedisReply}

theorem finishItem_eq (h : moveToNextTask v cur.idx rest = some (S,o)) (taken : ℕ) (t : Option ReplyType) :
    finishItem taken v {cur with type := t} rest = .done taken S o := by
  simp only [finishItem,h]

theorem reads_marked (hcur : cur.type = none) {b : UInt8} {t : ReplyType} (hb : replyType b = some t) {p : Bytes}
    (h : processTyped {cur with type := some t} rest p = .done p.length S o) :
    Incremental.Reads attempt (cur::rest) (b::p) S o := by
  refine .last ?_
  rw [attempt_untyped hcur hb,h,List.length_cons,Nat.add_comm]
  rfl

theorem seekNewline_line {s : Bytes} (h : ¬ CRLF <:+: s) (hlen : (s++CRLF).length < 2147483648) :
    seekNewline (s++CRLF) = some s.length := by
  have := seekNewline_clean h (t:=[]) (by rwa [List.append_nil])
  rwa [List.append_nil] at this

theorem reads_status (hcur : cur.type = none) {s : Bytes} (hs : ¬ CRLF <:+: s) (hlen : (s++CRLF).length < 2147483648)
    (hmove : moveToNextTask (.status s) cur.idx rest = some (S,o)) :
    Incremental.Reads attempt (cur::rest) (str "+"++s++CRLF) S o := by
  refine reads_marked hcur (b:=43) (p:=s++CRLF) rfl ?_
  simp only [processTyped,processLineItem,seekNewline_line hs hlen,List.take_left]
  rw [finishItem_eq hmove]
  simp

theorem reads_error (hcur : cur.type = none) {s : Bytes} (hs : ¬ CRLF <:+: s) (hlen : (s++CRLF).length < 2147483648)
    (hmove : moveToNextTask (.error s) cur.idx rest = some (S,o)) :
    Incremental.Reads attempt (cur::rest) (str "-"++s++CRLF) S o := by
  refine reads_marked hcur (b:=45) (p:=s++CRLF) rfl ?_
  simp only [processTyped,processLineItem,seekNewline_line hs hlen,List.take_left]
  rw [finishItem_eq hmove]
  simp

theorem sdsll2str_clean (n : ℤ) : ¬ CRLF <:+: sdsll2str n := by
  refine Resp.clean_of_notMem fun hm => ?_
  unfold sdsll2str at hm
  split_ifs at hm
  · rw [List.mem_cons] at hm
    exact hm.elim (by decide) fun hm => absurd (Decimal.encode_isDigit _ _ hm) (by decide)
  · exact absurd (Decimal.encode_isDigit _ _ hm) (by decide)

theorem reads_integer (hcur : cur.type = none) {n : ℤ} (h₁ : -9223372036854775808 < n) (h₂ : n < 9223372036854775808)
    (hlen : (sdsll2str n++CRLF).length < 2147483648)
    (hmove : moveToNextTask (.integer n) cur.idx rest = some (S,o)) :
    Incremental.Reads attempt (cur::rest) (str ":"++sdsll2str n++CRLF) S o := by
  refine reads_marked hcur (b:=58) (p:=sdsll2str n++CRLF) rfl ?_
  have hread := readLongLong_sdsll2str h₁ h₂ []
  rw [List.append_nil] at hread
  simp only [processTyped,processLineItem,seekNewline_line (sdsll2str_clean n) hlen,hread]
  rw [finishItem_eq hmove]
  simp

theorem reads_nil (hcur : cur.type = none) (hmove : moveToNextTask .nil cur.idx rest = some (S,o)) :
    Incremental.Reads attempt (cur::rest) (str "$-1\r\n") S o := by
  refine reads_marked hcur (b:=36) (p:=str "-1\r\n") rfl ?_
  have hseek : seekNewline (str "-1\r\n") = some 2 := by decide
  have hread : readLongLong (str "-1\r\n") = -1 := by decide
  simp only [processTyped,processBulkItem,hseek,hread]
  rw [if_pos (by decide),finishItem_eq hmove]
  rfl

theorem reads_string (hcur : cur.type = none) {s : Bytes}
    (hlen : (Decimal.encode s.length++CRLF++s++CRLF).length < 2147483648)
    (hmove : moveToNextTask (.string s) cur.idx rest = some (S,o)) :
    Incremental.Reads attempt (cur::rest) (str "$"++Decimal.encode s.length++CRLF++s++CRLF) S o := by
  refine reads_marked hcur (b:=36) (p:=Decimal.encode s.length++CRLF++s++CRLF) rfl ?_
  have hsplit : Decimal.encode s.length++CRLF++s++CRLF = Decimal.encode s.length++CRLF++(s++CRLF) := List.append_assoc ..
  have hsmall : s.length < 9223372036854775808 := by
    simp only [List.length_append] at hlen
    omega
  rw [hsplit] at hlen ⊢
  have hseek := seekNewline_clean (Resp.digits_clean (Decimal.encode_isDigit s.length)) hlen
  have hread := readLongLong_encode hsmall (s++CRLF)
  have hdrop : (Decimal.encode s.length++CRLF++(s++CRLF)).drop ((Decimal.encode s.length).length+2) = s++CRLF := by
    rw [show (Decimal.encode s.length).length+2 = (Decimal.encode s.length++CRLF).length by simp,List.drop_left]
  simp only [processTyped,processBulkItem,hseek,hread,Int.toNat_natCast,hdrop,List.take_left]
  rw [if_neg (by omega),if_pos (by simp; omega),finishItem_eq hmove]
  congr 1
  simp
  omega

theorem reads_header (hcur : cur.type = none) (hdepth : rest.length ≠ 8) {n : ℕ} (h0 : 0 < n) (hn : n < 2147483648)
    (hlen : (Decimal.encode n++CRLF).length < 2147483648) :
    attempt (cur::rest) (str "*"++Decimal.encode n++CRLF) = .done (str "*"++Decimal.encode n++CRLF).length
      (⟨none,-1,0,[]⟩::⟨some .array,n,cur.idx,[]⟩::rest) none := by
  have hread := readLongLong_encode (n:=n) (by omega) []
  rw [List.append_nil] at hread
  have hmark : str "*"++Decimal.encode n++CRLF = 42::(Decimal.encode n++CRLF) := rfl
  rw [hmark,attempt_untyped hcur (t:=.array) rfl]
  simp only [processTyped,processMultiBulkItem,if_neg hdepth,
    seekNewline_line (Resp.digits_clean (Decimal.encode_isDigit n)) hlen,hread,int32_nat hn]
  rw [if_neg (by omega),if_pos (by omega)]
  simp [ItemResult.outcome,Incremental.Outcome.skip]
  omega

theorem reads_empty (hcur : cur.type = none) (hdepth : rest.length ≠ 8)
    (hmove : moveToNextTask (.array 0 []) cur.idx rest = some (S,o)) :
    Incremental.Reads attempt (cur::rest) (str "*0\r\n") S o := by
  refine reads_marked hcur (b:=42) (p:=str "0\r\n") rfl ?_
  have hseek : seekNewline (str "0\r\n") = some 1 := by decide
  have hread : readLongLong (str "0\r\n") = 0 := by decide
  simp only [processTyped,processMultiBulkItem,if_neg hdepth,hseek,hread]
  rw [if_neg (by decide),if_neg (by decide)]
  exact finishItem_eq hmove _ _

end

theorem encodeAll_length (vs : List RedisReply) : vs.length ≤ (encodeAll vs).length := by
  induction vs with
  | nil => simp
  | cons v vs ih =>
    have hv : 1 ≤ v.encode.length := by
      cases v <;> simp [RedisReply.encode,str,Nat.add_assoc] <;> omega
    simp only [encodeAll,List.length_append,List.length_cons]
    omega

theorem moveToNextTask_next {v : RedisReply} {prv : ReadTask} {n : ℕ} (h : prv.elements = prv.obj.length+(n+2))
    (rest : List ReadTask) :
    moveToNextTask v prv.obj.length (prv::rest) =
      some (⟨none,-1,(prv.obj++[v]).length,[]⟩::{prv with obj := prv.obj++[v]}::rest,none) := by
  rw [moveToNextTask,if_pos (by omega),if_neg (by omega),if_pos (by omega)]
  simp

theorem moveToNextTask_last {v : RedisReply} {prv : ReadTask} (h : prv.elements = prv.obj.length+1)
    (rest : List ReadTask) :
    moveToNextTask v prv.obj.length (prv::rest) =
      moveToNextTask (.array prv.elements.toNat (prv.obj++[v])) prv.idx rest := by
  rw [moveToNextTask,if_pos (by omega),if_pos (by omega)]

mutual

/-- The bytes of a reply take its task to where the finished reply takes it. -/
theorem RedisReply.reads : ∀ (v : RedisReply) {cur : ReadTask} {rest S : List ReadTask} {o : Option RedisReply},
    cur.type = none → v.Fits (8-rest.length) → rest.length ≤ 8 → v.encode.length < 2147483648 →
    moveToNextTask v cur.idx rest = some (S,o) → Incremental.Reads attempt (cur::rest) v.encode S o
  | .string s, cur, rest, S, o, hcur, _, _, hlen, hmove => by
    rw [RedisReply.encode] at hlen ⊢
    refine reads_string hcur ?_ hmove
    simp only [List.length_append] at hlen ⊢
    omega
  | .status s, cur, rest, S, o, hcur, hfits, _, hlen, hmove => by
    rw [RedisReply.encode] at hlen ⊢
    refine reads_status hcur hfits ?_ hmove
    simp only [List.length_append] at hlen ⊢
    omega
  | .error s, cur, rest, S, o, hcur, hfits, _, hlen, hmove => by
    rw [RedisReply.encode] at hlen ⊢
    refine reads_error hcur hfits ?_ hmove
    simp only [List.length_append] at hlen ⊢
    omega
  | .integer n, cur, rest, S, o, hcur, hfits, _, hlen, hmove => by
    rw [RedisReply.encode] at hlen ⊢
    refine reads_integer hcur hfits.1 hfits.2 ?_ hmove
    simp only [List.length_append] at hlen ⊢
    omega
  | .nil, cur, rest, S, o, hcur, _, _, _, hmove => reads_nil hcur hmove
  | .array elements element, cur, rest, S, o, hcur, hfits, hdepth, hlen, hmove => by
    obtain ⟨depth,hd⟩ : ∃ d, 8-rest.length = d+1 := by
      cases hk : 8-rest.length with
      | zero =>
        rw [hk] at hfits
        exact hfits.elim
      | succ d => exact ⟨d,rfl⟩
    rw [hd] at hfits
    obtain ⟨rfl,hall⟩ := hfits
    rw [RedisReply.encode] at hlen ⊢
    have hsize := encodeAll_length element
    rw [List.length_append] at hlen
    by_cases hnil : element = []
    · subst hnil
      exact reads_empty hcur (by omega) hmove
    · have hpos := List.length_pos_of_ne_nil hnil
      have hheader := reads_header hcur (by omega : rest.length ≠ 8) hpos (by omega) (by
        simp only [List.length_append] at hlen ⊢
        omega)
      have hdepth' : 7-rest.length = depth := by omega
      refine .more hheader (@readsAll element ⟨some .array,element.length,cur.idx,[]⟩ rest S o hnil ?_ (by omega) (by omega) ?_ ?_)
      · rwa [hdepth']
      · simp
      · simpa using hmove

/-- The bytes of the elements that are left finish the array. -/
theorem readsAll : ∀ (vs : List RedisReply) {prv : ReadTask} {rest S : List ReadTask} {o : Option RedisReply},
    vs ≠ [] → AllFit (7-rest.length) vs → rest.length ≤ 7 → (encodeAll vs).length < 2147483648 →
    prv.elements = prv.obj.length+vs.length →
    moveToNextTask (.array prv.elements.toNat (prv.obj++vs)) prv.idx rest = some (S,o) →
    Incremental.Reads attempt (⟨none,-1,prv.obj.length,[]⟩::prv::rest) (encodeAll vs) S o
  | [], _, _, _, _, hne, _, _, _, _, _ => absurd rfl hne
  | [v], prv, rest, S, o, _, hfits, hdepth, hlen, helements, hmove => by
    rw [encodeAll,encodeAll,List.append_nil] at hlen ⊢
    refine v.reads rfl ?_ (by rw [List.length_cons]; omega) hlen ?_
    · rw [List.length_cons,show 8-(rest.length+1) = 7-rest.length by omega]
      exact hfits.1
    · rw [moveToNextTask_last helements]
      exact hmove
  | v::w::vs, prv, rest, S, o, _, hfits, hdepth, hlen, helements, hmove => by
    rw [encodeAll] at hlen ⊢
    rw [List.length_append] at hlen
    simp only [List.length_cons] at helements
    refine (v.reads rfl ?_ (by rw [List.length_cons]; omega) (by omega)
      (moveToNextTask_next (n:=vs.length) (by omega) rest)).append rfl ?_
    · rw [List.length_cons,show 8-(rest.length+1) = 7-rest.length by omega]
      exact hfits.1
    · refine @readsAll (w::vs) {prv with obj := prv.obj++[v]} rest S o (by simp) hfits.2 hdepth (by omega) ?_ ?_
      · simp only [List.length_append,List.length_cons,List.length_nil]
        omega
      · rw [List.append_assoc]
        exact hmove

end

theorem finishItem_root {taken k : ℕ} {v : RedisReply} {cur : ReadTask} {rest S : List ReadTask}
    {o : Option RedisReply} (h : finishItem taken v cur rest = .done k S o) : S = [] ↔ o ≠ none := by
  unfold finishItem at h
  split at h
  · cases h
  · rename_i hmove
    obtain ⟨-,rfl,rfl⟩ := ItemResult.done.inj h
    exact moveToNextTask_root hmove

theorem processTyped_root {cur : ReadTask} {rest S : List ReadTask} {p : Bytes} {k : ℕ} {o : Option RedisReply}
    (h : processTyped cur rest p = .done k S o) : S = [] ↔ o ≠ none := by
  have hline : processLineItem cur rest p = .done k S o → (S = [] ↔ o ≠ none) := by
    intro h
    unfold processLineItem at h
    split at h
    · cases h
    · exact finishItem_root h
  unfold processTyped at h
  split at h
  · exact hline h
  · exact hline h
  · exact hline h
  · unfold processBulkItem at h
    split at h
    · cases h
    · dsimp only at h
      split_ifs at h <;> exact finishItem_root h
  · unfold processMultiBulkItem at h
    split_ifs at h
    split at h
    · cases h
    · dsimp only at h
      split_ifs at h
      · exact finishItem_root h
      · obtain ⟨-,rfl,rfl⟩ := ItemResult.done.inj h
        simp
      · exact finishItem_root h
  · cases h

theorem attempt_root {S S' : List ReadTask} {p : Bytes} {k : ℕ} {o : Option RedisReply}
    (h : attempt S p = .done k S' o) : S' = [] ↔ o ≠ none := by
  rcases attempt_cases S p with ⟨hb,-⟩ | ⟨rfl,hw⟩ | ⟨n,cur,rest,p',-,-,-,hstep⟩
  · cases hb.symm.trans h
  · cases hw.symm.trans h
  · have hnow := hstep []
    rw [List.append_nil,List.append_nil,h] at hnow
    obtain ⟨j,hj,-⟩ := skip_done hnow.symm
    exact processTyped_root hj

theorem outcome_wait {k : ℕ} {r : ItemResult} {S : List ReadTask} (h : r.outcome = .wait k S) : r = .wait k S := by
  obtain ⟨j,hj,hk⟩ := skip_wait (n:=0) (by rwa [Incremental.Outcome.skip_zero])
  rw [hj,hk,Nat.zero_add]

theorem attempt_wait {S S' : List ReadTask} {p : Bytes} {k : ℕ} (h : attempt S p = .wait k S') :
    S' ≠ [] ∧ (p = [] → S' = S) := by
  cases S with
  | nil => cases h
  | cons cur rest =>
    by_cases htype : cur.type = none
    · cases p with
      | nil =>
        simp only [attempt,processItem,htype] at h
        cases h
        exact ⟨by simp,fun _ => rfl⟩
      | cons b p =>
        refine ⟨?_,nofun⟩
        cases hb : replyType b with
        | none =>
          simp only [attempt,processItem,htype,hb] at h
          cases h
        | some t =>
          rw [attempt_untyped htype hb] at h
          obtain ⟨j,hj,-⟩ := skip_wait h
          obtain ⟨-,rfl⟩ := processTyped_settles.wait hj
          simp
    · rw [attempt_typed htype] at h
      obtain ⟨-,rfl⟩ := processTyped_settles.wait (outcome_wait h)
      exact ⟨by simp,fun _ => rfl⟩

theorem outcome_done {k : ℕ} {r : ItemResult} {S : List ReadTask} {o : Option RedisReply}
    (h : r.outcome = .done k S o) : r = .done k S o := by
  obtain ⟨j,hj,hk⟩ := skip_done (n:=0) (by rwa [Incremental.Outcome.skip_zero])
  rw [hj,hk,Nat.zero_add]

namespace RedisReader

/-- Behind a call that gave no error: the tasks that are open and the bytes that are not read. -/
structure Holds (r : RedisReader) (S : List ReadTask) (p : Bytes) : Prop where
  err : r.err = none
  reply : r.reply = none
  pos : r.pos < 1024 ∧ r.pos ≤ r.buf.length
  pending : r.buf.drop r.pos = p
  stack : r.rstack = S ∧ S ≠ [] ∨ r.rstack = [] ∧ S = [rootTask]

theorem processItems_take {fuel : ℕ} {r : RedisReader} (hne : r.rstack ≠ []) (hreply : r.reply = none)
    (hpos : r.pos ≤ r.buf.length) {S : List ReadTask} {p : Bytes} {o : Option RedisReply}
    (h : Incremental.take attempt fuel r.rstack (r.buf.drop r.pos) = some (S,p,o)) :
    ∃ pos, r.processItems fuel = some {r with pos, rstack := S, reply := o} ∧ r.buf.drop pos = p ∧
      pos ≤ r.buf.length ∧ (S = [] ↔ o ≠ none) := by
  induction fuel generalizing r with
  | zero =>
    obtain ⟨rfl,rfl,rfl⟩ : r.rstack = S ∧ r.buf.drop r.pos = p ∧ none = o := by simpa [Incremental.take] using h
    refine ⟨r.pos,?_,rfl,hpos,by simp [hne]⟩
    rw [processItems,← hreply]
  | succ fuel ih =>
    rw [Incremental.take] at h
    rw [processItems,if_neg hne]
    cases hitem : attempt r.rstack (r.buf.drop r.pos) with
    | wait k S' =>
      have hle := attempt_resumes.taken hitem
      rw [List.length_drop] at hle
      obtain ⟨rfl,rfl,rfl⟩ : S' = S ∧ (r.buf.drop r.pos).drop k = p ∧ none = o := by simpa [hitem] using h
      rw [outcome_wait hitem]
      refine ⟨r.pos+k,?_,by rw [List.drop_drop],by omega,by simp [(attempt_wait hitem).1]⟩
      dsimp only
      rw [← hreply]
    | done k S' o' =>
      have hle := (attempt_resumes.done hitem).2
      have hroot := attempt_root hitem
      rw [List.length_drop] at hle
      rw [outcome_done hitem]
      cases o' with
      | none =>
        have hrest : Incremental.take attempt fuel S' (r.buf.drop (r.pos+k)) = some (S,p,o) := by
          simpa [hitem,List.drop_drop] using h
        exact ih (r:={r with pos := r.pos+k, rstack := S', reply := none}) (by simpa using hroot) rfl
          (by dsimp only; omega) hrest
      | some v =>
        obtain ⟨rfl,rfl,rfl⟩ : S' = S ∧ (r.buf.drop r.pos).drop k = p ∧ some v = o := by simpa [hitem] using h
        obtain rfl : S' = [] := hroot.mpr (by simp)
        refine ⟨r.pos+k,?_,by rw [List.drop_drop],by omega,by simp⟩
        cases fuel <;> simp [processItems]
    | broken => simp [hitem] at h

theorem Holds.stack_ne {r : RedisReader} {S : List ReadTask} {p : Bytes} (h : r.Holds S p) : S ≠ [] := by
  rcases h.stack with ⟨-,hS⟩ | ⟨-,rfl⟩
  · exact hS
  · simp

theorem emit_holds {buf p : Bytes} {pos : ℕ} {S : List ReadTask} {o : Option RedisReply} (hpos : pos ≤ buf.length)
    (hlen : buf.length < 2147483648) (hp : buf.drop pos = p) (hroot : S = [] ↔ o ≠ none) :
    (emit ⟨none,buf,pos,S,o⟩).2 = o ∧ (emit ⟨none,buf,pos,S,o⟩).1.Holds (if S = [] then [rootTask] else S) p := by
  have hdrop : sdsrange buf (int32 pos) (-1) = p := by rw [int32_nat (by omega),sdsrange_drop hlen,hp]
  by_cases hS : S = []
  · subst hS
    by_cases hbig : pos ≥ 1024
    · simp only [emit,if_pos hbig,if_true]
      exact ⟨trivial,rfl,rfl,⟨by simp,by simp⟩,by simpa using hdrop,Or.inr ⟨rfl,rfl⟩⟩
    · simp only [emit,if_neg hbig,if_true]
      exact ⟨trivial,rfl,rfl,⟨by dsimp only; omega,hpos⟩,hp,Or.inr ⟨rfl,rfl⟩⟩
  · obtain rfl : o = none := by
      by_contra ho
      exact hS (hroot.mpr ho)
    by_cases hbig : pos ≥ 1024
    · simp only [emit,if_pos hbig,if_neg hS]
      exact ⟨trivial,rfl,rfl,⟨by simp,by simp⟩,by simpa using hdrop,Or.inl ⟨rfl,hS⟩⟩
    · simp only [emit,if_neg hbig,if_neg hS]
      exact ⟨trivial,rfl,rfl,⟨by dsimp only; omega,hpos⟩,hp,Or.inl ⟨rfl,hS⟩⟩

/-- One call gives what the attempts give, and the reader is as before it. -/
theorem Holds.getReply {r : RedisReader} {S S' : List ReadTask} {p p' : Bytes} {o : Option RedisReply} (h : r.Holds S p)
    (hlen : p.length+1024 ≤ 2147483648) (htake : Incremental.take attempt (p.length+1) S p = some (S',p',o)) :
    ∃ r', r.getReply = some (r',.ok o) ∧ r'.Holds (if S' = [] then [rootTask] else S') p' := by
  have hp := congrArg List.length h.pending
  rw [List.length_drop] at hp
  by_cases hbuf : r.buf = []
  · obtain rfl : p = [] := by rw [← h.pending,hbuf,List.drop_nil]
    have hsame : S' = S ∧ p' = [] ∧ o = none := by
      rw [Incremental.take] at htake
      cases hitem : attempt S [] with
      | wait k S'' =>
        have hS := (attempt_wait hitem).2 rfl
        obtain ⟨rfl,rfl,rfl⟩ : S'' = S' ∧ [] = p' ∧ none = o := by simpa [hitem] using htake
        exact ⟨hS,rfl,rfl⟩
      | done k S'' o' =>
        have hk := attempt_resumes.done hitem
        rw [List.length_nil] at hk
        omega
      | broken => simp [hitem] at htake
    obtain ⟨rfl,rfl,rfl⟩ := hsame
    refine ⟨r,by simp only [RedisReader.getReply,h.err,if_pos hbuf],?_⟩
    rwa [if_neg h.stack_ne]
  · obtain ⟨err,buf,pos₀,rstack,reply⟩ := r
    obtain ⟨rfl,rfl,⟨hsmall,hle₀⟩,hpending,hstack⟩ := h
    dsimp only at hsmall hle₀ hpending hstack hp hbuf
    have hready : (if rstack = [] then (⟨none,buf,pos₀,[rootTask],none⟩ : RedisReader) else ⟨none,buf,pos₀,rstack,none⟩) =
        ⟨none,buf,pos₀,S,none⟩ := by
      rcases hstack with ⟨rfl,hS⟩ | ⟨hnil,rfl⟩
      · rw [if_neg hS]
      · rw [if_pos hnil]
    have hne : S ≠ [] := by
      rcases hstack with ⟨-,hS⟩ | ⟨-,rfl⟩
      · exact hS
      · simp
    have htake' : Incremental.take attempt (buf.length-pos₀+1) S (buf.drop pos₀) = some (S',p',o) := by
      rw [hp,hpending]
      exact htake
    obtain ⟨pos,hitems,hdrop,hle,hroot⟩ := processItems_take (r:=⟨none,buf,pos₀,S,none⟩) hne rfl hle₀ htake'
    dsimp only at hdrop hle hitems
    obtain ⟨hreply,hholds⟩ := emit_holds hle (by omega) hdrop hroot
    refine ⟨_,?_,hholds⟩
    simp only [RedisReader.getReply,if_neg hbuf,hready,hitems,hreply]

theorem Holds.feed {r : RedisReader} {S : List ReadTask} {p : Bytes} (h : r.Holds S p) (chunk : Bytes) :
    (r.feed chunk).Holds S (p++chunk) where
  err := h.err
  reply := h.reply
  pos := ⟨h.pos.1,h.pos.2.trans (by simp [RedisReader.feed])⟩
  pending := by
    rw [RedisReader.feed,List.drop_append_of_le_length h.pos.2,h.pending]
  stack := h.stack

theorem redisReaderCreate_holds : redisReaderCreate.Holds [rootTask] [] :=
  ⟨rfl,rfl,⟨by decide,le_rfl⟩,rfl,Or.inr ⟨rfl,rfl⟩⟩

theorem Holds.getReply_full {r : RedisReader} {S : List ReadTask} {x t : Bytes} {v : RedisReply} (h : r.Holds S (x++t))
    (hreads : Incremental.Reads attempt S x [] (some v)) (hlen : (x++t).length+1024 < 2147483648) :
    ∃ r', r.getReply = some (r',.ok (some v)) ∧ r'.Holds [rootTask] t := by
  have htake := hreads.take rfl attempt_resumes (t:=t) (by omega)
    (show x.length ≤ (x++t).length+1 by rw [List.length_append]; omega)
  obtain ⟨r',hget,hr'⟩ := h.getReply (by omega) htake
  exact ⟨r',hget,by simpa using hr'⟩

theorem Holds.getReply_cut {r : RedisReader} {S : List ReadTask} {p q : Bytes} {v : RedisReply} (h : r.Holds S p)
    (hreads : Incremental.Reads attempt S (p++q) [] (some v)) (hq : q ≠ []) (hlen : (p++q).length+1024 < 2147483648) :
    ∃ r' S' p', r.getReply = some (r',.ok none) ∧ r'.Holds S' p' ∧ p'.length ≤ p.length ∧
      Incremental.Reads attempt S' (p'++q) [] (some v) := by
  obtain ⟨S',p',htake,hle,hrest⟩ := hreads.cut rfl attempt_resumes (by omega) rfl hq (Nat.lt_succ_self p.length)
  rw [List.length_append] at hlen
  obtain ⟨r',hget,hr'⟩ := h.getReply (by omega) htake
  have hne : S' ≠ [] := by
    rintro rfl
    generalize p'++q = x at hrest
    cases hrest with
    | last h => cases h
    | more h => cases h
  rw [if_neg hne] at hr'
  exact ⟨r',S',p',hget,hr',hle,hrest⟩

/-- `redisGetReply` gives a value once its bytes have arrived, and what is behind them stays. -/
theorem Holds.redisGetReply {S : List ReadTask} {x : Bytes} {v : RedisReply} {chunks : List Bytes} {r : RedisReader}
    {p t : Bytes} (h : r.Holds S p) (hreads : Incremental.Reads attempt S x [] (some v))
    (hin : p++chunks.flatten = x++t) (hchunks : ∀ c ∈ chunks, c.length ≤ 16384) (hp : p.length ≤ x.length+16384)
    (hlen : x.length+17408 < 2147483648) :
    ∃ r' p' chunks', Tadpole.redisGetReply r chunks = some (r',chunks',.ok (some v)) ∧ r'.Holds [rootTask] p' ∧
      p'++chunks'.flatten = t ∧ p'.length ≤ 16384 ∧ ∀ c ∈ chunks', c ∈ chunks := by
  induction chunks generalizing r S x p with
  | nil =>
    obtain rfl : p = x++t := by simpa using hin
    obtain ⟨r',hget,hr'⟩ := h.getReply_full hreads (by omega)
    rw [List.length_append] at hp
    exact ⟨r',t,[],by rw [Tadpole.redisGetReply,hget]; rfl,hr',by simp,by omega,by simp⟩
  | cons c cs ih =>
    by_cases hfull : x.length ≤ p.length
    · obtain ⟨t',rfl⟩ : x <+: p := List.prefix_of_prefix_length_le ⟨t,hin.symm⟩ ⟨_,rfl⟩ hfull
      obtain ⟨r',hget,hr'⟩ := h.getReply_full hreads (by omega)
      rw [List.length_append] at hp
      refine ⟨r',t',c::cs,by rw [Tadpole.redisGetReply,hget],hr',?_,by omega,fun _ hc => hc⟩
      rwa [List.append_assoc,List.append_right_inj] at hin
    · obtain ⟨q,rfl⟩ : p <+: x := List.prefix_of_prefix_length_le ⟨_,hin⟩ ⟨t,rfl⟩ (by omega)
      have hq : q ≠ [] := by
        rintro rfl
        simp at hfull
      obtain ⟨r₁,S₁,p₁,hget,hr₁,hle,hrest⟩ := h.getReply_cut hreads hq (by omega)
      have hc := hchunks c (by simp)
      have hin' : (p₁++c)++cs.flatten = (p₁++q)++t := by
        rw [List.append_assoc,List.append_right_inj,List.flatten_cons] at hin
        rw [List.append_assoc,List.append_assoc,hin]
      simp only [List.length_append] at hlen
      obtain ⟨r',p',chunks',hreply,hr',hrest',hm,hmem⟩ := ih (hr₁.feed c) hrest hin' (fun c hc => hchunks c (by simp [hc]))
        (by simp only [List.length_append]; omega) (by simp only [List.length_append]; omega)
      exact ⟨r',p',chunks',by rw [Tadpole.redisGetReply,hget]; exact hreply,hr',hrest',hm,fun c hc => by simp [hmem c hc]⟩

end RedisReader

/-- So many calls of `redisGetReply`: the reader and the reads behind them, and the replies they give. -/
def getReplies : ℕ → RedisReader → List Bytes → Option (RedisReader × List Bytes × List RedisReply)
  | 0, r, chunks => some (r,chunks,[])
  | n+1, r, chunks =>
    match redisGetReply r chunks with
    | some (r,chunks,.ok (some v)) => (getReplies n r chunks).map fun a => (a.1,a.2.1,v::a.2.2)
    | _ => none

theorem RedisReader.Holds.getReplies {vs : List RedisReply} {r : RedisReader} {p t : Bytes} {chunks : List Bytes}
    (h : r.Holds [rootTask] p) (hfits : AllFit 8 vs) (hlen : ∀ v ∈ vs, v.encode.length+17408 < 2147483648)
    (hin : p++chunks.flatten = encodeAll vs++t) (hchunks : ∀ c ∈ chunks, c.length ≤ 16384) (hp : p.length ≤ 16384) :
    ∃ r' p' chunks', Tadpole.getReplies vs.length r chunks = some (r',chunks',vs) ∧ r'.Holds [rootTask] p' ∧
      p'++chunks'.flatten = t := by
  induction vs generalizing r p chunks with
  | nil => exact ⟨r,p,chunks,rfl,h,hin⟩
  | cons v vs ih =>
    obtain ⟨hv,hvs⟩ := hfits
    obtain ⟨hlv,hlvs⟩ := List.forall_mem_cons.mp hlen
    have hreads : Incremental.Reads attempt [rootTask] v.encode [] (some v) := v.reads rfl hv (by simp) (by omega) rfl
    rw [encodeAll,List.append_assoc] at hin
    obtain ⟨r₁,p₁,chunks₁,hreply,hr₁,hrest,hp₁,hmem⟩ := h.redisGetReply hreads hin hchunks (by omega) hlv
    obtain ⟨r',p',chunks',hreplies,hr',hend⟩ := ih hr₁ hvs hlvs hrest (fun c hc => hchunks c (hmem c hc)) hp₁
    refine ⟨r',p',chunks',?_,hr',hend⟩
    rw [List.length_cons,Tadpole.getReplies,hreply]
    dsimp only
    rw [hreplies]
    rfl

/-- Encoded replies, nested up to eight arrays deep, come back one call after the other, however their bytes are cut
into reads of at most 16384 bytes. Behind the last of them the reader has no array open and no byte unread, and no read
is left that brings any. -/
theorem replies_come_back (vs : List RedisReply) (hfits : AllFit 8 vs)
    (hlen : ∀ v ∈ vs, v.encode.length+17408 < 2147483648) (chunks : List Bytes) (hin : chunks.flatten = encodeAll vs)
    (hchunks : ∀ c ∈ chunks, c.length ≤ 16384) :
    ∃ r chunks', getReplies vs.length redisReaderCreate chunks = some (r,chunks',vs) ∧
      r.Holds [RedisReader.rootTask] [] ∧ chunks'.flatten = [] := by
  obtain ⟨r,p,chunks',hreplies,hr,hend⟩ := RedisReader.redisReaderCreate_holds.getReplies (t:=[]) hfits hlen
    (by simpa using hin) hchunks (by simp)
  obtain ⟨rfl,hrest⟩ := List.append_eq_nil_iff.mp hend
  exact ⟨r,chunks',hreplies,hr,hrest⟩

/-- An array and a string behind it, cut inside a number and inside of a line end. -/
theorem replies_come_back_two : ∃ r chunks',
    getReplies 2 redisReaderCreate [str "*2\r\n:-",str "5\r",str "\n$-1\r\n$",str "1\r\na\r\n"] =
      some (r,chunks',[.array 2 [.integer (-5),.nil],.string (str "a")]) ∧
      r.Holds [RedisReader.rootTask] [] ∧ chunks'.flatten = [] :=
  replies_come_back [.array 2 [.integer (-5),.nil],.string (str "a")]
    (by simp [AllFit,RedisReply.Fits])
    (by decide +kernel) _ (by decide +kernel) (by decide +kernel)

end Tadpole
