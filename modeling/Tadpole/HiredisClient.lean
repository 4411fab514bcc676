import Tadpole.Framer
import Tadpole.HiredisReader
import Tadpole.Store

/-! The calls of the bundled client that send commands and wait for replies. A command is laid out in a block whose
size is counted beforehand; written is what the socket takes. -/
namespace Tadpole

/-- The loop of `intlen`, which counts the digits of a number. -/
def countDigits : ℕ → ℕ → ℕ
  | 0, _ => 0
  | fuel+1, i => if i/10 = 0 then 1 else countDigits fuel (i/10)+1

/-- `intlen`, of an `int` that is not the least. -/
def intlen (i : ℤ) : ℕ := (if i < 0 then 1 else 0)+countDigits (i.natAbs+1) i.natAbs

def bulklen (len : ℕ) : ℕ := 1+intlen (int32 len)+2+len+2

/-- The size that `redisFormatCommandArgv` counts, an `int`. -/
def commandLen (argv : List Bytes) : ℤ :=
  argv.foldl (fun totlen arg => int32 (totlen+bulklen arg.length)) (int32 (1+intlen argv.length+2))

def layOut (argv : List Bytes) : Bytes :=
  argv.foldl (fun cmd arg => cmd++(str "$"++Decimal.encode arg.length++CRLF)++arg++CRLF)
    (str "*"++sdsll2str argv.length++CRLF)

/-- `redisFormatCommandArgv`; without a block there is no command. Bytes behind the block are undefined, and the assertion
fails when it is not filled. -/
def redisFormatCommandArgv (argv : List Bytes) (malloc : Bool) : Option (Option Bytes) :=
  if malloc then if (layOut argv).length = commandLen argv then some (some (layOut argv)) else none
  else some none

inductive ErrorType
  | io | eof | protocol | oom
  deriving DecidableEq

/-- `redisContext`, of a blocking connection. -/
structure RedisContext where
  err : Option (ErrorType × Bytes)
  obuf : Bytes
  reader : RedisReader

/-- What `read` and `write` give: a result, EINTR, or another error and its text. -/
inductive IoResult (α : Type)
  | done (a : α)
  | interrupted
  | failed (strerror : Bytes)

/-- The most that one `write` takes. -/
def MAX_RW_COUNT : ℕ := 2147479552

/-- How much of the bytes a `write` takes that could take `n`. -/
def taken (n : ℕ) (buf : Bytes) : ℕ := min n (min buf.length MAX_RW_COUNT)

def redisContextInit : RedisContext := ⟨none,[],redisReaderCreate⟩

namespace RedisContext

/-- `__redisSetError`. -/
def setError (c : RedisContext) (type : ErrorType) (errstr : Bytes) : RedisContext :=
  {c with err := some (type,errstr.take 127)}

/-- `redisAppendCommandArgv`, and whether it succeeds. -/
def redisAppendCommandArgv (c : RedisContext) (argv : List Bytes) (malloc : Bool) : Option (RedisContext × Bool) :=
  match redisFormatCommandArgv argv malloc with
  | none => none
  | some none => some (c.setError .oom (str "Out of memory"),false)
  | some (some cmd) => some ({c with obuf := c.obuf++cmd},true)

/-- What is left of the output buffer behind `nwritten` bytes. -/
def written (c : RedisContext) (nwritten : ℤ) : RedisContext :=
  if nwritten > 0 then
    if nwritten = int32 c.obuf.length then {c with obuf := []} else {c with obuf := Tadpole.sdsrange c.obuf nwritten (-1)}
  else c

/-- `redisBufferWrite`, with `*done`; `none` is REDIS_ERR. -/
def redisBufferWrite (c : RedisContext) (r : IoResult ℕ) : RedisContext × Option Bool :=
  if c.err ≠ none then (c,none)
  else if c.obuf.length > 0 then
    match r with
    | .done n =>
      let c := c.written (int32 (taken n c.obuf))
      (c,some (c.obuf.length = 0))
    | .interrupted => (c,some false)
    | .failed strerror => (c.setError .io strerror,none)
  else (c,some true)

/-- `redisBufferRead`, and whether it succeeds; no bytes are the end of the stream. -/
def redisBufferRead (c : RedisContext) (r : IoResult Bytes) : RedisContext × Bool :=
  if c.err ≠ none then (c,false)
  else
    match r with
    | .done chunk =>
      if chunk = [] then (c.setError .eof (str "Server closed the connection"),false)
      else
        match c.reader.err with
        | some errstr => (c.setError .protocol errstr,false)
        | none => ({c with reader := c.reader.feed chunk},true)
    | .interrupted => (c,true)
    | .failed strerror => (c.setError .io strerror,false)

/-- `redisGetReplyFromReader`; the inner `none` is REDIS_ERR. -/
def redisGetReplyFromReader (c : RedisContext) : Option (RedisContext × Option (Option RedisReply)) :=
  match c.reader.getReply with
  | none => none
  | some (reader,.error errstr) => some (setError {c with reader} .protocol errstr,none)
  | some (reader,.ok reply) => some ({c with reader},some reply)

end RedisContext

theorem countDigits_eq {fuel i : ℕ} (h : i < fuel) : countDigits fuel i = (Decimal.encode i).length := by
  induction fuel generalizing i with
  | zero => omega
  | succ fuel ih =>
    rw [countDigits]
    split_ifs with h10
    · rw [Decimal.encode_lt (by omega),List.length_singleton]
    · rw [ih (by omega),Decimal.encode_ge (v:=i) (by omega),List.length_append,List.length_singleton]

theorem intlen_nat (n : ℕ) : intlen n = (Decimal.encode n).length := by
  rw [intlen,if_neg (by omega),Nat.zero_add,Int.natAbs_natCast,countDigits_eq (Nat.lt_succ_self n)]

theorem layOut_eq (argv : List Bytes) : layOut argv = encodeRequest argv := by
  have hall : ∀ (args : List Bytes) cmd, args.foldl (fun cmd arg =>
      cmd++(str "$"++Decimal.encode arg.length++CRLF)++arg++CRLF) cmd = cmd++args.flatMap encodeArg := by
    intro args
    induction args with
    | nil => simp
    | cons a args ih =>
      intro cmd
      rw [List.foldl_cons,ih,List.flatMap_cons,encodeArg]
      simp only [List.append_assoc]
  rw [layOut,hall,encodeRequest,sdsll2str_nat]

theorem encodeArg_length {a : Bytes} (h : a.length < 2147483648) : (encodeArg a).length = bulklen a.length := by
  rw [bulklen,int32_nat h,intlen_nat,encodeArg]
  simp only [List.length_append,show (str "$").length = 1 by rfl,show CRLF.length = 2 by rfl]

theorem commandLen_eq {argv : List Bytes} (h : (encodeRequest argv).length < 2147483648) :
    commandLen argv = (encodeRequest argv).length := by
  have hall : ∀ (args : List Bytes) (n : ℕ), n+(args.flatMap encodeArg).length < 2147483648 →
      args.foldl (fun totlen arg => int32 (totlen+bulklen arg.length)) (n : ℤ) =
        (n+(args.flatMap encodeArg).length : ℕ) := by
    intro args
    induction args with
    | nil => intro n _; simp
    | cons a args ih =>
      intro n hn
      rw [List.flatMap_cons,List.length_append] at hn
      have ha : a.length < 2147483648 := by
        have : a.length ≤ (encodeArg a).length := by simp [encodeArg]; omega
        omega
      rw [encodeArg_length ha] at hn
      have hstep : int32 ((n : ℤ)+bulklen a.length) = ((n+bulklen a.length : ℕ) : ℤ) := by
        rw [← Nat.cast_add]
        exact int32_nat (by omega)
      rw [List.foldl_cons,hstep,ih _ (by omega),List.flatMap_cons,List.length_append,encodeArg_length ha]
      congr 1
      omega
  have hhead : (encodeRequest argv).length = 1+intlen argv.length+2+(argv.flatMap encodeArg).length := by
    rw [encodeRequest,intlen_nat]
    simp only [List.length_append,show (str "*").length = 1 by rfl,show CRLF.length = 2 by rfl]
  rw [hhead] at h
  have hstart : int32 (1+(intlen argv.length : ℤ)+2) = ((1+intlen argv.length+2 : ℕ) : ℤ) := by
    rw [show 1+(intlen argv.length : ℤ)+2 = ((1+intlen argv.length+2 : ℕ) : ℤ) by push_cast; rfl]
    exact int32_nat (by omega)
  rw [commandLen,hstart,hall _ _ h,hhead]

theorem commandLen_lt (argv : List Bytes) : commandLen argv < 2147483648 := by
  have hall : ∀ (args : List Bytes) (n : ℤ), n < 2147483648 →
      args.foldl (fun totlen arg => int32 (totlen+bulklen arg.length)) n < 2147483648 := by
    intro args
    induction args with
    | nil => exact fun n hn => hn
    | cons a args ih => exact fun n _ => ih _ (int32_lt _)
  exact hall argv _ (int32_lt _)

/-- Exactly the commands whose size is an `int` are laid out, as the requests they are. -/
theorem redisFormatCommandArgv_eq (argv : List Bytes) : redisFormatCommandArgv argv true =
    if (encodeRequest argv).length < 2147483648 then some (some (encodeRequest argv)) else none := by
  rw [redisFormatCommandArgv,if_pos rfl,layOut_eq]
  split_ifs with heq hlen hlen
  · rfl
  · have := commandLen_lt argv
    omega
  · exact absurd (commandLen_eq hlen).symm heq
  · rfl

end Tadpole
