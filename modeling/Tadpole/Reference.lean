import Tadpole.Commands
import Tadpole.SignalSave

/-! The purpose of the fixed-length store: one ordered map, its answer to every call, and when the
bytes of a reply say that answer. -/
namespace Tadpole

inductive Reply
  | bulk (v : Bytes)
  | nil
  | status (s : Bytes)
  | error
  deriving DecidableEq

/-- The reply on the wire. The text of an error is free but ends no line. -/
def Reply.Matches (out : Bytes) : Reply → Prop
  | bulk v => out = str "$"++Decimal.encode v.length++CRLF++v++CRLF
  | nil => out = NULLBULK
  | status s => out = str "+"++s++CRLF
  | error => ∃ t, out = str "-ERR "++t++CRLF ∧ CR ∉ t ∧ LF ∉ t

/-- The handler passes the payload of the reply to the client in the pieces of `o`. -/
inductive Sends : Output → Reply → Prop
  | bulk {v b} : convertToResp v = some b → Sends [.addReply b] (.bulk v)
  | nil : Sends [.addReply NULLBULK] .nil
  | literal (t) : Sends [.addReply (str "+"++t++CRLF)] (.status t)
  | line (s) : Sends (statusLine s) (.status s)
  | error (pieces) : Sends (addReplyErrorFormat pieces) .error

def infoText (M : KeyMap) : Bytes :=
  str "tadpole:keys="++Decimal.encode M.size++str ",min="++M.least.getD (str "NULL")++
    str ",max="++M.greatest.getD (str "NULL")

def joinLines (l : List Bytes) : Bytes := [LF].intercalate l

/-- The reference: what the call does to the map and what it answers. -/
def refStep (fl : FixedLength) (M : KeyMap) : Call → KeyMap × Reply
  | .get key =>
    if key.length ≠ fl.keyLen then (M,.error)
    else (M,(M.lookup key).elim .nil .bulk)
  | .put key value =>
    if key.length ≠ fl.keyLen ∨ value.length ≠ fl.valLen then (M,.error)
    else (M.insert key value,.status (str "OK"))
  | .delete key =>
    if key.length ≠ fl.keyLen then (M,.error)
    else if key ∈ M.keys then (M.erase key,.status (str "1"))
    else (M,.status (str "0"))
  | .scan start stop =>
    if start.length ≠ fl.keyLen ∨ stop.length ≠ fl.keyLen then (M,.error)
    else if stop < start then (M,.error)
    else (M,.status (joinLines (M.range start stop)))
  | .info => (M,.status (infoText M))

/-- The text of SHOW as the code makes it from its counter. -/
def counterText (n : ℤ) (M : KeyMap) : Bytes :=
  str "tadpole:keys="++sdsll2str n++
    str ",min="++(if n = 0 then str "NULL" else M.least.getD (str "NULL"))++
    str ",max="++(if n = 0 then str "NULL" else M.greatest.getD (str "NULL"))

/-- What the handlers answer on a store that holds `M`: the reference, but for the `int` counter. -/
def codeReply (fl : FixedLength) (M : KeyMap) : Call → Reply
  | .info => .status (counterText (int32 M.size) M)
  | c => (refStep fl M c).2

/-- The bytes `scanCommand` gathers: each key with a line end. -/
def scanSize (M : KeyMap) (start stop : Bytes) : ℕ :=
  ((M.range start stop).map fun k => k.length+1).sum

/-- The lines of an accepted SCAN fit the `int` write position. -/
def ScanFits (fl : FixedLength) (M : KeyMap) : Call → Prop
  | .scan start stop =>
    start.length = fl.keyLen → stop.length = fl.keyLen → scanSize M start stop < 2147483648
  | _ => True

/-- The `int`s of the two replies that grow with the store hold what they count: the write position
of SCAN and the number of keys of SHOW. -/
def Fits (fl : FixedLength) (M : KeyMap) (c : Call) : Prop :=
  ScanFits fl M c ∧ (c = .info → M.size < 2147483648)

/-- 512 MB, the longest argument the parser lets through. -/
abbrev MAX_ARG : ℕ := 512*1024*1024

def Call.args : Call → List Bytes
  | get key => [key]
  | put key value => [key,value]
  | delete key => [key]
  | scan start stop => [start,stop]
  | info => []

def Call.ArgsOk (c : Call) : Prop := ∀ a ∈ c.args, a.length ≤ MAX_ARG

def refRun (fl : FixedLength) (M : KeyMap) : List Call → List (KeyMap × Reply)
  | [] => []
  | c::cs => refStep fl M c::refRun fl (refStep fl M c).1 cs

def FitsRun (fl : FixedLength) (M : KeyMap) : List Call → Prop
  | [] => True
  | c::cs => Fits fl M c ∧ FitsRun fl (refStep fl M c).1 cs

/-- The server after each call and the bytes it answered. -/
def runCalls (s : Server) : List (Call × Level) → Option (List (Server × Bytes))
  | [] => some []
  | (c,level)::cs => do
    let (s,out) ← c.run s ⟨level,true⟩
    let rest ← runCalls s cs
    some ((s,out.bytes)::rest)

/-- The server holds the map, in the dict and on the bottom chain, and answered as the map does. -/
def Agrees (a : Server × Bytes) (r : KeyMap × Reply) : Prop :=
  r.2.Matches a.2 ∧ a.1.dict = r.1.keys ∧ a.1.mem.pairs = some r.1.entries

/-- The run from the empty store agrees with the reference at every call. -/
def RunAgrees (fl : FixedLength) (cs : List (Call × Level)) : Prop :=
  ∃ l, runCalls (initServer (some fl)) cs = some l ∧
    List.Forall₂ Agrees l (refRun fl OrderedMap.empty (cs.map Prod.fst))

theorem mem_sanitize {s : Bytes} {b : UInt8} (h : b ∈ sanitize s) : b ≠ CR ∧ b ≠ LF := by
  obtain ⟨c,-,rfl⟩ := List.mem_map.mp h
  split_ifs with hc
  · decide
  · tauto

theorem encode_length_le {n : ℕ} (h : n < 10000000000) : (Decimal.encode n).length ≤ 10 := by
  have key : ∀ k n, n < 10^(k+1) → (Decimal.encode n).length ≤ k+1 := by
    intro k
    induction k with
    | zero => intro n hn; simp [Decimal.encode_lt (by simpa using hn)]
    | succ k ih =>
      intro n hn
      by_cases h10 : n < 10
      · simp [Decimal.encode_lt h10]
      · have hd := ih (n/10) (by rw [Nat.div_lt_iff_lt_mul (by decide),← pow_succ]; exact hn)
        rw [Decimal.encode_ge (not_lt.mp h10),List.length_append,List.length_singleton]
        omega
  exact key 9 n h

theorem convertToResp_eq {v : Bytes} (h : v.length ≤ MAX_ARG) :
    convertToResp v = some (str "$"++Decimal.encode v.length++CRLF++v++CRLF) := by
  have hlen : v.length ≤ 536870912 := h
  have hi : int32 v.length = (v.length : ℤ) := int32_nat (by omega)
  have he := encode_length_le (n:=v.length) (by omega)
  have hs : (str "$").length = 1 := rfl
  rw [convertToResp,sdscatfmt,if_pos]
  · simp [hi]
  · simp only [hi,sdsll2str_nat,List.nil_append,List.flatten_cons,List.flatten_nil,List.length_append,
      List.length_cons,List.length_nil,hs]
    omega

theorem Sends.matches {o : Output} {r : Reply} (h : Sends o r) : r.Matches o.bytes := by
  cases h with
  | @bulk v b hb =>
    obtain ⟨rfl,hlt⟩ := sdscatfmt_eq hb
    have hv : v.length < 2147483648 := by
      refine lt_of_le_of_lt ?_ hlt
      simp only [List.nil_append,List.flatten_cons,List.flatten_nil,List.length_append]
      omega
    simp [Reply.Matches,Output.bytes,Out.bytes,int32_nat hv]
  | nil => simp [Reply.Matches,Output.bytes,Out.bytes]
  | literal t => simp [Reply.Matches,Output.bytes,Out.bytes]
  | line s => simp [Reply.Matches,Output.bytes,Out.bytes,statusLine]
  | error pieces =>
    refine ⟨sanitize pieces.flatten,?_,fun h => (mem_sanitize h).1 rfl,
      fun h => (mem_sanitize h).2 rfl⟩
    simp [Output.bytes,addReplyErrorFormat,addReplyErrorLength,Out.bytes]

theorem flatten_lines_length (l : List Bytes) :
    (l.map (·++[LF])).flatten.length = (l.map fun k => k.length+1).sum := by
  induction l with
  | nil => rfl
  | cons k l ih =>
    simp only [List.map_cons,List.flatten_cons,List.length_append,List.sum_cons,ih,List.length_cons,
      List.length_nil]

theorem dropLast_lines (l : List Bytes) :
    (l.map (·++[LF])).flatten.dropLast = joinLines l := by
  induction l with
  | nil => rfl
  | cons k l ih =>
    cases l with
    | nil => simp [joinLines,List.intercalate]
    | cons k' l =>
      have hne : (((k'::l).map (·++[LF])).flatten) ≠ [] := by simp
      rw [List.map_cons,List.flatten_cons,List.dropLast_append_of_ne_nil hne,ih]
      simp [joinLines,List.intercalate]

end Tadpole
