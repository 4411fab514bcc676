import Tadpole.Commands

/-! The request parser of db.c: how the query buffer of a client becomes argument vectors. What the
parser hands over is taken care of by a parameter that stands for `processCommand`. -/
namespace Tadpole

abbrev PROTO_IOBUF_LEN : ℕ := 1024*16
abbrev PROTO_INLINE_MAX_SIZE : ℕ := 1024*64
abbrev PROTO_MBULK_BIG_ARG : ℕ := 1024*32
abbrev MAX_MULTIBULK : ℤ := 1024*1024

/-- `sizeof(size_t)`, in front of what zmalloc.c allocates: on Linux, which the Makefile asks for, `HAVE_MALLOC_SIZE`
is not defined. -/
abbrev PREFIX_SIZE : ℕ := 8

inductive ReqType
  | unknown | inline | multibulk
  deriving DecidableEq

/-- The fields of a client the parser uses; `argv` has the first `argc` slots. -/
structure Client where
  querybuf : Bytes
  reqtype : ReqType
  multibulklen : ℕ
  bulklen : ℤ
  argv : List Bytes
  deriving DecidableEq

def createClient : Client := ⟨[],.unknown,0,-1,[]⟩

def resetClient (c : Client) : Client := ⟨c.querybuf,.unknown,0,-1,[]⟩

/-- What a parsing function returns: `SERVER_OK`, or `SERVER_ERR` with or without a line in the log;
or an assertion of it fails; or libc ends the process for a pointer that it cannot free. -/
inductive Parsed
  | ok (c : Client)
  | err (log : Option Bytes) (c : Client)
  | abort
  | badFree (c : Client)
  deriving DecidableEq

/-- `zfree(argv); return SERVER_OK;` for a vector of `sdssplitargs`. sds.c is compiled with hiredis/zmalloc.h, where
`zmalloc` is libc's `malloc`, and `zfree` of zmalloc.c frees what is `PREFIX_SIZE` bytes in front of the pointer. -/
def zfreeSplit (c : Client) : Parsed := if PREFIX_SIZE = 0 then .ok c else .badFree c

theorem zfreeSplit_eq (c : Client) : zfreeSplit c = .badFree c := rfl

/-- `processInlineBuffer`. The skipped line end is taken to be two bytes even where it is one. -/
def processInlineBuffer (c : Client) : Parsed :=
  match strchr LF c.querybuf with
  | none => .err none c
  | some n =>
    let querylen := if n ≠ 0 ∧ c.querybuf[n-1]? = some CR then n-1 else n
    match sdssplitargs (c.querybuf.take querylen) with
    | none => .err none c
    | some argv =>
      zfreeSplit {c with
        querybuf := sdsrange c.querybuf (int32 (querylen+2)) (-1)
        argv := argv.filter fun a => a ≠ []}

/-- `if (pos) sdsrange(c->querybuf,pos,-1);` -/
def Client.trim (c : Client) (pos : ℤ) : Client :=
  if pos = 0 then c else {c with querybuf := sdsrange c.querybuf pos (-1)}

/-- What the part of the loop that reads a bulk length comes to: the length is known, more bytes
are needed, or the function returns. -/
inductive Header
  | known (c : Client) (pos : ℤ)
  | more
  | error (log : Bytes)

/-- The bulk length in a header line, when it is accepted. -/
def bulkLength (digits : Bytes) : Option ℕ :=
  match string2ll digits with
  | none => none
  | some ll => if ll < 0 ∨ ll > 512*1024*1024 then none else some ll.toNat

/-- The part of the loop that reads the bulk length if it is unknown. -/
def readHeader (c : Client) (pos : ℤ) : Header :=
  if c.bulklen ≠ -1 then .known c pos
  else
    let line := c.querybuf.drop pos.toNat
    match strchr CR line with
    | none =>
      if c.querybuf.length > PROTO_INLINE_MAX_SIZE then
        .error (str "Protocol error: too big bulk count string")
      else .more
    | some n =>
      if pos+n > int32 (int32 c.querybuf.length-2) then .more
      else if line.head? ≠ some 36 then
        .error (str "Protocol error: Protocol error: expected '$', got '"++line.head?.toList++str "'")
      else
        match bulkLength ((line.drop 1).take (n-1)) with
        | none => .error (str "Protocol error: invalid bulk length")
        | some ll =>
          if ll ≥ PROTO_MBULK_BIG_ARG then
            .known {c with querybuf := sdsrange c.querybuf (int32 (pos+n+2)) (-1), bulklen := ll} 0
          else .known {c with bulklen := ll} (int32 (pos+n+2))

/-- `while (c->multibulklen)`, with as many rounds to go. An error returns without trimming the
buffer; an offset outside of it is undefined behaviour. -/
def bulkLoop : ℕ → Client → ℤ → Option Parsed
  | 0, c, pos => some (.ok (c.trim pos))
  | n+1, c, pos =>
    if pos < 0 ∨ c.querybuf.length < pos then none
    else
      match readHeader c pos with
      | .error log => some (.err (some log) c)
      | .more => some (.err none (c.trim pos))
      | .known c pos =>
        if pos < 0 ∨ c.querybuf.length < pos then none
        else if c.querybuf.length-pos < (c.bulklen+2)%4294967296 then some (.err none (c.trim pos))
        else if pos = 0 ∧ c.bulklen ≥ PROTO_MBULK_BIG_ARG ∧ int32 c.querybuf.length = c.bulklen+2 then
          -- the buffer as a whole becomes the argument, its line end included
          bulkLoop n ⟨[],c.reqtype,n,-1,c.argv++[c.querybuf]⟩ 0
        else
          let arg := (c.querybuf.drop pos.toNat).take c.bulklen.toNat
          bulkLoop n ⟨c.querybuf,c.reqtype,n,-1,c.argv++[arg]⟩ (int32 (pos+c.bulklen+2))

/-- The loop behind `assert(c->multibulklen > 0)`. -/
def enterLoop (c : Client) (pos : ℤ) : Option Parsed :=
  if c.multibulklen = 0 then some .abort else bulkLoop c.multibulklen c pos

def processMultibulkBuffer (c : Client) : Option Parsed :=
  if c.multibulklen = 0 then
    if c.argv ≠ [] then some .abort
    else
      match strchr CR c.querybuf with
      | none => some (.err none c)
      | some n =>
        if n > int32 (int32 c.querybuf.length-2) then some (.err none c)
        else if c.querybuf.head? ≠ some 42 then some .abort
        else
          match string2ll ((c.querybuf.drop 1).take (n-1)) with
          | none => some (.err (some (str "Protocol error: invalid multibulk length")) c)
          | some ll =>
            if ll > MAX_MULTIBULK then
              some (.err (some (str "Protocol error: invalid multibulk length")) c)
            else if ll ≤ 0 then
              some (.ok {c with querybuf := sdsrange c.querybuf (int32 (n+2)) (-1)})
            else enterLoop {c with multibulklen := ll.toNat} (int32 (n+2))
  else enterLoop c 0

/-- A count line is there that is accepted. -/
structure CountLine (c : Client) (n : ℕ) (ll : ℤ) : Prop where
  closed : c.multibulklen = 0
  reset : c.argv = []
  cr : strchr CR c.querybuf = some n
  whole : ¬ (n : ℤ) > int32 (int32 c.querybuf.length-2)
  star : c.querybuf.head? = some 42
  number : string2ll ((c.querybuf.drop 1).take (n-1)) = some ll
  limit : ¬ ll > MAX_MULTIBULK

/-- What `processMultibulkBuffer` comes to: an assertion fails, the count line is waited for or rejected, it
announces no argument, or the loop is entered. -/
inductive MultibulkCases (c : Client) : Option Parsed → Prop
  | notReset : c.multibulklen = 0 → c.argv ≠ [] → MultibulkCases c (some .abort)
  | waits (log : Option Bytes) : c.multibulklen = 0 → c.argv = [] → MultibulkCases c (some (.err log c))
  | noStar : c.multibulklen = 0 → c.querybuf.head? ≠ some 42 → MultibulkCases c (some .abort)
  | blank {n : ℕ} {ll : ℤ} : CountLine c n ll → ll ≤ 0 →
      MultibulkCases c (some (.ok {c with querybuf := sdsrange c.querybuf (int32 (n+2)) (-1)}))
  | counted {n : ℕ} {ll : ℤ} : CountLine c n ll → 0 < ll →
      MultibulkCases c (bulkLoop ll.toNat {c with multibulklen := ll.toNat} (int32 (n+2)))
  | resumed : c.multibulklen ≠ 0 → MultibulkCases c (bulkLoop c.multibulklen c 0)

theorem processMultibulkBuffer_cases (c : Client) : MultibulkCases c (processMultibulkBuffer c) := by
  rw [processMultibulkBuffer]
  by_cases h0 : c.multibulklen = 0
  · rw [if_pos h0]
    by_cases hargv : c.argv ≠ []
    · rw [if_pos hargv]
      exact .notReset h0 hargv
    rw [if_neg hargv]
    rw [not_not] at hargv
    cases hcr : strchr CR c.querybuf with
    | none => exact .waits none h0 hargv
    | some n =>
      dsimp only
      by_cases hfar : (n : ℤ) > int32 (int32 c.querybuf.length-2)
      · rw [if_pos hfar]
        exact .waits none h0 hargv
      rw [if_neg hfar]
      by_cases hstar : c.querybuf.head? ≠ some 42
      · rw [if_pos hstar]
        exact .noStar h0 hstar
      rw [if_neg hstar]
      cases hll : string2ll ((c.querybuf.drop 1).take (n-1)) with
      | none => exact .waits _ h0 hargv
      | some ll =>
        dsimp only
        by_cases hmax : ll > MAX_MULTIBULK
        · rw [if_pos hmax]
          exact .waits _ h0 hargv
        rw [if_neg hmax]
        have hline : CountLine c n ll := ⟨h0,hargv,hcr,hfar,not_not.mp hstar,hll,hmax⟩
        by_cases hneg : ll ≤ 0
        · rw [if_pos hneg]
          exact .blank hline hneg
        · rw [if_neg hneg,enterLoop,if_neg (by dsimp only; omega)]
          exact .counted hline (not_le.mp hneg)
  · rw [if_neg h0,enterLoop,if_neg h0]
    exact .resumed h0

theorem processInlineBuffer_cases (c : Client) : processInlineBuffer c = .err none c ∨
    ∃ b argv, processInlineBuffer c = .badFree {c with querybuf := b, argv := argv} := by
  rw [processInlineBuffer]
  cases strchr LF c.querybuf with
  | none => exact Or.inl rfl
  | some n =>
    dsimp only
    cases sdssplitargs (c.querybuf.take (if n ≠ 0 ∧ c.querybuf[n-1]? = some CR then n-1 else n)) with
    | none => exact Or.inl rfl
    | some argv => exact Or.inr ⟨_,_,zfreeSplit_eq _⟩

/-- A command handed to `processCommand`: its arguments, how it came, and the bytes behind it. -/
structure Event where
  argv : List Bytes
  reqtype : ReqType
  left : Bytes
  deriving DecidableEq

/-- Where the input loop leaves the connection. -/
inductive Result
  | idle (c : Client)
  | exit
  | abort
  | badFree
  | undefined
  deriving DecidableEq

def setReqtype (c : Client) : Client :=
  if c.reqtype = .unknown then
    {c with reqtype := if c.querybuf.head? = some 42 then .multibulk else .inline}
  else c

def parse (c : Client) : Option Parsed :=
  if c.reqtype = .inline then some (processInlineBuffer c) else processMultibulkBuffer c

def Client.event (c : Client) : Event := ⟨c.argv,c.reqtype,c.querybuf⟩

section
variable (exec : List Bytes → Status)

/-- `while (sdslen(c->querybuf))`. A round that takes nothing from the buffer is repeated for ever,
so a loop that needs more rounds than there are bytes does not end. -/
def inputLoop : ℕ → Client → List Event × Result
  | rounds, c =>
    if c.querybuf = [] then ([],.idle c)
    else
      match parse (setReqtype c) with
      | none => ([],.undefined)
      | some .abort => ([],.abort)
      | some (.badFree _) => ([],.badFree)
      | some (.err _ c) => ([],.idle c)
      | some (.ok c) =>
        match rounds with
        | 0 => ([],.undefined)
        | rounds+1 =>
          if c.argv = [] then inputLoop rounds (resetClient c)
          else
            match exec c.argv with
            | .ok => let (es,r) := inputLoop rounds (resetClient c); (c.event::es,r)
            | .err => let (es,r) := inputLoop rounds c; (c.event::es,r)
            | .exit => ([c.event],.exit)

def processInputBuffer (c : Client) : List Event × Result := inputLoop exec c.querybuf.length c

/-- How many bytes the next read asks for. -/
def readlen (c : Client) : ℤ :=
  if c.reqtype = .multibulk ∧ c.multibulklen ≠ 0 ∧ c.bulklen ≠ -1 ∧ c.bulklen ≥ PROTO_MBULK_BIG_ARG then
    min PROTO_IOBUF_LEN (int32 ((c.bulklen+2)-c.querybuf.length))
  else PROTO_IOBUF_LEN

/-- `readQueryFromClient` for a read that gives these bytes. -/
def readQueryFromClient (c : Client) (chunk : Bytes) : List Event × Result :=
  processInputBuffer exec {c with querybuf := c.querybuf++chunk}

def readAll : Client → List Bytes → List (List Event) × Result
  | c, [] => ([],.idle c)
  | c, chunk::chunks =>
    match readQueryFromClient exec c chunk with
    | (es,.idle c) => let (rest,r) := readAll c chunks; (es::rest,r)
    | (es,r) => ([es],r)

end

def executed (r : List (List Event) × Result) : List (List Bytes) := r.1.flatten.map Event.argv

/-- What `processCommand` returns depends on the argument vector only. -/
def commandStatus (argv : List Bytes) : Status :=
  match resolve argv with
  | some .quit => .err
  | some .shutdown => .exit
  | _ => .ok

theorem commandStatus_err_iff {argv : List Bytes} : commandStatus argv = .err ↔ isQuit argv = true := by
  rw [commandStatus]
  constructor
  · intro h
    split at h
    · exact isQuit_of_resolve ‹_›
    · cases h
    · cases h
  · intro hq
    cases argv with
    | nil => cases hq
    | cons name args => rw [resolve,if_pos hq]

end Tadpole
