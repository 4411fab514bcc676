import Tadpole.Sds
import Tadpole.SkipListMap
import Mathlib.Data.Finset.Insert

/-! The command handlers of commands.c and `processCommand` of db.c. A handler answers the strings it
passes to the two reply functions of util.c; undefined behaviour is `none`. -/
namespace Tadpole

/-- A string handed to one of the two functions that write to the client. -/
inductive Out
  | addReply (reply : Bytes)
  | addReplyString (s : Bytes)
  deriving DecidableEq

def Out.bytes : Out → Bytes
  | addReply reply => reply
  | addReplyString s => s

abbrev Output := List Out

/-- What the client receives when every write succeeds in full. -/
def Output.bytes (o : Output) : Bytes := o.flatMap Out.bytes

def NULLBULK : Bytes := str "$-1\r\n"

def OK : Bytes := str "+OK\r\n"

def addReplyErrorLength (s : Bytes) : Output :=
  [.addReplyString (str "-ERR "),.addReplyString s,.addReplyString CRLF]

def sanitize (s : Bytes) : Bytes := s.map fun b => if b = CR ∨ b = LF then SPACE else b

/-- `addReplyErrorFormat` with its directives already expanded. -/
def addReplyErrorFormat (pieces : List Bytes) : Output :=
  addReplyErrorLength (sanitize pieces.flatten)

/-- The three writes with which SCAN and SHOW end. -/
def statusLine (s : Bytes) : Output := [.addReplyString (str "+"),.addReply s,.addReply CRLF]

def convertToResp (src : Bytes) : Option Bytes :=
  sdscatfmt [] [str "$",sdsll2str (int32 src.length),CRLF,src,CRLF]

structure FixedLength where
  keyLen : ℕ
  valLen : ℕ

/-- `server.fl`, `server.dict` and `server.sl`; the dict is the exact set of its keys. -/
structure Server where
  fl : Option FixedLength
  dict : Finset Bytes
  mem : Mem

def initServer (fl : Option FixedLength) : Server := ⟨fl,∅,createSkiplist⟩

/-- What one call draws: the node level, and whether `malloc` gives a node. -/
structure Draw where
  level : Level
  malloc : Bool

/-- The length check at the head of a handler: an error reply when the fixed lengths are set and not
met, nothing otherwise. -/
def Server.lengthError (s : Server) (legal : FixedLength → Bool) (text : FixedLength → List Bytes) :
    Option Output :=
  match s.fl with
  | none => none
  | some fl => if legal fl then none else some (addReplyErrorFormat (text fl))

def Server.keyError (s : Server) (key : Bytes) : Option Output :=
  s.lengthError (fun fl => key.length = fl.keyLen)
    fun fl => [str "Illegal key length, key length should be ",sdsll2str fl.keyLen]

def Server.kvError (s : Server) (key value : Bytes) : Option Output :=
  s.lengthError (fun fl => key.length = fl.keyLen ∧ value.length = fl.valLen)
    fun fl => [str "Illegal kv length, key/value length should be ",sdsll2str fl.keyLen,str "/",
      sdsll2str fl.valLen]

def Server.cursorError (s : Server) (start stop : Bytes) : Option Output :=
  s.lengthError (fun fl => start.length = fl.keyLen ∧ stop.length = fl.keyLen)
    fun fl => [str "Illegal cursor length, key length should be ",sdsll2str fl.keyLen]

/-- `addReply(c, convertToResp(search_skiplist(server.sl, key)))`; converting NULL or a freed value is
undefined. -/
def foundReply (m : Mem) (key : Bytes) : Option Output := do
  let p ← ← searchSkiplist m key
  let res ← m.strs p
  let reply ← convertToResp res
  some [.addReply reply]

def getCommand (s : Server) (key : Bytes) : Option Output :=
  match s.keyError key with
  | some e => some e
  | none => if key ∉ s.dict then some [.addReply NULLBULK] else foundReply s.mem key

/-- `putCommand`, `val` being the argument string that holds `value`. -/
def putCommand (s : Server) (key value : Bytes) (val : SdsPtr) (d : Draw) :
    Option (Server × Output) :=
  match s.kvError key value with
  | some e => some (s,e)
  | none =>
    if key ∈ s.dict then do
      let (_,h) ← replaceSkiplist ⟨s.mem,[]⟩ key value
      some ({s with mem := h.now},[.addReply OK])
    else do
      let (_,h) ← insertSkiplist ⟨s.mem,[]⟩ key val d.level d.malloc
      some ({s with dict := insert key s.dict, mem := h.now},[.addReply OK])

def deleteCommand (s : Server) (key : Bytes) : Option (Server × Output) :=
  match s.keyError key with
  | some e => some (s,e)
  | none =>
    if key ∉ s.dict then some (s,[.addReply (str "+0\r\n")])
    else do
      let (_,h) ← deleteSkiplist ⟨s.mem,[]⟩ key
      some ({s with dict := s.dict.erase key, mem := h.now},[.addReply (str "+1\r\n")])

/-- The loop of `scanCommand` over the nodes of the bottom chain. -/
def scanLoop (m : Mem) (start stop : Bytes) : List Addr → Bytes → Option Bytes
  | [], tmp => some tmp
  | x::l, tmp => do
    let k ← m.keyOf x
    if slKeyCompare k start ≠ .lt ∧ slKeyCompare k stop ≠ .gt then
      let tmp ← sdscatfmt tmp [k,[LF]]
      scanLoop m start stop l tmp
    else scanLoop m start stop l tmp

def scanCommand (s : Server) (start stop : Bytes) : Option Output :=
  match s.cursorError start stop with
  | some e => some e
  | none =>
    if slKeyCompare start stop = .gt then
      some (addReplyErrorFormat
        [str "CURSORERR '",cstr start,str "' should less or equal to '",cstr stop,str "'"])
    else do
      let nodes ← s.mem.bottom
      let tmp ← scanLoop s.mem start stop nodes []
      some (statusLine (sdsrange tmp 0 (-2)))

/-- `server.sl->length == 0 ? sdsnew("NULL") : key`. -/
def Server.orNull (s : Server) (key : Option Bytes) : Option Bytes :=
  if s.mem.length = 0 then some (str "NULL") else key

def infoCommand (s : Server) : Option Output := do
  let min ← s.orNull ((s.mem.link 0 s.mem.head).bind fun q => q.bind s.mem.keyOf)
  let max ← s.orNull (findMaxSkiplist s.mem)
  let info ← sdscatfmt []
    [str "tadpole:keys=",sdsll2str s.mem.length,str ",min=",min,str ",max=",max]
  some (statusLine info)

def pingCommand : Output := [.addReply (str "+PONG\r\n")]

/-- A call of a handler that uses the store, with the argument strings it reads. -/
inductive Call
  | get (key : Bytes)
  | put (key value : Bytes)
  | delete (key : Bytes)
  | scan (start stop : Bytes)
  | info

/-- The handler between the parser's allocation of the argument strings and `resetClient`'s free of
them. A node can come to hold the value's string only, so only that one is in the memory. -/
def Call.run (s : Server) (d : Draw) : Call → Option (Server × Output)
  | get key => (getCommand s key).map fun out => (s,out)
  | put key value => do
    let (val,h) := (⟨s.mem,[]⟩ : Hist).newStr value
    let (s,out) ← putCommand {s with mem := h.now} key value val d
    let h ← (⟨s.mem,[]⟩ : Hist).freeStr val
    some ({s with mem := h.now},out)
  | delete key => deleteCommand s key
  | scan start stop => (scanCommand s start stop).map fun out => (s,out)
  | info => (infoCommand s).map fun out => (s,out)

theorem Call.run_put {s s' : Server} {key value : Bytes} {d : Draw} {out : Output} {h : Hist}
    (hput : putCommand ⟨s.fl,s.dict,((⟨s.mem,[]⟩ : Hist).newStr value).2.now⟩ key value s.mem.nextStr d =
      some (s',out)) (hfree : (⟨s'.mem,[]⟩ : Hist).freeStr s.mem.nextStr = some h) :
    (Call.put key value).run s d = some (⟨s'.fl,s'.dict,h.now⟩,out) := by
  have hval : ((⟨s.mem,[]⟩ : Hist).newStr value).1 = s.mem.nextStr := rfl
  simp only [Call.run,hval,hput,hfree,Option.bind_eq_bind,Option.bind_some]

inductive Proc
  | getCommand | putCommand | deleteCommand | scanCommand | pingCommand | shutdownCommand | infoCommand
  deriving DecidableEq

structure ServerCommand where
  name : Bytes
  proc : Proc
  arity : ℤ
  deriving DecidableEq

def serverCommandsTable : List ServerCommand :=
  [⟨str "get",.getCommand,2⟩,
   ⟨str "put",.putCommand,3⟩,
   ⟨str "set",.putCommand,3⟩,
   ⟨str "delete",.deleteCommand,2⟩,
   ⟨str "scan",.scanCommand,3⟩,
   ⟨str "ping",.pingCommand,1⟩,
   ⟨str "shutdown",.shutdownCommand,1⟩,
   ⟨str "show",.infoCommand,1⟩]

/-- `dictGenCaseHashFunction` over the whole length of the name, from the fixed seed. -/
def dictSdsCaseHash (name : Bytes) : UInt32 :=
  name.foldl (fun hash b => hash*33+(tolower b).toUInt32) 5381

/-- The eight entries lie in eight buckets: the table of four grows at the fifth entry, and the
first lookup ends its rehashing. -/
def bucket (name : Bytes) : UInt32 := dictSdsCaseHash name &&& 7

/-- `dictFetchValue`: the bucket of the name's hash, searched without regard to case. -/
def lookupCommand (name : Bytes) : Option ServerCommand :=
  serverCommandsTable.find? fun c => bucket c.name = bucket name ∧ strcasecmp name c.name

/-- What the caller of `processCommand` gets, or that the process exits. -/
inductive Status
  | ok | err | exit
  deriving DecidableEq

def isQuit (argv : List Bytes) : Bool := argv.head?.any fun name => strcasecmp name (str "quit")

/-- What `processCommand` does once it has looked at the argument vector. -/
inductive Action
  | quit
  | error (out : Output)
  | call (c : Call)
  | ping
  | shutdown

/-- The handler of a table entry whose arity was checked, with the arguments behind the name. -/
def Proc.action : Proc → List Bytes → Option Action
  | getCommand, [key] => some (.call (.get key))
  | putCommand, [key,value] => some (.call (.put key value))
  | deleteCommand, [key] => some (.call (.delete key))
  | scanCommand, [start,stop] => some (.call (.scan start stop))
  | infoCommand, [] => some (.call .info)
  | pingCommand, [] => some .ping
  | shutdownCommand, [] => some .shutdown
  | _, _ => none

/-- The checks of `processCommand`. -/
def resolve (argv : List Bytes) : Option Action :=
  match argv with
  | [] => none
  | name::args =>
    if isQuit argv then some .quit
    else
      match lookupCommand name with
      | none => some (.error (addReplyErrorFormat [str "unknown command '",cstr name,str "'"]))
      | some cmd =>
        if (cmd.arity > 0 ∧ cmd.arity ≠ argv.length) ∨ (argv.length : ℤ) < -cmd.arity then
          some (.error (addReplyErrorFormat
            [str "wrong number of arguments for '",cmd.name,str "' command"]))
        else cmd.proc.action args

def Action.run (s : Server) (d : Draw) : Action → Option (Server × Output × Status)
  | quit => some (s,[.addReply (str "+OK\r\n")],.err)
  | error out => some (s,out,.ok)
  | call c => (c.run s d).map fun (s,out) => (s,out,.ok)
  | ping => some (s,pingCommand,.ok)
  | shutdown => some (s,[],.exit)

def processCommand (s : Server) (d : Draw) (argv : List Bytes) :
    Option (Server × Output × Status) := (resolve argv).bind fun a => a.run s d

theorem resolve_isSome {argv : List Bytes} (h : argv ≠ []) : ∃ a, resolve argv = some a := by
  obtain ⟨name,args,rfl⟩ := List.exists_cons_of_ne_nil h
  unfold resolve
  dsimp only
  by_cases hq : isQuit (name::args)
  · exact ⟨_,if_pos hq⟩
  rw [if_neg hq]
  cases hl : lookupCommand name with
  | none => exact ⟨_,rfl⟩
  | some cmd =>
    have hm : cmd ∈ serverCommandsTable := List.mem_of_find?_eq_some hl
    simp only [serverCommandsTable,List.mem_cons,List.not_mem_nil,or_false] at hm
    dsimp only
    split_ifs with hbad
    · exact ⟨_,rfl⟩
    · rw [not_or,not_and,not_not] at hbad
      have hlen := hbad.1
      rcases hm with rfl | rfl | rfl | rfl | rfl | rfl | rfl | rfl <;>
        simp only [List.length_cons] at hlen <;>
        match args with
        | [] => first | exact ⟨_,rfl⟩ | (simp at hlen)
        | [_] => first | exact ⟨_,rfl⟩ | (simp at hlen)
        | [_,_] => first | exact ⟨_,rfl⟩ | (simp at hlen)
        | _::_::_::_ => simp only [List.length_cons] at hlen; omega

theorem Proc.action_ne_quit (p : Proc) (args : List Bytes) : p.action args ≠ some .quit := by
  unfold Proc.action
  split <;> simp

theorem isQuit_of_resolve {argv : List Bytes} (h : resolve argv = some .quit) : isQuit argv = true := by
  unfold resolve at h
  split at h
  · cases h
  · split_ifs at h with hq
    · exact hq
    · split at h
      · cases h
      · split_ifs at h
        · cases h
        · exact absurd h (Proc.action_ne_quit _ _)

end Tadpole
