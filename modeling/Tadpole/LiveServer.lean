import Mathlib.Data.Finset.Dedup
import Tadpole.CommandTable
import Tadpole.LoadDb

/-! The server with its two hash tables as they are, rehashing included, beside the server whose dict is the
exact set of its keys: both answer alike from the load of the file on. -/
namespace Tadpole

def word32 (a b c d : UInt8) : UInt32 := a.toUInt32 ||| b.toUInt32 <<< 8 ||| c.toUInt32 <<< 16 ||| d.toUInt32 <<< 24

/-- The body of `dictGenHashFunction`: whole words, then what is left of the string. -/
def mixBytes (h : UInt32) : Bytes → UInt32
  | a::b::c::d::data =>
    let k := word32 a b c d*0x5bd1e995
    let k := (k ^^^ k >>> 24)*0x5bd1e995
    mixBytes (h*0x5bd1e995 ^^^ k) data
  | [a,b,c] => (h ^^^ c.toUInt32 <<< 16 ^^^ b.toUInt32 <<< 8 ^^^ a.toUInt32)*0x5bd1e995
  | [a,b] => (h ^^^ b.toUInt32 <<< 8 ^^^ a.toUInt32)*0x5bd1e995
  | [a] => (h ^^^ a.toUInt32)*0x5bd1e995
  | [] => h

/-- MurmurHash2 with the seed that no code changes; the length is an `int`. -/
def dictGenHashFunction (key : Bytes) : UInt32 :=
  let h := mixBytes (5381 ^^^ UInt32.ofNat key.length) (key.take (int32 key.length).toNat)
  let h := (h ^^^ h >>> 13)*0x5bd1e995
  h ^^^ h >>> 15

/-- `memcmp` over an `int` of bytes, where the lengths agree as such. -/
def dictSdsKeyCompare (key1 key2 : Bytes) : Bool :=
  let l1 := int32 key1.length
  let l2 := int32 key2.length
  if l1 ≠ l2 then false else key1.take l1.toNat = key2.take l1.toNat

def slDictType : DictType Bytes := ⟨dictGenHashFunction,dictSdsKeyCompare⟩

/-- A length that an `int` holds. -/
def ShortKey (key : Bytes) : Prop := key.length < 2147483648

instance decidableShortKey (key : Bytes) : Decidable (ShortKey key) := inferInstanceAs (Decidable (_ < _))

theorem slDictType_lawful : slDictType.Lawful ShortKey := by
  intro a b ha hb
  simp only [slDictType,dictSdsKeyCompare,int32_nat ha,int32_nat hb,Int.toNat_natCast,List.take_length]
  constructor
  · intro h
    split_ifs at h with hlen
    rw [decide_eq_true_iff] at h
    rw [h,show a.length = b.length by omega,List.take_length]
  · rintro rfl
    simp

structure LiveServer where
  fl : Option FixedLength
  commands : Dict Bytes ServerCommand
  dict : Dict Bytes Unit
  mem : Mem

namespace LiveServer

def view (s : LiveServer) : Server := ⟨s.fl,(s.dict.entries.map Prod.fst).toFinset,s.mem⟩

def getCommand (s : LiveServer) (key : Bytes) : Option (LiveServer × Output) :=
  match s.view.keyError key with
  | some e => some (s,e)
  | none => do
    let (dict,de) ← dictFind slDictType s.dict key
    if de.isNone then some ({s with dict},[.addReply NULLBULK])
    else do
      let out ← foundReply s.mem key
      some ({s with dict},out)

def putCommand (s : LiveServer) (key value : Bytes) (val : SdsPtr) (d : Draw) :
    Option (LiveServer × Output) :=
  match s.view.kvError key value with
  | some e => some (s,e)
  | none => do
    let (dict,de) ← dictFind slDictType s.dict key
    if de.isSome then do
      let (_,h) ← replaceSkiplist ⟨s.mem,[]⟩ key value
      some ({s with dict, mem := h.now},[.addReply OK])
    else do
      let (dict,_) ← dictAddRaw slDictType true dict key ()
      let (_,h) ← insertSkiplist ⟨s.mem,[]⟩ key val d.level d.malloc
      some ({s with dict, mem := h.now},[.addReply OK])

def deleteCommand (s : LiveServer) (key : Bytes) : Option (LiveServer × Output) :=
  match s.view.keyError key with
  | some e => some (s,e)
  | none => do
    let (dict,de) ← dictFind slDictType s.dict key
    if de.isNone then some ({s with dict},[.addReply (str "+0\r\n")])
    else do
      let (_,h) ← deleteSkiplist ⟨s.mem,[]⟩ key
      let (dict,_) ← dictDelete slDictType dict key
      some ({s with dict, mem := h.now},[.addReply (str "+1\r\n")])

def call (s : LiveServer) (d : Draw) : Call → Option (LiveServer × Output)
  | .get key => s.getCommand key
  | .put key value => do
    let (val,h) := (⟨s.mem,[]⟩ : Hist).newStr value
    let (s,out) ← ({s with mem := h.now} : LiveServer).putCommand key value val d
    let h ← (⟨s.mem,[]⟩ : Hist).freeStr val
    some ({s with mem := h.now},out)
  | .delete key => s.deleteCommand key
  | .scan start stop => (scanCommand s.view start stop).map fun out => (s,out)
  | .info => (infoCommand s.view).map fun out => (s,out)

/-- The checks of `processCommand`, of which the lookup can change the command table. -/
def resolve (s : LiveServer) (argv : List Bytes) : Option (LiveServer × Action) :=
  match argv with
  | [] => none
  | name::args =>
    if isQuit argv then some (s,.quit)
    else do
      let (commands,cmd) ← dictFetchValue commandTableDictType s.commands name
      match cmd with
      | none => some ({s with commands},.error (addReplyErrorFormat [str "unknown command '",cstr name,str "'"]))
      | some cmd =>
        if (cmd.arity > 0 ∧ cmd.arity ≠ argv.length) ∨ (argv.length : ℤ) < -cmd.arity then
          some ({s with commands},.error (addReplyErrorFormat
            [str "wrong number of arguments for '",cmd.name,str "' command"]))
        else (cmd.proc.action args).map fun a => ({s with commands},a)

def action (s : LiveServer) (d : Draw) : Action → Option (LiveServer × Output × Status)
  | .quit => some (s,[.addReply (str "+OK\r\n")],.err)
  | .error out => some (s,out,.ok)
  | .call c => (s.call d c).map fun (s,out) => (s,out,.ok)
  | .ping => some (s,pingCommand,.ok)
  | .shutdown => some (s,[],.exit)

/-- `processCommand` with what its call draws. -/
def processCommand (s : LiveServer) (c : Draw × List Bytes) : Option (LiveServer × Output × Status) := do
  let (s,a) ← s.resolve c.2
  s.action c.1 a

/-- One record of the file: its key goes to the dict unchecked. -/
def loadRecord (s : LiveServer) (key val : Bytes) (level : Level) : Option LiveServer := do
  let (p,h) := (⟨s.mem,[]⟩ : Hist).newStr val
  let (dict,_) ← dictAddRaw slDictType true s.dict key ()
  let (_,h) ← insertSkiplist h key p level true
  let h ← h.freeStr p
  some {s with dict, mem := h.now}

/-- `loadDb`: the store it leaves, or `none` where it ends the process. -/
def loadDb (s : LiveServer) : List (Read × Level) → Option (Option LiveServer)
  | [] => some (some s)
  | (r,level)::rs => do
    match ← r.kvs with
    | [key,val] =>
      let s ← s.loadRecord key val level
      s.loadDb rs
    | _ => some none

end LiveServer

/-- `initServer` of db.c and the start of `initDb`. -/
def initLive (fl : Option FixedLength) : Option LiveServer := do
  let commands ← populateCommandTable dictCreate serverCommandsTable
  some ⟨fl,commands,dictCreate,createSkiplist⟩

end Tadpole
