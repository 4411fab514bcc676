import Tadpole.Lib.Buckets
import Mathlib.Data.List.Nodup
import Mathlib.Data.Nat.Bitwise
import Tadpole.CString

/-! The hash table of dict.c: two tables of chained buckets, of which the second is filled from the first
bucket by bucket while the dict is in use. What a call leaves undefined, and a failed assertion, is `none`. -/
namespace Tadpole

/-- The two functions of a `dictType` that decide where an entry lies; neither type of the server
copies keys or values. -/
structure DictType (K : Type) where
  hashFunction : K → UInt32
  keyCompare : K → K → Bool

/-- `dictht`; a NULL table is the empty one, and a chain the list of its entries. -/
structure Dictht (K V : Type) where
  table : List (List (K × V))
  size : ℕ
  sizemask : ℕ
  used : ℕ

/-- `dict`; a `rehashidx` of -1 is `none`. -/
structure Dict (K V : Type) where
  ht0 : Dictht K V
  ht1 : Dictht K V
  rehashidx : Option ℕ
  iterators : ℕ

inductive DictStatus
  | DICT_OK | DICT_ERR
  deriving DecidableEq

abbrev DICT_HT_INITIAL_SIZE : ℕ := 4
abbrev LONG_MAX : ℕ := 9223372036854775807
abbrev dictForceResizeRatio : ℕ := 5

variable {K V : Type}

def dictReset : Dictht K V := ⟨[],0,0,0⟩

def dictCreate : Dict K V := ⟨dictReset,dictReset,none,0⟩

namespace Dict

def isRehashing (d : Dict K V) : Bool := d.rehashidx.isSome

/-- `dictSize`. -/
def dictSize (d : Dict K V) : ℕ := d.ht0.used+d.ht1.used

def entries (d : Dict K V) : List (K × V) := d.ht0.table.flatten++d.ht1.table.flatten

end Dict

/-- `dictHashKey(d,key) & ht.sizemask`. -/
def DictType.index (type : DictType K) (ht : Dictht K V) (key : K) : ℕ :=
  (type.hashFunction key).toNat &&& ht.sizemask

def Dictht.push (ht : Dictht K V) (idx : ℕ) (entry : K × V) : Option (Dictht K V) := do
  let chain ← ht.table[idx]?
  some {ht with table := ht.table.set idx (entry::chain), used := ht.used+1}

/-- `while(1) { if (i >= size) return i; i *= 2; }`, which takes fewer than `size` rounds. -/
def nextPowerLoop (size : ℕ) : ℕ → ℕ → ℕ
  | 0, i => i
  | fuel+1, i => if i ≥ size then i else nextPowerLoop size fuel (i*2)

def dictNextPower (size : ℕ) : ℕ :=
  if size ≥ LONG_MAX then LONG_MAX else nextPowerLoop size size DICT_HT_INITIAL_SIZE

def dictExpand (d : Dict K V) (size : ℕ) : Dict K V × DictStatus :=
  let realsize := dictNextPower size
  if d.isRehashing ∨ d.ht0.used > size then (d,.DICT_ERR)
  else
    let n : Dictht K V := ⟨List.replicate realsize [],realsize,realsize-1,0⟩
    if d.ht0.table = [] then ({d with ht0 := n},.DICT_OK)
    else ({d with ht1 := n, rehashidx := some 0},.DICT_OK)

/-- `dictResize`, with `dict_can_resize` as it stands; `minimal` is an `int`. -/
def dictResize (canResize : Bool) (d : Dict K V) : Dict K V × DictStatus :=
  if ¬ canResize ∨ d.isRehashing then (d,.DICT_ERR)
  else
    let minimal := int32 d.ht0.used
    dictExpand d (if minimal < DICT_HT_INITIAL_SIZE then DICT_HT_INITIAL_SIZE else minimal.toNat)

def dictExpandIfNeeded (canResize : Bool) (d : Dict K V) : Dict K V × DictStatus :=
  if d.isRehashing then (d,.DICT_OK)
  else if d.ht0.size = 0 then dictExpand d DICT_HT_INITIAL_SIZE
  else if d.ht0.used ≥ d.ht0.size ∧ (canResize ∨ d.ht0.used/d.ht0.size > dictForceResizeRatio) then
    dictExpand d (d.ht0.used*2)
  else (d,.DICT_OK)

/-- `while(table[rehashidx] == NULL) rehashidx++`: how far it goes. There is nothing to read behind the
last bucket. -/
def skipEmpty : List (List (K × V)) → Option ℕ
  | [] => none
  | []::t => (skipEmpty t).map (·+1)
  | (_::_)::_ => some 0

/-- The entries of a chain go to the heads of their buckets in the second table. -/
def moveChain (type : DictType K) : List (K × V) → Dictht K V → Dictht K V →
    Option (Dictht K V × Dictht K V)
  | [], ht0, ht1 => some (ht0,ht1)
  | de::nextde, ht0, ht1 => do
    let ht1 ← ht1.push (type.index ht1 de.1) de
    moveChain type nextde {ht0 with used := ht0.used-1} ht1

/-- One round of `dictRehash`, from the assertion on. -/
def rehashBucket (type : DictType K) (d : Dict K V) (rehashidx : ℕ) : Option (Dict K V) :=
  if d.ht0.size ≤ rehashidx then none
  else do
    let skipped ← skipEmpty (d.ht0.table.drop rehashidx)
    let rehashidx := rehashidx+skipped
    let de ← d.ht0.table[rehashidx]?
    let (ht0,ht1) ← moveChain type de d.ht0 d.ht1
    some {d with
      ht0 := {ht0 with table := ht0.table.set rehashidx []}
      ht1 := ht1
      rehashidx := some (rehashidx+1)}

def finishRehash (d : Dict K V) : Dict K V := {d with ht0 := d.ht1, ht1 := dictReset, rehashidx := none}

/-- `dictRehash`: whether there is more to move after `n` rounds. -/
def dictRehash (type : DictType K) (d : Dict K V) : ℕ → Option (Dict K V × Bool)
  | 0 => some (d,d.isRehashing)
  | n+1 =>
    match d.rehashidx with
    | none => some (d,false)
    | some rehashidx =>
      if d.ht0.used = 0 then some (finishRehash d,false)
      else do
        let d ← rehashBucket type d rehashidx
        dictRehash type d n

def dictRehashStep (type : DictType K) (d : Dict K V) : Option (Dict K V) :=
  if d.iterators = 0 then (dictRehash type d 1).map Prod.fst else some d

/-- `if (dictIsRehashing(d)) _dictRehashStep(d)`, with which every lookup and update begins. -/
def stepIfRehashing (type : DictType K) (d : Dict K V) : Option (Dict K V) :=
  if d.isRehashing then dictRehashStep type d else some d

def Dictht.find (type : DictType K) (ht : Dictht K V) (key : K) : Option (Option (K × V)) := do
  let he ← ht.table[type.index ht key]?
  some (he.find? fun e => type.keyCompare key e.1)

/-- The loop over the tables, of which the second counts only while rehashing. -/
def Dict.find (type : DictType K) (d : Dict K V) (key : K) : Option (Option (K × V)) := do
  match ← d.ht0.find type key with
  | some he => some (some he)
  | none => if d.isRehashing then d.ht1.find type key else some none

def dictFind (type : DictType K) (d : Dict K V) (key : K) : Option (Dict K V × Option (K × V)) :=
  if d.ht0.size = 0 then some (d,none)
  else do
    let d ← stepIfRehashing type d
    let he ← d.find type key
    some (d,he)

def dictFetchValue (type : DictType K) (d : Dict K V) (key : K) : Option (Dict K V × Option V) := do
  let (d,he) ← dictFind type d key
  some (d,he.map Prod.snd)

/-- `_dictKeyIndex`: -1 or a bucket of the table that takes new entries, as an `int`. -/
def dictKeyIndex (type : DictType K) (canResize : Bool) (d : Dict K V) (key : K) : Option (Dict K V × ℤ) :=
  let (d,status) := dictExpandIfNeeded canResize d
  if status = .DICT_ERR then some (d,-1)
  else do
    match ← d.find type key with
    | some _ => some (d,-1)
    | none => some (d,int32 (type.index (if d.isRehashing then d.ht1 else d.ht0) key))

/-- `dictAddRaw`, the entry with the value that its caller gives it; whether there is a new entry. -/
def dictAddRaw (type : DictType K) (canResize : Bool) (d : Dict K V) (key : K) (val : V) :
    Option (Dict K V × Bool) := do
  let d ← stepIfRehashing type d
  let (d,index) ← dictKeyIndex type canResize d key
  if index = -1 then some (d,false)
  else if index < 0 then none
  else if d.isRehashing then do
    let ht1 ← d.ht1.push index.toNat (key,val)
    some ({d with ht1 := ht1},true)
  else do
    let ht0 ← d.ht0.push index.toNat (key,val)
    some ({d with ht0 := ht0},true)

def dictAdd (type : DictType K) (canResize : Bool) (d : Dict K V) (key : K) (val : V) :
    Option (Dict K V × DictStatus) := do
  let (d,added) ← dictAddRaw type canResize d key val
  some (d,if added then .DICT_OK else .DICT_ERR)

/-- The chain with a change made at its first entry that compares equal to the key. -/
def changeFirst (type : DictType K) (key : K) (f : K × V → List (K × V)) : List (K × V) → List (K × V)
  | [] => []
  | e::l => if type.keyCompare key e.1 then f e++l else e::changeFirst type key f l

def Dictht.change (type : DictType K) (ht : Dictht K V) (key : K) (f : K × V → List (K × V)) :
    Option (Dictht K V) := do
  let he ← ht.table[type.index ht key]?
  some {ht with table := ht.table.set (type.index ht key) (changeFirst type key f he)}

/-- `dictReplace`: whether the key was added from scratch. -/
def dictReplace (type : DictType K) (canResize : Bool) (d : Dict K V) (key : K) (val : V) :
    Option (Dict K V × Bool) := do
  let (d,status) ← dictAdd type canResize d key val
  if status = .DICT_OK then some (d,true)
  else do
    let (d,he) ← dictFind type d key
    -- the entry that was found is written without a check for NULL
    let _ ← he
    if (← d.ht0.find type key).isSome then
      let ht0 ← d.ht0.change type key fun e => [(e.1,val)]
      some ({d with ht0 := ht0},false)
    else
      let ht1 ← d.ht1.change type key fun e => [(e.1,val)]
      some ({d with ht1 := ht1},false)

/-- `dictGenericDelete`; the memory of the entry is freed with it. -/
def dictGenericDelete (type : DictType K) (d : Dict K V) (key : K) : Option (Dict K V × DictStatus) :=
  if d.ht0.size = 0 then some (d,.DICT_ERR)
  else do
    let d ← stepIfRehashing type d
    if (← d.ht0.find type key).isSome then
      let ht0 ← d.ht0.change type key fun _ => []
      some ({d with ht0 := {ht0 with used := ht0.used-1}},.DICT_OK)
    else if d.isRehashing then
      if (← d.ht1.find type key).isSome then
        let ht1 ← d.ht1.change type key fun _ => []
        some ({d with ht1 := {ht1 with used := ht1.used-1}},.DICT_OK)
      else some (d,.DICT_ERR)
    else some (d,.DICT_ERR)

def dictDelete (type : DictType K) (d : Dict K V) (key : K) : Option (Dict K V × DictStatus) :=
  dictGenericDelete type d key

end Tadpole
