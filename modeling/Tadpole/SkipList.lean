import Tadpole.CString
import Tadpole.Lib.Chain
import Mathlib.Logic.Function.Basic

/-! The skip list of skiplist.c over an explicit memory: strings and nodes live at addresses
that are never reused, and a read or write of freed or missing memory is `none`. Every operation
keeps the memories it went through, one for each elementary write. -/
namespace Tadpole

abbrev SdsPtr := ℕ
abbrev Addr := ℕ

/-- A pointer to a node; NULL is `none`. -/
abbrev Link := Option Addr

abbrev MAX_LEVEL : ℕ := 16

/-- The levels `gen_random_level` draws. -/
abbrev Level := {n : ℕ // 1 ≤ n ∧ n ≤ MAX_LEVEL}

/-- A slot of the flexible array that was not written since `malloc` is `none`. -/
structure Node where
  key : SdsPtr
  val : SdsPtr
  next : List (Option Link)

/-- The memory, with the fields of the one `skiplist` structure. -/
structure Mem where
  strs : SdsPtr → Option Bytes
  nextStr : SdsPtr
  nodes : Addr → Option Node
  nextNode : Addr
  head : Addr
  level : ℕ
  length : ℤ

/-- `x->next[i]`. -/
def Mem.link (m : Mem) (i : ℕ) (x : Addr) : Option Link :=
  (m.nodes x).bind fun n => (n.next[i]?).join

/-- The bytes of `x->key`. -/
def Mem.keyOf (m : Mem) (x : Addr) : Option Bytes := (m.nodes x).bind fun n => m.strs n.key

/-- The bytes of `x->val`. -/
def Mem.valOf (m : Mem) (x : Addr) : Option Bytes := (m.nodes x).bind fun n => m.strs n.val

/-- Enough rounds for any loop along a chain of distinct nodes. -/
def Mem.rounds (m : Mem) : ℕ := m.nextNode+1

/-- `create_skiplist`: an empty list of level 1 with a full-height head. -/
def createSkiplist : Mem where
  strs := fun _ => none
  nextStr := 1
  nodes := Function.update (fun _ => none) 0 (some ⟨0,0,List.replicate MAX_LEVEL (some none)⟩)
  nextNode := 1
  head := 0
  level := 1
  length := 0

/-- `gen_random_level` after `odd` odd results of `rand()`. -/
def genRandomLevel (odd : ℕ) : Level := ⟨min (odd+1) MAX_LEVEL,by simp [MAX_LEVEL],by simp⟩

/-- Keys of different lengths compare as equal. No key reaches 2^31 bytes, so the `int` lengths
are exact. -/
def slKeyCompare (key₁ key₂ : Bytes) : Ordering :=
  if key₁.length ≠ key₂.length then .eq else memcmp key₁ key₂ key₁.length

/-- An operation under way: the memory now and the memories before each write, latest first. -/
structure Hist where
  now : Mem
  past : List Mem

def Hist.write (h : Hist) (m : Mem) : Hist := ⟨m,h.now::h.past⟩

/-- `sdsnewlen`: a fresh string. -/
def Hist.newStr (h : Hist) (s : Bytes) : SdsPtr × Hist :=
  (h.now.nextStr,h.write
    {h.now with strs := Function.update h.now.strs h.now.nextStr (some s), nextStr := h.now.nextStr+1})

/-- `sdsfree` of a string that is not NULL; freeing it twice is undefined. -/
def Hist.freeStr (h : Hist) (p : SdsPtr) : Option Hist :=
  match h.now.strs p with
  | none => none
  | some _ => some (h.write {h.now with strs := Function.update h.now.strs p none})

/-- `create_skiplist_node`: the link slots are left as `malloc` gave them. -/
def Hist.newNode (h : Hist) (level : ℕ) (key val : SdsPtr) : Addr × Hist :=
  (h.now.nextNode,h.write
    {h.now with
      nodes := Function.update h.now.nodes h.now.nextNode (some ⟨key,val,List.replicate level none⟩)
      nextNode := h.now.nextNode+1})

def Hist.freeNode (h : Hist) (x : Addr) : Option Hist :=
  match h.now.nodes x with
  | none => none
  | some _ => some (h.write {h.now with nodes := Function.update h.now.nodes x none})

/-- `x->next[i] = p`. -/
def Hist.setNext (h : Hist) (x : Addr) (i : ℕ) (p : Link) : Option Hist :=
  match h.now.nodes x with
  | none => none
  | some n =>
    if i < n.next.length then
      some (h.write {h.now with
        nodes := Function.update h.now.nodes x (some {n with next := n.next.set i (some p)})})
    else none

/-- `x->val = p`. -/
def Hist.setVal (h : Hist) (x : Addr) (p : SdsPtr) : Option Hist :=
  match h.now.nodes x with
  | none => none
  | some n => some (h.write {h.now with nodes := Function.update h.now.nodes x (some {n with val := p})})

def Hist.setLevel (h : Hist) (level : ℕ) : Hist := h.write {h.now with level := level}

def Hist.setLength (h : Hist) (length : ℤ) : Hist := h.write {h.now with length := length}

/-- `update[MAX_LEVEL]`; a slot that was not assigned is `none`. -/
abbrev Update := ℕ → Option Addr

def Update.set (u : Update) (i : ℕ) (x : Addr) : Option Update :=
  if i < MAX_LEVEL then some (Function.update u i (some x)) else none

/-- `slKeyCompare(q->key,key) < 0`. -/
def Mem.below (m : Mem) (key : Bytes) (q : Addr) : Option Bool :=
  (m.keyOf q).map fun k => slKeyCompare k key = .lt

/-- `while ((q = x->next[i]) && slKeyCompare(q->key,key) < 0) x = q;` -/
def Mem.walk (m : Mem) (key : Bytes) (i : ℕ) (x : Addr) : Option (Addr × Link) :=
  Chain.seek (m.link i) (m.below key) m.rounds x

/-- The loop from level `i-1` down to 0, recording the walked-to node of each level. -/
def Mem.descend (m : Mem) (key : Bytes) : ℕ → Addr → Link → Update → Option (Link × Update)
  | 0, _, q, u => some (q,u)
  | i+1, x, _, u =>
    match m.walk key i x with
    | none => none
    | some (x,q) =>
      match u.set i x with
      | none => none
      | some u => m.descend key i x q u

/-- `q && slKeyCompare(q->key,key) == 0`. -/
def Mem.hits (m : Mem) (key : Bytes) : Link → Option Bool
  | none => some false
  | some q => (m.keyOf q).map fun k => slKeyCompare k key = .eq

/-- `for (i = sl->level; i < target_level; i++) update[i] = sl->head;`, `n` rounds to go. -/
def raiseUpdate (head : Addr) : ℕ → ℕ → Update → Option Update
  | _, 0, u => some u
  | i, n+1, u =>
    match u.set i head with
    | none => none
    | some u => raiseUpdate head (i+1) n u

/-- Link the new node in, from level `i-1` down to 0. -/
def linkLoop (q : Addr) (u : Update) : ℕ → Hist → Option Hist
  | 0, h => some h
  | i+1, h => do
    let p ← u i
    let next ← h.now.link i p
    let h ← h.setNext q i next
    let h ← h.setNext p i (some q)
    linkLoop q u i h

/-- The update vector and the list level once `target` is known. -/
def raiseLevel (h : Hist) (target : ℕ) (u : Update) : Option (Update × Hist) :=
  if target > h.now.level then do
    let u ← raiseUpdate h.now.head h.now.level (target-h.now.level) u
    some (u,h.setLevel target)
  else some (u,h)

/-- `insert_skiplist` with the level drawn and whether `malloc` returned a node. The key is only
read, so it is given as its bytes; the value by its pointer, which the node may come to hold. -/
def insertSkiplist (h : Hist) (key : Bytes) (val : SdsPtr) (target : Level) (malloc : Bool) :
    Option (ℤ × Hist) := do
  let (q,u) ← h.now.descend key h.now.level h.now.head none (fun _ => none)
  if ← h.now.hits key q then
    let q ← q
    let n ← h.now.nodes q
    let h ← h.freeStr n.val
    let h ← h.setVal q val
    some (0,h.setLength (int32 (h.now.length+1)))
  else
    let (u,h) ← raiseLevel h target u
    let v ← h.now.strs val
    let (valDup,h) := h.newStr v
    let (keyDup,h) := h.newStr key
    if malloc then
      let (q,h) := h.newNode target keyDup valDup
      let h ← linkLoop q u target h
      some (0,h.setLength (int32 (h.now.length+1)))
    else some (-1,h)

/-- Unlink `q` from level `i-1` down to 0, lowering the list level where the head runs dry. -/
def unlinkLoop (q : Addr) (u : Update) : ℕ → Hist → Option Hist
  | 0, h => some h
  | i+1, h => do
    let p ← u i
    let next ← h.now.link i p
    if next = some q then
      let after ← h.now.link i q
      let h ← h.setNext p i after
      let first ← h.now.link i h.now.head
      if first = none then unlinkLoop q u i (h.setLevel (h.now.level-1))
      else unlinkLoop q u i h
    else unlinkLoop q u i h

def freeSkiplistNode (h : Hist) (q : Addr) : Option Hist := do
  let n ← h.now.nodes q
  let h ← h.freeStr n.key
  let h ← h.freeStr n.val
  h.freeNode q

def deleteSkiplist (h : Hist) (key : Bytes) : Option (ℤ × Hist) := do
  let (q,u) ← h.now.descend key h.now.level h.now.head none (fun _ => none)
  match q with
  | none => some (-1,h)
  | some q =>
    let k ← h.now.keyOf q
    if slKeyCompare k key ≠ .eq then some (-1,h)
    else
      let h ← unlinkLoop q u h.now.level h
      let h ← freeSkiplistNode h q
      some (0,h.setLength (int32 (h.now.length-1)))

/-- The descent shared by `search_skiplist` and `replace_skiplist`: it stops at the first level
where the next key compares equal. -/
def Mem.find (m : Mem) (key : Bytes) : ℕ → Addr → Option Link
  | 0, _ => some none
  | i+1, x =>
    match m.walk key i x with
    | none => none
    | some (x,none) => m.find key i x
    | some (x,some q) =>
      match m.keyOf q with
      | none => none
      | some k => if slKeyCompare key k = .eq then some (some q) else m.find key i x

/-- The value pointer, NULL when no key compares equal. -/
def searchSkiplist (m : Mem) (key : Bytes) : Option (Option SdsPtr) := do
  match ← m.find key m.level m.head with
  | none => some none
  | some q =>
    let n ← m.nodes q
    some (some n.val)

def replaceSkiplist (h : Hist) (key newVal : Bytes) : Option (ℤ × Hist) := do
  match ← h.now.find key h.now.level h.now.head with
  | none => some (-1,h)
  | some q =>
    let n ← h.now.nodes q
    let h ← h.freeStr n.val
    let (p,h) := h.newStr newVal
    let h ← h.setVal q p
    some (0,h)

/-- The key behind the last level-0 link, entered through the top level. -/
def findMaxSkiplist (m : Mem) : Option Bytes :=
  match m.level with
  | 0 => none
  | i+1 => do
    let node ← (← m.link i m.head)
    let (last,_) ← Chain.seek (m.link 0) (fun _ => some true) m.rounds node
    m.keyOf last

/-- The nodes a loop along `next[0]` visits. -/
def Mem.bottom (m : Mem) : Option (List Addr) := Chain.collect (m.link 0) m.rounds m.head

end Tadpole
