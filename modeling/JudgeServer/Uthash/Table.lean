import JudgeServer.Library.Links

/-! uthash.h, the hash table behind `clients_map`, `compilers_map` and the client lists
of the compilers. An element is in two doubly linked lists at once, the one of its
bucket and the one of all elements in the order they were added. -/

namespace JudgeServer.Uthash

open Links

/-- The fields of `UT_hash_handle`, for all elements; `key` are the four bytes that the
pointer leads to. -/
structure Handles where
  prev : ℕ → Option ℕ
  next : ℕ → Option ℕ
  hhPrev : ℕ → Option ℕ
  hhNext : ℕ → Option ℕ
  key : ℕ → UInt32
  hashv : ℕ → UInt32

/-- `UT_hash_bucket` -/
structure Bucket where
  hhHead : Option ℕ
  count : UInt32
  expandMult : UInt32
  deriving DecidableEq, Repr

/-- `UT_hash_table` -/
structure HashTable where
  buckets : ℕ → Bucket
  numBuckets : UInt32
  log2NumBuckets : UInt32
  numItems : UInt32
  tail : Option ℕ
  idealChainMaxlen : UInt32
  nonidealItems : UInt32
  ineffExpands : UInt32
  noexpand : UInt32

/-- The variable of the program, its table and the memory of the handles. Where `head`
is NULL there is no table, and `tbl` has no meaning. -/
structure Hash where
  head : Option ℕ
  tbl : HashTable
  hh : Handles

def HASH_BKT_CAPACITY_THRESH : UInt32 := 10

/-- `HASH_JEN_MIX` -/
def hashJenMix (a b c : UInt32) : UInt32 :=
  let a := (a - b - c) ^^^ (c >>> 13)
  let b := (b - c - a) ^^^ (a <<< 8)
  let c := (c - a - b) ^^^ (b >>> 13)
  let a := (a - b - c) ^^^ (c >>> 12)
  let b := (b - c - a) ^^^ (a <<< 16)
  let c := (c - a - b) ^^^ (b >>> 5)
  let a := (a - b - c) ^^^ (c >>> 3)
  let b := (b - c - a) ^^^ (a <<< 10)
  (c - a - b) ^^^ (b >>> 15)

/-- `HASH_JEN` of a key of four bytes: the loop over blocks of twelve is not entered, and
the four cases of the switch add up to the bytes as one number. -/
def hashJen (key : UInt32) : UInt32 :=
  hashJenMix (0x9e3779b9 + key) 0x9e3779b9 (0xfeedbeef + 4)

/-- `HASH_TO_BKT` -/
def hashToBkt (hashv numBkts : UInt32) : ℕ := (hashv &&& (numBkts - 1)).toNat

/-- `HASH_MAKE_TABLE` for the first element. -/
def makeTable (x : ℕ) : HashTable where
  buckets := fun _ => ⟨none, 0, 0⟩
  numBuckets := 32
  log2NumBuckets := 5
  numItems := 0
  tail := some x
  idealChainMaxlen := 0
  nonidealItems := 0
  ineffExpands := 0
  noexpand := 0

/-- The element becomes the first of a bucket's chain. -/
def Handles.chain (hh : Handles) (b : Bucket) (x : ℕ) : Handles :=
  { hh with
    hhPrev := store (Function.update hh.hhPrev x none) b.hhHead (some x)
    hhNext := Function.update hh.hhNext x b.hhHead }

/-! `HASH_EXPAND_BUCKETS` -/

/-- What the loops of the expansion change: the new buckets and the links. -/
structure Expansion where
  buckets : ℕ → Bucket
  hh : Handles
  nonidealItems : UInt32

def idealLen (t : HashTable) : UInt32 :=
  (t.numItems >>> (t.log2NumBuckets + 1)) +
    if t.numItems &&& (t.numBuckets * 2 - 1) ≠ 0 then 1 else 0

/-- One round of the inner loop; `none` is a division by zero. -/
def moveElem (ideal numBkts : UInt32) (e : Expansion) (x : ℕ) : Option Expansion :=
  let i := hashToBkt (e.hh.hashv x) numBkts
  let b := e.buckets i
  let count := b.count + 1
  if count > ideal then
    if ideal = 0 then none
    else some
      { buckets := Function.update e.buckets i ⟨some x, count, count / ideal⟩
        hh := e.hh.chain b x
        nonidealItems := e.nonidealItems + 1 }
  else some
    { buckets := Function.update e.buckets i ⟨some x, count, b.expandMult⟩
      hh := e.hh.chain b x
      nonidealItems := e.nonidealItems }

/-- The inner loop; a chain with more elements than the table has does not end. -/
def moveChain (ideal numBkts : UInt32) : ℕ → Option ℕ → Expansion → Option Expansion
  | _, none, e => some e
  | 0, some _, _ => none
  | rounds + 1, some x, e =>
    let nxt := e.hh.hhNext x
    match moveElem ideal numBkts e x with
    | some e' => moveChain ideal numBkts rounds nxt e'
    | none => none

def moveBuckets (t : HashTable) (hh : Handles) : Option Expansion :=
  (List.range t.numBuckets.toNat).foldlM
    (fun e i => moveChain (idealLen t) (t.numBuckets * 2) t.numItems.toNat (t.buckets i).hhHead e)
    ⟨fun _ => ⟨none, 0, 0⟩, hh, 0⟩

def expandBuckets (h : Hash) : Option Hash :=
  match moveBuckets h.tbl h.hh with
  | none => none
  | some e =>
    let ineff := if e.nonidealItems > h.tbl.numItems >>> 1 then h.tbl.ineffExpands + 1 else 0
    some
      { h with
        hh := e.hh
        tbl := { h.tbl with
          buckets := e.buckets
          numBuckets := h.tbl.numBuckets * 2
          log2NumBuckets := h.tbl.log2NumBuckets + 1
          idealChainMaxlen := idealLen h.tbl
          nonidealItems := e.nonidealItems
          ineffExpands := ineff
          noexpand := if ineff > 1 then 1 else h.tbl.noexpand } }

/-! `HASH_ADD_INT` -/

/-- The list of all elements. The outer `none` is an access through a NULL `tail`. -/
def appendItem (h : Hash) (x : ℕ) (key : UInt32) : Option Hash :=
  let hh := { h.hh with next := Function.update h.hh.next x none, key := Function.update h.hh.key x key }
  match h.head with
  | none => some
    { head := some x
      tbl := { makeTable x with numItems := 1 }
      hh := { hh with prev := Function.update hh.prev x none } }
  | some _ =>
    match h.tbl.tail with
    | none => none
    | some last => some
      { head := h.head
        tbl := { h.tbl with tail := some x, numItems := h.tbl.numItems + 1 }
        hh := { hh with
          next := Function.update hh.next last (some x)
          prev := Function.update hh.prev x (some last) } }

/-- `HASH_ADD_TO_BKT`, without the expansion. -/
def enterBkt (hashFcn : UInt32 → UInt32) (h : Hash) (x : ℕ) : Hash :=
  let hashv := hashFcn (h.hh.key x)
  let i := hashToBkt hashv h.tbl.numBuckets
  let b := h.tbl.buckets i
  { h with
    hh := { h.hh.chain b x with hashv := Function.update h.hh.hashv x hashv }
    tbl := { h.tbl with
      buckets := Function.update h.tbl.buckets i ⟨some x, b.count + 1, b.expandMult⟩ } }

/-- The bucket of an element. -/
def Hash.bktOf (h : Hash) (x : ℕ) : ℕ := hashToBkt (h.hh.hashv x) h.tbl.numBuckets

/-- The bucket that the element was added to is full. -/
def Hash.overfull (h : Hash) (x : ℕ) : Prop :=
  (h.tbl.buckets (h.bktOf x)).count ≥
      ((h.tbl.buckets (h.bktOf x)).expandMult + 1) * HASH_BKT_CAPACITY_THRESH ∧
    h.tbl.noexpand ≠ 1

instance (h : Hash) (x : ℕ) : Decidable (h.overfull x) := inferInstanceAs (Decidable (_ ∧ _))

/-- `HASH_ADD_INT(head, id, add)`, where the id of element `x` is `key`. -/
def hashAdd (hashFcn : UInt32 → UInt32) (h : Hash) (x : ℕ) (key : UInt32) : Option Hash :=
  match appendItem h x key with
  | none => none
  | some h =>
    let h' := enterBkt hashFcn h x
    if h'.overfull x then expandBuckets h' else some h'

/-- `HASH_DELETE` -/
def hashDelete (h : Hash) (x : ℕ) : Hash :=
  if h.hh.prev x = none ∧ h.hh.next x = none then { h with head := none }
  else
    let i := h.bktOf x
    let b := h.tbl.buckets i
    { head := if h.hh.prev x = none then h.hh.next x else h.head
      tbl := { h.tbl with
        tail := if h.tbl.tail = some x then h.hh.prev x else h.tbl.tail
        numItems := h.tbl.numItems - 1
        buckets := Function.update h.tbl.buckets i
          { b with
            count := b.count - 1
            hhHead := if b.hhHead = some x then h.hh.hhNext x else b.hhHead } }
      hh := { h.hh with
        next := store h.hh.next (h.hh.prev x) (h.hh.next x)
        prev := store h.hh.prev (h.hh.next x) (h.hh.prev x)
        hhNext := store h.hh.hhNext (h.hh.hhPrev x) (h.hh.hhNext x)
        hhPrev := store h.hh.hhPrev (h.hh.hhNext x) (h.hh.hhPrev x) } }

/-- `HASH_FIND_IN_BKT` -/
def findInBkt (hh : Handles) (key : UInt32) : ℕ → Option ℕ → Option (Option ℕ)
  | _, none => some none
  | 0, some _ => none
  | rounds + 1, some x =>
    if hh.key x = key then some (some x) else findInBkt hh key rounds (hh.hhNext x)

/-- `HASH_FIND_INT` -/
def hashFind (hashFcn : UInt32 → UInt32) (h : Hash) (key : UInt32) : Option (Option ℕ) :=
  match h.head with
  | none => some none
  | some _ =>
    findInBkt h.hh key h.tbl.numItems.toNat
      (h.tbl.buckets (hashToBkt (hashFcn key) h.tbl.numBuckets)).hhHead

/-! `HASH_FSCK`, the integrity check of uthash's developers. -/

/-- The walk along one list: every element points back to the one before it. -/
def fsckList (prev next : ℕ → Option ℕ) : ℕ → Option ℕ → Option ℕ → UInt32 → Option UInt32
  | _, _, none, count => some count
  | 0, _, some _, _ => none
  | rounds + 1, before, some x, count =>
    if prev x ≠ before then none else fsckList prev next rounds (some x) (next x) (count + 1)

def fsckBuckets (h : Hash) : Option UInt32 :=
  (List.range h.tbl.numBuckets.toNat).foldlM
    (fun count i =>
      match fsckList h.hh.hhPrev h.hh.hhNext h.tbl.numItems.toNat none (h.tbl.buckets i).hhHead 0 with
      | some bktCount =>
        if (h.tbl.buckets i).count ≠ bktCount then none else some (count + bktCount)
      | none => none)
    0

def fsck (h : Hash) : Bool :=
  match h.head with
  | none => true
  | some _ =>
    fsckBuckets h = some h.tbl.numItems ∧
      fsckList h.hh.prev h.hh.next h.tbl.numItems.toNat none h.head 0 = some h.tbl.numItems

/-! The loops over all elements. -/

/-- `for(el = head; el != NULL; el = el->hh.next)`: the elements it visits. -/
def visited (next : ℕ → Option ℕ) : ℕ → Option ℕ → Option (List ℕ)
  | _, none => some []
  | 0, some _ => none
  | rounds + 1, some x => (visited next rounds (next x)).map (x :: ·)

/-- `free` of an element: whatever is in its links afterwards. -/
def Handles.release (hh : Handles) (x : ℕ) (junk : Option ℕ) : Handles :=
  { hh with
    prev := Function.update hh.prev x junk
    next := Function.update hh.next x junk
    hhPrev := Function.update hh.hhPrev x junk
    hhNext := Function.update hh.hhNext x junk }

/-- `HASH_ITER` with a body that deletes and frees the elements that `gone` tells. -/
def iterDelete (gone : ℕ → Bool) (junk : ℕ → Option ℕ) :
    ℕ → Option ℕ → Option ℕ → Hash → Option Hash
  | _, none, _, h => some h
  | 0, some _, _, _ => none
  | rounds + 1, some el, tmp, h =>
    let h' := if gone el then
        { hashDelete h el with hh := (hashDelete h el).hh.release el (junk el) }
      else h
    iterDelete gone junk rounds tmp (tmp.bind h'.hh.next) h'

def iter (gone : ℕ → Bool) (junk : ℕ → Option ℕ) (h : Hash) : Option Hash :=
  iterDelete gone junk h.tbl.numItems.toNat h.head (h.head.bind h.hh.next) h

end JudgeServer.Uthash
