import Mathlib

/-!
# The hash table of lib/kernel/hash.c

A table of elements of any type `α`; an element stands for the address of its
`struct hash_elem`, so two elements are equal when they are the same object.
A bucket is the list of its elements from front to back. The hash and the order
are the caller's (`Funcs`).

`elem_cnt` and `bucket_cnt` are natural numbers: a `struct hash_elem` takes
eight bytes, so there are fewer than `2 ^ 29` of them and neither count wraps.
-/
namespace Pintos.Hash

variable {α : Type} [DecidableEq α]

/-- `h->hash` and `h->less` with their `aux`. -/
structure Funcs (α : Type) where
  hash : α → Nat
  less : α → α → Bool

/-- mirrors lib/kernel/hash.h:58-67 -/
structure Table (α : Type) where
  elemCnt : Nat
  bucketCnt : Nat
  buckets : Nat → List α

variable (F : Funcs α)

/-- The index of the bucket of `e` among `n` buckets. -/
def bucketIdx (n : Nat) (e : α) : Nat := F.hash e &&& (n - 1)

/-- mirrors lib/kernel/hash.c:304-310 -/
def findBucket (h : Table α) (e : α) : Nat := bucketIdx F h.bucketCnt e

/-- mirrors lib/kernel/hash.c:312-326 -/
def findElem (bucket : List α) (e : α) : Option α := bucket.find? fun hi => !F.less hi e && !F.less e hi

/-- mirrors lib/kernel/hash.c:328-333 -/
def turnOffLeast1bit (x : Nat) : Nat := x &&& (x - 1)

/-- mirrors lib/kernel/hash.c:335-340 -/
def isPowerOf2 (x : Nat) : Bool := x != 0 && turnOffLeast1bit x == 0

/-- The loop of `rehash` that rounds the number of buckets down to a power of
two. Each round clears a bit, so `x` rounds are enough.
mirrors lib/kernel/hash.c:371-372 -/
def roundDown : Nat → Nat → Nat
  | 0, x => x
  | n + 1, x => if isPowerOf2 x then x else roundDown n (turnOffLeast1bit x)

/-- mirrors lib/kernel/hash.c:368-372 -/
def newBucketCnt (elemCnt : Nat) : Nat :=
  let n := elemCnt / 2
  let n := if n < 4 then 4 else n
  roundDown n n

def pushFront (buckets : Nat → List α) (i : Nat) (e : α) : Nat → List α :=
  Function.update buckets i (e :: buckets i)

/-- Moves the elements of one old bucket, from its front to its back.
mirrors lib/kernel/hash.c:401-409 -/
def moveBucket (n : Nat) (buckets : Nat → List α) (old : List α) : Nat → List α :=
  old.foldl (fun b e => pushFront b (bucketIdx F n e) e) buckets

/-- `memory` says whether the new buckets can be allocated.
mirrors lib/kernel/hash.c:351-413 -/
def rehash (h : Table α) (memory : Bool) : Table α :=
  let n := newBucketCnt h.elemCnt
  if n = h.bucketCnt then h
  else if memory then
    { h with
      bucketCnt := n
      buckets := (List.range h.bucketCnt).foldl (fun b i => moveBucket F n b (h.buckets i)) fun _ => [] }
  else h

omit [DecidableEq α] in
/-- mirrors lib/kernel/hash.c:415-421 -/
def insertElem (h : Table α) (bucket : Nat) (e : α) : Table α :=
  { h with elemCnt := h.elemCnt + 1, buckets := pushFront h.buckets bucket e }

/-- `list_remove` takes the element out of the bucket it is in.
mirrors lib/kernel/hash.c:423-429 -/
def removeElem (h : Table α) (e : α) : Table α :=
  { h with elemCnt := h.elemCnt - 1, buckets := fun i => (h.buckets i).erase e }

/-! ## The interface -/

/-- With its destructor, `hash_clear` calls it for each element of each bucket,
front to back.
mirrors lib/kernel/hash.c:53-74 -/
def hashClear (h : Table α) (destructor : Bool) : Table α × List α :=
  ({ h with elemCnt := 0, buckets := fun i => if i < h.bucketCnt then [] else h.buckets i },
    if destructor then (List.range h.bucketCnt).flatMap h.buckets else [])

/-- `junk` is what the memory of the four buckets holds; `memory` says whether
it can be allocated.
mirrors lib/kernel/hash.c:24-42 -/
def hashInit (junk : Nat → List α) (memory : Bool) : Option (Table α) :=
  if memory then some (hashClear ⟨0, 4, fun i => if i < 4 then junk i else []⟩ false).1 else none

/-- mirrors lib/kernel/hash.c:98-110 -/
def hashInsert (h : Table α) (e : α) (memory : Bool) : Table α × Option α :=
  let bucket := findBucket F h e
  let old := findElem F (h.buckets bucket) e
  let h := match old with
    | none => insertElem h bucket e
    | some _ => h
  (rehash F h memory, old)

/-- mirrors lib/kernel/hash.c:114-127 -/
def hashReplace (h : Table α) (e : α) (memory : Bool) : Table α × Option α :=
  let bucket := findBucket F h e
  let old := findElem F (h.buckets bucket) e
  let h := match old with
    | some o => removeElem h o
    | none => h
  (rehash F (insertElem h bucket e) memory, old)

/-- mirrors lib/kernel/hash.c:131-135 -/
def hashFind (h : Table α) (e : α) : Option α := findElem F (h.buckets (findBucket F h e)) e

/-- mirrors lib/kernel/hash.c:144-154 -/
def hashDelete (h : Table α) (e : α) (memory : Bool) : Table α × Option α :=
  match hashFind F h e with
  | some found => (rehash F (removeElem h found) memory, some found)
  | none => (h, none)

/-! ## Iteration -/

/-- `rest` are the elements of the bucket behind `elem`, which is the head
sentinel of the bucket at first.
mirrors lib/kernel/hash.h:69-75 -/
structure Iterator (α : Type) where
  bucket : Nat
  rest : List α

/-- mirrors lib/kernel/hash.c:199-208 -/
def hashFirst (h : Table α) : Iterator α := ⟨0, h.buckets 0⟩

/-- The loop of `hash_next`, which goes on to at most `n` more buckets.
mirrors lib/kernel/hash.c:224-232 -/
def nextLoop (h : Table α) : Nat → Iterator α → Option α × Iterator α
  | _, ⟨b, e :: rest⟩ => (some e, ⟨b, rest⟩)
  | 0, i => (none, i)
  | n + 1, ⟨b, []⟩ => if b + 1 ≥ h.bucketCnt then (none, ⟨b + 1, []⟩) else nextLoop h n ⟨b + 1, h.buckets (b + 1)⟩

/-- mirrors lib/kernel/hash.c:218-235 -/
def hashNext (h : Table α) (i : Iterator α) : Option α × Iterator α := nextLoop h h.bucketCnt i

/-- The elements that `while (hash_next (&i))` gets, if it ends within `n` calls. -/
def iterate (h : Table α) : Nat → Iterator α → Option (List α)
  | 0, _ => none
  | n + 1, i => match hashNext h i with
    | (some e, i) => (iterate h n i).map (e :: ·)
    | (none, _) => some []

/-! ## Sequences of calls -/

/-- A call; `memory` is the outcome of the allocation in `rehash`. -/
inductive Op (α : Type)
  | insert (e : α) (memory : Bool)
  | replace (e : α) (memory : Bool)
  | delete (e : α) (memory : Bool)
  | find (e : α)
  | clear (destructor : Bool)

/-- What a call returns, or the elements the destructor was called for. -/
inductive Ret (α : Type)
  | elem (o : Option α)
  | destroyed (l : List α)
  deriving DecidableEq

def Op.exec (h : Table α) : Op α → Table α × Ret α
  | .insert e memory => ((hashInsert F h e memory).1, .elem (hashInsert F h e memory).2)
  | .replace e memory => ((hashReplace F h e memory).1, .elem (hashReplace F h e memory).2)
  | .delete e memory => ((hashDelete F h e memory).1, .elem (hashDelete F h e memory).2)
  | .find e => (h, .elem (hashFind F h e))
  | .clear destructor => ((hashClear h destructor).1, .destroyed (hashClear h destructor).2)

/-- Runs calls, with their results in order. -/
def run (h : Table α) : List (Op α) → Table α × List (Ret α)
  | [] => (h, [])
  | op :: ops =>
    let (h', r) := op.exec F h
    let (h'', rs) := run h' ops
    (h'', r :: rs)

/-! ## Pages in the table of a process -/

/-- A `struct page` as an element: where it is, and the address it is for. -/
structure Page where
  ptr : Nat
  addr : Nat
  deriving DecidableEq

/-- mirrors vm/page.c:254-271 -/
def pageFuncs : Funcs Page where
  hash p := p.addr >>> 12
  less a b := decide (a.addr < b.addr)

end Pintos.Hash
