import MyLua.Foundation.ScatterContents
import MyLua.Lua.Number

/-!
# Lua Tables (`ltable.c`)

A table keeps its elements in two parts: an array part and a hash part. Non-negative integer keys
are all candidates to be kept in the array part. The hash part is a chained scatter table with
Brent's variation.

A pointer to a value is the slot it points to; the nil object is no slot. A pointer to a node is its
index. The allocations succeed. What the collector and the metatables keep in a table is left out.

## Model

- `Key`, `rawequalObj`: the values that can be a key, and their equality.
- `Table`: the two parts.
- `luaHGet`, `luaHSet`, `newkey`, `rehash`, `resize`: searching and inserting.
- `luaHNext`: traversals.
- `luaHGetn`: boundaries.
-/

namespace MyLua.Lua

open MyLua.Foundation

variable {Num V : Type}

/-! ## §1 Keys -/

/-- The types of the objects that are compared by their address. -/
inductive ObjectType where
  | table
  | function
  | userdata
  | thread
  deriving DecidableEq, Repr

/-- A value that is not nil. Strings are interned, so a string stands for its address. -/
inductive Key (Num : Type) where
  | boolean (b : Bool)
  | lightuserdata (p : Nat)
  | number (x : Num)
  | string (s : Bytes)
  | object (type : ObjectType) (p : Nat)

section Keys

variable [TableNumber Num]

/-- `luaO_rawequalObj` -/
def rawequalObj : Key Num → Key Num → Bool
  | .boolean b, .boolean b' => b == b'
  | .lightuserdata p, .lightuserdata p' => p == p'
  | .number x, .number y => TableNumber.numeq x y
  | .string s, .string s' => s == s'
  | .object type p, .object type' p' => type == type' && p == p'
  | _, _ => false

instance : BEq (Key Num) := ⟨rawequalObj⟩

/-- The number of bits of a byte. -/
def log2Table : List Nat :=
  [ 0,1,2,2,3,3,3,3,4,4,4,4,4,4,4,4,5,5,5,5,5,5,5,5,5,5,5,5,5,5,5,5,
    6,6,6,6,6,6,6,6,6,6,6,6,6,6,6,6,6,6,6,6,6,6,6,6,6,6,6,6,6,6,6,6,
    7,7,7,7,7,7,7,7,7,7,7,7,7,7,7,7,7,7,7,7,7,7,7,7,7,7,7,7,7,7,7,7,
    7,7,7,7,7,7,7,7,7,7,7,7,7,7,7,7,7,7,7,7,7,7,7,7,7,7,7,7,7,7,7,7,
    8,8,8,8,8,8,8,8,8,8,8,8,8,8,8,8,8,8,8,8,8,8,8,8,8,8,8,8,8,8,8,8,
    8,8,8,8,8,8,8,8,8,8,8,8,8,8,8,8,8,8,8,8,8,8,8,8,8,8,8,8,8,8,8,8,
    8,8,8,8,8,8,8,8,8,8,8,8,8,8,8,8,8,8,8,8,8,8,8,8,8,8,8,8,8,8,8,8,
    8,8,8,8,8,8,8,8,8,8,8,8,8,8,8,8,8,8,8,8,8,8,8,8,8,8,8,8,8,8,8,8 ]

/-- The loop of `luaO_log2`. An `unsigned int` has four bytes, so it turns three times at most. -/
def log2Loop : Nat → Int → Nat → Int
  | 0, l, x => l + log2Table.getD x 0
  | n + 1, l, x => if 256 ≤ x then log2Loop n (l + 8) (x >>> 8) else l + log2Table.getD x 0

/-- `luaO_log2` -/
def luaOLog2 (x : Nat) : Int := log2Loop 3 (-1) x

/-- `ceillog2`; it is only used on positive numbers. -/
def ceillog2 (x : Nat) : Nat := (luaOLog2 (x - 1) + 1).toNat

/-- `lmod`; the size is a power of two. -/
def lmod (s size : Nat) : Nat := s &&& (size - 1)

/-- The hash of a string, as `luaS_newlstr` computes it: the loop from `l1` down. -/
def hashLoop (str : Bytes) (step : Nat) : Nat → Nat → UInt32 → UInt32
  | 0, _, h => h
  | n + 1, l1, h =>
    if step ≤ l1 then
      hashLoop str step n (l1 - step)
        (h ^^^ ((h <<< 5) + (h >>> 2) + (str.getD (l1 - 1) 0).toUInt32))
    else h

/-- If a string is too long, not all its characters are hashed. -/
def hashOfString (str : Bytes) : UInt32 :=
  let l := str.length
  hashLoop str ((l >>> 5) + 1) l l (UInt32.ofNat l)

/-- `hashmod`: the index for a hash, by modulus of the number of nodes, made odd. -/
def hashmod (size n : Nat) : Nat := n % ((size - 1) ||| 1)

/-- `hashpointer` -/
def hashpointer (size p : Nat) : Nat := hashmod size (p % 2 ^ 32)

/-- `hashnum` -/
def hashnum (size : Nat) (n : Num) : Nat :=
  -- Both zeros have one hash, though their bits differ.
  if TableNumber.numeq n (TableNumber.castNum 0) then 0
  else hashmod size ((TableNumber.ints n).sum % 2 ^ 32)

/-- `mainposition` -/
def mainposition (size : Nat) : Key Num → Nat
  | .number n => hashnum size n
  | .string s => lmod (hashOfString s).toNat size
  | .boolean b => lmod b.toNat size
  | .lightuserdata p => hashpointer size p
  | .object _ p => hashpointer size p

/-- `arrayindex`: the index for a key that can live in the array part, -1 otherwise. -/
def arrayindex : Key Num → Int
  | .number n =>
    let k := TableNumber.number2int n
    -- Only a number that is equal to its conversion is an index.
    if TableNumber.numeq (TableNumber.castNum k) n then k else -1
  | _ => -1

end Keys

/-! ## §2 Tables -/

/-- `MAXBITS`: the array part has at most `2 ^ MAXBITS` elements. -/
def MAXBITS : Nat := 26

/-- `MAXASIZE` -/
def MAXASIZE : Nat := 2 ^ MAXBITS

/-- The nodes of the hash part. -/
abbrev Nodes (Num V : Type) := List (Cell (Key Num) V)

/-- `gnode` -/
def gnode (node : Nodes Num V) (i : Nat) : Cell (Key Num) V := node.getD i Cell.blank

/-- `gkey(gnode(t, i)) = key` -/
def setgkey (node : Nodes Num V) (i : Nat) (key : Option (Key Num)) : Nodes Num V :=
  node.set i { gnode node i with key := key }

/-- `gval(gnode(t, i)) = v` -/
def setgval (node : Nodes Num V) (i : Nat) (v : Option V) : Nodes Num V :=
  node.set i { gnode node i with value := v }

/-- `gnext(gnode(t, i)) = next` -/
def setgnext (node : Nodes Num V) (i : Nat) (next : Option Nat) : Nodes Num V :=
  node.set i { gnode node i with next := next }

/-- The array part, the nodes, and `lastfree`: any free node is before this position. A table
without nodes of its own shares the one node `dummynode`. -/
structure Table (Num V : Type) where
  array : List (Option V)
  sizearray : Nat
  node : Nodes Num V
  lsizenode : Nat
  dummy : Bool
  lastfree : Nat

/-- `sizenode` -/
def Table.sizenode (t : Table Num V) : Nat := 2 ^ t.lsizenode

/-- The element of the array part at `i`. -/
def Table.element (t : Table Num V) (i : Nat) : Option V := t.array.getD i none

/-- Where a value is. -/
inductive Slot where
  | array (i : Nat)
  | node (i : Nat)
  deriving DecidableEq, Repr

def Table.value (t : Table Num V) : Slot → Option V
  | .array i => t.element i
  | .node i => (gnode t.node i).value

/-- `setobj` on a slot of the table. -/
def Table.setobj (t : Table Num V) (v : Option V) : Slot → Table Num V
  | .array i => { t with array := t.array.set i v }
  | .node i => { t with node := setgval t.node i v }

/-- The errors of the table functions. The last two are no errors of the source: they stand for a
loop that does not end, and for an access outside of the memory of the table. -/
inductive Failure where
  | indexIsNil
  | indexIsNaN
  | tableOverflow
  | invalidKeyToNext
  | outOfFuel
  | outOfBounds
  deriving DecidableEq, Repr

/-! ## §3 Searching -/

variable [TableNumber Num]

/-- The loop along a chain, for a key that satisfies `P`. -/
def Table.search (t : Table Num V) (P : Key Num → Bool) (i : Nat) :
    Except Failure (Option Nat) :=
  match find (gnode t.node) P t.sizenode i with
  | none => .error .outOfFuel
  | some r => .ok r

/-- `luaH_getnum` -/
def luaHGetnum (t : Table Num V) (key : Int) : Except Failure (Option Slot) :=
  -- The source makes one unsigned comparison of the two.
  if 1 ≤ key ∧ key ≤ t.sizearray then .ok (some (.array (key - 1).toNat))
  else do
    let nk : Num := TableNumber.castNum key
    let isKey : Key Num → Bool
      | .number x => TableNumber.numeq x nk
      | _ => false
    let n ← t.search isKey (hashnum t.sizenode nk)
    return n.map .node

/-- `luaH_getstr` -/
def luaHGetstr (t : Table Num V) (key : Bytes) : Except Failure (Option Slot) := do
  let isKey : Key Num → Bool
    | .string s => s == key
    | _ => false
  let n ← t.search isKey (lmod (hashOfString key).toNat t.sizenode)
  return n.map .node

/-- The search that `luaH_get` makes itself. -/
def Table.searchKey (t : Table Num V) (key : Key Num) : Except Failure (Option Slot) := do
  let n ← t.search (fun k => rawequalObj k key) (mainposition t.sizenode key)
  return n.map .node

/-- `luaH_get` -/
def luaHGet (t : Table Num V) : Option (Key Num) → Except Failure (Option Slot)
  | none => .ok none
  | some (.string s) => luaHGetstr t s
  | some (.number n) =>
    let k := TableNumber.number2int n
    -- An index is searched by the specialized version, every other number along its chain.
    if TableNumber.numeq (TableNumber.castNum k) n then luaHGetnum t k
    else t.searchKey (.number n)
  | some key => t.searchKey key

/-! ## §4 Sizes -/

/-- `computesizes`: the loop over the powers of two, with the optimal size for the array part and
the number of elements to go there. -/
def computesizesLoop (nums : Nat → Nat) (narray : Nat) :
    Nat → Nat → Nat → Nat → Nat → Nat → Except Failure (Nat × Nat)
  | 0, _, _, _, _, _ => .error .outOfBounds
  | turns + 1, i, twotoi, a, na, n =>
    if twotoi / 2 < narray then
      let a' := a + nums i
      -- More than half of the slots would be in use, so all elements so far go to the array part.
      let better := 0 < nums i ∧ twotoi / 2 < a'
      let n := if better then twotoi else n
      let na := if better then a' else na
      -- All elements are counted.
      if a' = narray then .ok (n, na)
      else computesizesLoop nums narray turns (i + 1) (twotoi * 2) a' na n
    else .ok (n, na)

/-- `computesizes`; `nums` has `MAXBITS + 1` counters. -/
def computesizes (nums : Nat → Nat) (narray : Nat) : Except Failure (Nat × Nat) :=
  computesizesLoop nums narray (MAXBITS + 1) 0 1 0 0 0

/-- `nums[i] += n` -/
def addNum (nums : Nat → Nat) (i n : Nat) : Nat → Nat :=
  fun j => if j = i then nums j + n else nums j

/-- `countint`; nil is no array index. -/
def countint (key : Option (Key Num)) (nums : Nat → Nat) : Nat × (Nat → Nat) :=
  let k : Int := match key with
    | some key => arrayindex key
    | none => -1
  if 0 < k ∧ k ≤ MAXASIZE then (1, addNum nums (ceillog2 k.toNat) 1) else (0, nums)

/-- The elements `t[i]` to `t[lim]` of the array part that are not nil. -/
def countSlice (t : Table Num V) (i lim : Nat) : Nat :=
  (List.range' i (lim + 1 - i)).countP fun i => (t.element (i - 1)).isSome

/-- The loop of `numusearray` over the slices. -/
def numusearrayLoop (t : Table Num V) :
    Nat → Nat → Nat → Nat → Nat → (Nat → Nat) → Nat × (Nat → Nat)
  | 0, _, _, _, ause, nums => (ause, nums)
  | turns + 1, lg, ttlg, i, ause, nums =>
    let lim := min ttlg t.sizearray
    -- The limit of the slice is adjusted; behind the array part there is nothing to count.
    if t.sizearray < ttlg ∧ lim < i then (ause, nums)
    else
      let lc := countSlice t i lim
      numusearrayLoop t turns (lg + 1) (ttlg * 2) (max i (lim + 1)) (ause + lc)
        (addNum nums lg lc)

/-- `numusearray` -/
def numusearray (t : Table Num V) (nums : Nat → Nat) : Nat × (Nat → Nat) :=
  numusearrayLoop t (MAXBITS + 1) 0 1 1 0 nums

/-- The loop of `numusehash` from the node before `i` down: the number of elements, the number of
integer keys among them, and the counters. -/
def numusehashLoop (t : Table Num V) :
    Nat → Nat → Nat → (Nat → Nat) → Nat × Nat × (Nat → Nat)
  | 0, totaluse, ause, nums => (totaluse, ause, nums)
  | i + 1, totaluse, ause, nums =>
    if (gnode t.node i).value.isSome then
      let (c, nums) := countint (gnode t.node i).key nums
      numusehashLoop t i (totaluse + 1) (ause + c) nums
    else numusehashLoop t i totaluse ause nums

/-- `numusehash` -/
def numusehash (t : Table Num V) (nums : Nat → Nat) : Nat × Nat × (Nat → Nat) :=
  numusehashLoop t t.sizenode 0 0 nums

/-! ## §5 Inserting -/

/-- `setarrayvector` -/
def setarrayvector (t : Table Num V) (size : Nat) : Table Num V :=
  { t with
    array := t.array.take (min t.sizearray size) ++ List.replicate (size - t.sizearray) none
    sizearray := size }

/-- `setnodevector` -/
def setnodevector (t : Table Num V) (size : Nat) : Except Failure (Table Num V) :=
  if size = 0 then
    -- No elements to the hash part: the common `dummynode`.
    .ok { t with node := [Cell.blank], lsizenode := 0, dummy := true, lastfree := 0 }
  else
    let lsize := ceillog2 size
    if MAXBITS < lsize then .error .tableOverflow
    else
      .ok { t with
        node := List.replicate (2 ^ lsize) Cell.blank
        lsizenode := lsize
        dummy := false
        -- All positions are free.
        lastfree := 2 ^ lsize }

/-- `getfreepos`, from the position `lastfree` down. -/
def getfreeposLoop (node : Nodes Num V) : Nat → Option Nat
  | 0 => none
  | i + 1 => if (gnode node i).key.isNone then some i else getfreeposLoop node i

/-- `getfreepos` -/
def getfreepos (t : Table Num V) : Option Nat × Table Num V :=
  let n := getfreeposLoop t.node t.lastfree
  (n, { t with lastfree := n.getD 0 })

section Inserting

-- `newkey`, on which the functions that insert a key depend.
variable (newkey : Table Num V → Key Num → Except Failure (Table Num V × Slot))

/-- `luaH_set` -/
def luaHSet (t : Table Num V) (key : Option (Key Num)) : Except Failure (Table Num V × Slot) := do
  match ← luaHGet t key with
  | some p => return (t, p)
  | none =>
    -- Only a new key has to be a proper one.
    match key with
    | none => throw .indexIsNil
    | some (.number n) =>
      if !TableNumber.numeq n n then throw .indexIsNaN
      else newkey t (.number n)
    | some key => newkey t key

/-- `luaH_setnum` -/
def luaHSetnum (t : Table Num V) (key : Int) : Except Failure (Table Num V × Slot) := do
  match ← luaHGetnum t key with
  | some p => return (t, p)
  | none => newkey t (.number (TableNumber.castNum key))

/-- `luaH_setstr` -/
def luaHSetstr (t : Table Num V) (key : Bytes) : Except Failure (Table Num V × Slot) := do
  match ← luaHGetstr t key with
  | some p => return (t, p)
  | none => newkey t (.string key)

/-- Re-insertion of the vanishing slice of the array part, from the element `i` on. -/
def reinsertSlice : Nat → Nat → Table Num V → Except Failure (Table Num V)
  | _, 0, t => .ok t
  | i, n + 1, t =>
    match t.element i with
    | none => reinsertSlice (i + 1) n t
    | some v => do
      let (t, p) ← luaHSetnum newkey t (i + 1)
      reinsertSlice (i + 1) n (t.setobj (some v) p)

/-- Re-insertion of the elements of the old nodes, from the one before `i` down. -/
def reinsertNodes (nold : Nodes Num V) :
    Nat → Table Num V → Except Failure (Table Num V)
  | 0, t => .ok t
  | i + 1, t =>
    match (gnode nold i).value with
    | none => reinsertNodes nold i t
    | some v => do
      let (t, p) ← luaHSet newkey t (gnode nold i).key
      reinsertNodes nold i (t.setobj (some v) p)

/-- The part of `resize` for an array part that must shrink. -/
def shrinkArray (t : Table Num V) (oldasize nasize : Nat) : Except Failure (Table Num V) :=
  if nasize < oldasize then do
    let t ← reinsertSlice newkey nasize (oldasize - nasize) { t with sizearray := nasize }
    -- The vanishing slice is read before the array is cut.
    return { t with array := t.array.take nasize }
  else .ok t

/-- `resize` -/
def resize (t : Table Num V) (nasize nhsize : Nat) : Except Failure (Table Num V) := do
  let oldasize := t.sizearray
  let oldhsize := t.lsizenode
  let nold := t.node
  -- The array part grows before the elements go there, and shrinks after the new nodes are there.
  let t := if oldasize < nasize then setarrayvector t nasize else t
  let t ← setnodevector t nhsize
  let t ← shrinkArray newkey t oldasize nasize
  reinsertNodes newkey nold (2 ^ oldhsize) t

/-- `luaH_resizearray` -/
def luaHResizearray (t : Table Num V) (nasize : Nat) : Except Failure (Table Num V) :=
  let nsize := if t.dummy then 0 else t.sizenode
  resize newkey t nasize nsize

/-- `rehash` -/
def rehash (t : Table Num V) (ek : Key Num) : Except Failure (Table Num V) := do
  let (nasize, nums) := numusearray t fun _ => 0
  let (hashuse, ause, nums) := numusehash t nums
  let (c, nums) := countint (some ek) nums
  let totaluse := nasize + hashuse + 1
  -- The extra key counts as well.
  let (nasize, na) ← computesizes nums (nasize + ause + c)
  resize newkey t nasize (totaluse - na)

end Inserting

/-- `newkey`: a new key goes to its main position, if it is free; otherwise either the colliding
node or the new key goes to a free place. The first argument bounds how deep `newkey` calls
itself. -/
def newkey : Nat → Table Num V → Key Num → Except Failure (Table Num V × Slot)
  | 0, _, _ => .error .outOfFuel
  | depth + 1, t, key =>
    let mp := mainposition t.sizenode key
    if (gnode t.node mp).value.isSome || t.dummy then
      match getfreepos t with
      | (none, t) => do
        -- No free place is left: the table grows, and the key is inserted into the new one.
        let t ← rehash (newkey depth) t key
        luaHSet (newkey depth) t (some key)
      | (some n, t) =>
        match (gnode t.node mp).key with
        | none => .error .outOfBounds
        | some k =>
          let othern := mainposition t.sizenode k
          if othern ≠ mp then
            -- The colliding node is out of its main position: it moves to the free place, and the
            -- node before it in its chain is linked to the new place.
            match previous (gnode t.node) mp t.sizenode othern with
            | none => .error .outOfFuel
            | some p =>
              let node := setgnext t.node p (some n)
              let node := node.set n (gnode node mp)
              let node := setgval (setgnext node mp none) mp none
              .ok ({ t with node := setgkey node mp (some key) }, .node mp)
          else
            let node := setgnext t.node n (gnode t.node mp).next
            -- The colliding node is in its own main position: the new key goes to the free place,
            -- behind it in the chain.
            let node := setgnext node mp (some n)
            .ok ({ t with node := setgkey node n (some key) }, .node n)
    else .ok ({ t with node := setgkey t.node mp (some key) }, .node mp)

/-- `luaH_new` -/
def luaHNew (Num V : Type) (narray nhash : Nat) : Except Failure (Table Num V) :=
  let t : Table Num V :=
    { array := [], sizearray := 0, node := [Cell.blank], lsizenode := 0, dummy := true,
      lastfree := 0 }
  setnodevector (setarrayvector t narray) nhash

/-! ## §6 Traversals -/

/-- `findindex`: the index of a key for traversals, -1 for nil. -/
def findindex (t : Table Num V) : Option (Key Num) → Except Failure Int
  | none => .ok (-1)
  | some key => do
    let i := arrayindex key
    -- A key inside the array part, or a node: the nodes are numbered after the array part.
    if 0 < i ∧ i ≤ t.sizearray then return i - 1
    else
      match ← t.search (fun k => rawequalObj k key) (mainposition t.sizenode key) with
      | some i => return i + t.sizearray
      | none => throw .invalidKeyToNext

/-- `luaH_next`: the next key and its value, or `none` when there are no more elements. -/
def luaHNext (t : Table Num V) (key : Option (Key Num)) :
    Except Failure (Option (Key Num × V)) := do
  let i := (← findindex t key) + 1
  let i := i.toNat
  -- First the array part, then the hash part.
  match (List.range' i (t.sizearray - i)).find? fun i => (t.element i).isSome with
  | some i => return (t.element i).map fun v => (.number (TableNumber.castNum (i + 1)), v)
  | none =>
    let i := i - t.sizearray
    match (List.range' i (t.sizenode - i)).find? fun i => (gnode t.node i).value.isSome with
    | some i =>
      return do
        let key ← (gnode t.node i).key
        let v ← (gnode t.node i).value
        return (key, v)
    | none => return none

/-! ## §7 Boundaries -/

/-- The value at an integer key. -/
def Table.getnum (t : Table Num V) (key : Int) : Except Failure (Option V) := do
  let p ← luaHGetnum t key
  return p.bind t.value

/-- The binary search between a present index `i` and an absent one `j`. -/
def binarySearch (get : Nat → Except Failure (Option V)) : Nat → Nat → Nat → Except Failure Nat
  | 0, _, _ => .error .outOfFuel
  | turns + 1, i, j =>
    -- `i` is zero or present, and `j` is absent.
    if 1 < j - i then do
      let m := (i + j) / 2
      if (← get m).isNone then binarySearch get turns i m else binarySearch get turns m j
    else .ok i

/-- The linear search for an absent index, from `i` on. -/
def linearSearch (get : Nat → Except Failure (Option V)) : Nat → Nat → Except Failure Nat
  | 0, _ => .error .outOfFuel
  | turns + 1, i => do
    if (← get i).isNone then return i - 1 else linearSearch get turns (i + 1)

/-- `INT_MAX - 2` -/
def MAX_INT : Nat := 2 ^ 31 - 1 - 2

/-- The loop of `unbound_search` that doubles `j`. -/
def unboundLoop (t : Table Num V) : Nat → Nat → Nat → Except Failure Nat
  | 0, _, _ => .error .outOfFuel
  | turns + 1, i, j => do
    if (← t.getnum j).isNone then binarySearch (fun i => t.getnum i) 32 i j
    -- The table was built with bad purposes: the search resorts to the linear one.
    else if MAX_INT < j * 2 then
      linearSearch (fun i => t.getnum i) (t.sizearray + t.sizenode + 1) 1
    else unboundLoop t turns j (j * 2)

/-- `unbound_search`; `j` is zero or a present index. -/
def unboundSearch (t : Table Num V) (j : Nat) : Except Failure Nat := unboundLoop t 32 j (j + 1)

/-- `luaH_getn`: a boundary, an index with a value such that the next one is nil. -/
def luaHGetn (t : Table Num V) : Except Failure Nat :=
  let j := t.sizearray
  -- There is a boundary in the array part.
  if 0 < j ∧ (t.element (j - 1)).isNone then
    binarySearch (fun m => .ok (t.element (m - 1))) 32 0 j
  -- The hash part is empty.
  else if t.dummy then .ok j
  else unboundSearch t j

end MyLua.Lua
