import Harp.Core.Sha256

/-!
This module contains the content-addressed state objects of `core/src/object.c`: hashes and their
file names, the encoders, and the parsers.

The parsers walk the top-level map and hand each value to a callback that moves the decoder and a
state of its own. Both survive a `false` return, so callbacks return all three.
-/

namespace Harp

structure Hash where
  b : Bytes
  len : b.length = 33
deriving DecidableEq, Repr

def hexd : Bytes :=
  ascii "0123456789abcdef"

def hashHex (h : Hash) : Bytes :=
  h.b.flatMap (fun b => [hexd.getD (b.toNat / 16) 0, hexd.getD (b.toNat % 16) 0])

def hexval (c : UInt8) : Option Nat :=
  if 48 ≤ c.toNat ∧ c.toNat ≤ 57 then
    some (c.toNat - 48)
  else if 97 ≤ c.toNat ∧ c.toNat ≤ 102 then
    some (c.toNat - 97 + 10)
  else if 65 ≤ c.toNat ∧ c.toNat ≤ 70 then
    some (c.toNat - 65 + 10)
  else
    none

def hashFromHex (hex : Bytes) : Option Hash :=
  if hex.length ≠ 66 then
    none
  else
    match go hex with
    | some b => if h : b.length = 33 then some ⟨b, h⟩ else none
    | none => none
where
  go : Bytes → Option Bytes
    | hi :: lo :: hex =>
      match hexval hi, hexval lo, go hex with
      | some hi, some lo, some bs => some (UInt8.ofNat (hi <<< 4 + lo) :: bs)
      | _, _, _ => none
    | _ => some []

def hashCompute (data : Bytes) : Hash where
  b := 0x01 :: sha256Digest data
  len := by simp [length_sha256Digest]

-- A wrong length or algorithm byte fails without setting `err`.
def hashRead : Dec Hash := do
  let p ← cdecBytes
  if h : p.length = 33 then
    if p.head? ≠ some 0x01 then
      Dec.fail
    else
      return ⟨p, h⟩
  else
    Dec.fail

def objBlob : Nat := 0
def objList : Nat := 1
def objTree : Nat := 2
def objSnapshot : Nat := 3

def objEncodeBlob (mediaType payload : Bytes) : Bytes :=
  cborMap 3 ++ cborUint 0 ++ cborUint objBlob ++ cborUint 1 ++ cborText mediaType
    ++ cborUint 2 ++ cborBytes payload

def objEncodeList (mediaType : Bytes) (chunks : List Hash) : Bytes :=
  cborMap 3 ++ cborUint 0 ++ cborUint objList ++ cborUint 1 ++ cborText mediaType
    ++ cborUint 2 ++ cborArray chunks.length ++ chunks.flatMap (fun h => cborBytes h.b)

structure TreeEntry where
  name : Bytes
  hash : Hash
  kind : Nat
deriving DecidableEq, Repr

def entryLe (a b : TreeEntry) : Bool :=
  if a.name.length ≠ b.name.length then
    a.name.length < b.name.length
  else
    a.name ≤ b.name

def encodeEntry (e : TreeEntry) : Bytes :=
  cborText e.name ++ cborArray 2 ++ cborBytes e.hash.b ++ cborUint e.kind

-- `none` is the `oom` mark the source leaves on trees of more than 256 entries.
def objEncodeTree (entries : List TreeEntry) : Option Bytes :=
  if entries.length > 256 then
    none
  else
    let sorted := entries.mergeSort entryLe
    some (cborMap 2 ++ cborUint 0 ++ cborUint objTree ++ cborUint 1 ++ cborMap entries.length
      ++ sorted.flatMap encodeEntry)

def objEncodeSnapshot (rootTree : Hash) (parents : List Hash) (unixTime : Nat)
    (author engineSemver : Bytes) (message : Option Bytes) : Bytes :=
  cborMap (if message.isSome then 7 else 6)
    ++ cborUint 0 ++ cborUint objSnapshot
    ++ cborUint 1 ++ cborBytes rootTree.b
    ++ cborUint 2 ++ cborArray parents.length ++ parents.flatMap (fun h => cborBytes h.b)
    ++ cborUint 3 ++ cborUint unixTime
    ++ cborUint 4 ++ cborText author
    ++ cborUint 5 ++ cborText engineSemver
    ++ match message with
      | some message => cborUint 6 ++ cborText message
      | none => []

abbrev FieldCb (σ : Type) := Nat → Cdec → σ → Bool × Cdec × σ

-- The callback that decodes a value and stores it.
def readField (x : Dec α) (store : α → σ → σ) (d : Cdec) (s : σ) : Bool × Cdec × σ :=
  match x d with
  | (some a, d) => (true, d, store a s)
  | (none, d) => (false, d, s)

def skipField (d : Cdec) (s : σ) : Bool × Cdec × σ :=
  readField cdecSkip (fun _ s => s) d s

def objFields (enc : Bytes) (visit : FieldCb σ) (s : σ) : Bool × σ :=
  match cdecMap (Cdec.init enc) with
  | (some n, d) => go n d s
  | (none, _) => (false, s)
where
  go (n : Nat) (d : Cdec) (s : σ) : Bool × σ :=
    match n with
    | 0 => (!d.err, s)
    | n + 1 =>
      match cdecUint d with
      | (none, _) => (false, s)
      | (some key, d) =>
        match visit key d s with
        | (false, _, s) => (false, s)
        | (true, d, s) => go n d s

def kindCb : FieldCb (Option Nat) := fun key d kind =>
  if key = 0 then
    readField (do let k ← cdecUint; if k > 3 then Dec.fail else return k) (fun k _ => some k) d kind
  else
    skipField d kind

def objKind (enc : Bytes) : Option Nat :=
  match objFields enc kindCb none with
  | (true, kind) => kind
  | (false, _) => none

-- `(int)k`, and the `-1` it starts from, as their 32-bit patterns.
def toInt32 (k : Nat) : Nat :=
  k % 2 ^ 32

structure BlobOut where
  media : Bytes
  payload : Option Bytes
  kind : Nat

def blobCb : FieldCb BlobOut := fun key d o =>
  match key with
  | 0 => readField cdecUint (fun k o => { o with kind := toInt32 k }) d o
  | 1 => readField cdecText (fun m o => { o with media := m }) d o
  | 2 => readField cdecBytes (fun p o => { o with payload := some p }) d o
  | _ => skipField d o

def objParseBlob (enc : Bytes) : Option (Bytes × Bytes) :=
  match objFields enc blobCb ⟨[], none, 2 ^ 32 - 1⟩ with
  | (true, o) =>
    match o.payload with
    | some payload => if o.kind ≠ objBlob then none else some (o.media, payload)
    | none => none
  | (false, _) => none

structure SnapOut where
  root : Option Hash
  kind : Nat
  engine : Option Bytes

def snapCb : FieldCb SnapOut := fun key d o =>
  match key with
  | 0 => readField cdecUint (fun k o => { o with kind := toInt32 k }) d o
  | 1 => readField hashRead (fun h o => { o with root := some h }) d o
  | 5 => readField cdecText (fun s o => { o with engine := some (s.take 23) }) d o
  | _ => skipField d o

def objParseSnapshotRoot (enc : Bytes) : Option Hash :=
  match objFields enc snapCb ⟨none, 2 ^ 32 - 1, none⟩ with
  | (true, o) => if o.kind ≠ objSnapshot then none else o.root
  | (false, _) => none

def objParseSnapshotEngine (enc : Bytes) (outsz : Nat) : Option Bytes :=
  match objFields enc snapCb ⟨none, 2 ^ 32 - 1, none⟩ with
  | (true, o) =>
    match o.engine with
    | some engine =>
      if o.kind ≠ objSnapshot ∨ (cstr engine).length + 1 > outsz then
        none
      else
        some (cstr engine)
    | none => none
  | (false, _) => none

structure TreeIter (σ : Type) where
  stopped : Bool
  ud : σ

abbrev TreeCb (σ : Type) := Bytes → Hash → Nat → σ → Bool × σ

def treeEntry : Dec (Bytes × Hash × Nat) := do
  let name ← cdecText
  let alen ← cdecArray
  if alen ≠ 2 then
    Dec.fail
  else
    let h ← hashRead
    let kind ← cdecUint
    return (name, h, kind)

-- Once stopped, the remaining entries are still decoded.
def TreeIter.step (cb : TreeCb σ) (it : TreeIter σ) (e : Bytes × Hash × Nat) : TreeIter σ :=
  if it.stopped then
    it
  else
    let (more, ud) := cb e.1 e.2.1 (toInt32 e.2.2) it.ud
    ⟨!more, ud⟩

-- A container whose values are handed on as they are decoded.
def eachItem (count : Dec Nat) (x : Dec α) (f : σ → α → σ) (d : Cdec) (s : σ) : Bool × Cdec × σ :=
  match count d with
  | (some n, d) => go n d s
  | (none, d) => (false, d, s)
where
  go (n : Nat) (d : Cdec) (s : σ) : Bool × Cdec × σ :=
    match n with
    | 0 => (true, d, s)
    | n + 1 =>
      match x d with
      | (some a, d) => go n d (f s a)
      | (none, d) => (false, d, s)

def treeCb (cb : TreeCb σ) : FieldCb (TreeIter σ) := fun key d it =>
  if key ≠ 1 then
    skipField d it
  else
    eachItem cdecMap treeEntry (TreeIter.step cb) d it

def objTreeForeach (enc : Bytes) (cb : TreeCb σ) (ud : σ) : Bool × σ :=
  if objKind enc ≠ some objTree then
    (false, ud)
  else
    let (ok, it) := objFields enc (treeCb cb) ⟨false, ud⟩
    (ok, it.ud)

abbrev HashCb (σ : Type) := Hash → σ → Bool × σ

def childHashes (cb : HashCb σ) (d : Cdec) (ud : σ) : Bool × Cdec × σ :=
  eachItem cdecArray hashRead (fun ud h => (cb h ud).2) d ud

-- The `ok` the source clears when the callback returns `false` is never read.
def childCb (kind : Nat) (includeParents : Bool) (cb : HashCb σ) : FieldCb σ := fun key d ud =>
  if kind = objList ∧ key = 2 then
    childHashes cb d ud
  else if kind = objSnapshot ∧ key = 1 then
    readField hashRead (fun h ud => (cb h ud).2) d ud
  else if kind = objSnapshot ∧ key = 2 ∧ includeParents then
    childHashes cb d ud
  else
    skipField d ud

def objForeachChild (enc : Bytes) (includeParents : Bool) (cb : HashCb σ) (ud : σ) : Bool × σ :=
  match objKind enc with
  | none => (false, ud)
  | some kind =>
    if kind = objBlob then
      (true, ud)
    else if kind = objTree then
      objTreeForeach enc (fun _ h _ ud => cb h ud) ud
    else
      objFields enc (childCb kind includeParents cb) ud

-- What `objForeachChild` returns, and the hashes it reports, whatever the callback does.
def objChildren (enc : Bytes) (includeParents : Bool) : Bool × List Hash :=
  objForeachChild enc includeParents (fun h hs => (true, hs ++ [h])) []

end Harp
