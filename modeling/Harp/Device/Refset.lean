import Harp.Device.State
import Harp.Core.Gc

/-!
This module contains `handle_state_refset` of `device/session.c` with the retention pass it ends in.

`refsetRespond` is the handler up to its answer, `handleStateRefset` adds what happens behind it.
The log is not part of the source: it records which guards a request went through, in order.
-/

namespace Harp

def refsetFlags (create force consent : Bool) : Nat :=
  (if create then 1 else 0) ||| (if force then 2 else 0) ||| (if consent then 4 else 0)

-- The request as `harp_client_refset` of `host/client.c` sends it.
def clientRefset (name : Bytes) (expect : Option Hash) (target : Hash)
    (create force consent : Bool) : Bytes :=
  let flags := refsetFlags create force consent
  cborMap (if flags ≠ 0 then 4 else 3)
    ++ cborUint 0 ++ cborText name
    ++ cborUint 1
    ++ (match expect with
      | some h => cborBytes h.b
      | none => cborNull)
    ++ cborUint 2 ++ cborBytes target.b
    ++ (if flags ≠ 0 then cborUint 3 ++ cborUint flags else [])

structure RefsetReq where
  refname : Bytes
  expectNull : Bool
  haveExpect : Bool
  expect : Option Hash
  newh : Option Hash
  flags : Nat
deriving DecidableEq, Repr

-- The callers ignore what the decoders return here: a failed read leaves the field as it was.
def refsetField (key : Nat) (b : Cdec) (q : RefsetReq) : Cdec × RefsetReq :=
  match key with
  | 0 =>
    match cdecText b with
    | (some s, b) => (b, if s.length ≥ refNameMax then q else { q with refname := cstr s })
    | (none, b) => (b, q)
  | 1 =>
    if cdecPeekNull b then
      ((cdecNull b).2, { q with expectNull := true, haveExpect := true })
    else
      match hashRead b with
      | (some h, b) => (b, { q with expect := some h, haveExpect := true })
      | (none, b) => (b, q)
  | 2 =>
    match hashRead b with
    | (some h, b) => (b, { q with newh := some h })
    | (none, b) => (b, q)
  | 3 =>
    -- `harp_cdec_uint` has stored the argument when it finds the wrong major type
    match readHead b with
    | (some h, b) => ({ b with err := b.err || h.major ≠ 0 }, { q with flags := h.val })
    | (none, b) => (b, q)
  | _ => ((cdecSkip b).2, q)

def refsetFields (n : Nat) (b : Cdec) (q : RefsetReq) : RefsetReq :=
  match n with
  | 0 => q
  | n + 1 =>
    match cdecUint b with
    | (none, _) => q
    | (some key, b) =>
      let (b, q) := refsetField key b q
      refsetFields n b q

def refsetParse (body : Option Bytes) : RefsetReq :=
  let q : RefsetReq := ⟨[], false, false, none, none, 0⟩
  match body with
  | none => q
  | some body =>
    match cdecMap (Cdec.init body) with
    | (some n, b) => refsetFields n b q
    | (none, _) => q

inductive RefsetRsp where
  | malformed (msg : Option Bytes)
  | conflict (msg : Bytes) (hash : Option Hash) (generation : UInt64) (dirty : Bool)
  | notFound (msg : Bytes)
  | incompatible (msg snapEngine devEngine : Bytes)
  | storage
  | ok (generation : UInt64)
deriving DecidableEq, Repr

inductive Guard where
  | flush
  | cas
  | gate
  | load
  | write
deriving DecidableEq, Repr

def isDigit (c : UInt8) : Bool :=
  48 ≤ c && c ≤ 57

def isSpace (c : UInt8) : Bool :=
  c == 32 || (9 ≤ c && c ≤ 13)

-- The `int` that a decimal number is read into: the conversion stops at the bounds of `long`.
def intOfLong (n : Int) : Int :=
  (max (-2 ^ 63) (min n (2 ^ 63 - 1))).bmod (2 ^ 32)

-- One `%d` of `sscanf`: the value and what is left, if there is a digit at all.
def scanInt (s : Bytes) : Option (Int × Bytes) :=
  let s := s.dropWhile isSpace
  let neg := s.head? == some 45
  let s := if neg ∨ s.head? = some 43 then s.drop 1 else s
  let ds := s.takeWhile isDigit
  if ds.isEmpty then
    none
  else
    let n : Nat := ds.foldl (fun v d => v * 10 + (d.toNat - 48)) 0
    some (intOfLong (if neg then -(n : Int) else n), s.drop ds.length)

-- `sscanf (s, "%d.%d", ..)` into two integers that start at 0.
def majorMinor (s : Bytes) : Int × Int :=
  match scanInt s with
  | none => (0, 0)
  | some (major, rest) =>
    match rest with
    | c :: rest =>
      if c = dot then
        (major, ((scanInt rest).map Prod.fst).getD 0)
      else
        (major, 0)
    | [] => (major, 0)

def engineGate (s : Store) (devEngine : Bytes) (newh : Hash) : Option RefsetRsp :=
  match (storeGet s newh).bind (fun enc => objParseSnapshotEngine enc 24) with
  | none => some (.incompatible
      (ascii "snapshot has no engine field; set consent flag 0x4 to override") [] devEngine)
  | some snapEngine =>
    if majorMinor snapEngine ≠ majorMinor devEngine then
      some (.incompatible
        (ascii "snapshot engine version differs; set consent flag 0x4 to override") snapEngine
        devEngine)
    else
      none

def RefsetReq.create (q : RefsetReq) : Bool := q.flags.testBit 0
def RefsetReq.force (q : RefsetReq) : Bool := q.flags.testBit 1
def RefsetReq.consent (q : RefsetReq) : Bool := q.flags.testBit 2

def casOk (q : RefsetReq) (r : Ref) : Bool :=
  let expectOk :=
    match r.hash with
    | none => q.expectNull || q.create
    | some h => !q.expectNull && q.expect == some h
  q.force || (expectOk && !r.dirty)

-- The checks on the ref that was read: the ref to write back, and the engine's values.
def refsetChecks (d : Device) (q : RefsetReq) (newh : Hash) (r : Ref)
    : List Guard × Except RefsetRsp (Ref × Grid) :=
  if ¬ casOk q r then
    let msg := if r.dirty then ascii "ref is dirty" else ascii "expect mismatch"
    ([.cas], .error (.conflict msg r.hash r.generation r.dirty))
  else if ¬ closureComplete d.store newh then
    ([.cas], .error (.notFound (ascii "object closure incomplete")))
  else if q.refname ≠ liveRef then
    ([.cas], .ok (r, d.pval))
  else
    match (if q.consent then none
      else engineGate d.store (d.engineVer.getD engineVersion) newh) with
    | some rsp => ([.cas], .error rsp)
    | none =>
      match engineLoadSnapshot d.store d.pval newh with
      | none =>
        ([.cas, .gate], .error (.malformed (some (ascii "target is not a loadable snapshot"))))
      | some pval => ([.cas, .gate, .load], .ok (r, pval))

def refsetCheck (d : Device) (q : RefsetReq) (newh : Hash)
    : List Guard × Except RefsetRsp (Ref × Grid) :=
  match storeRefRead d.store q.refname with
  | none => ([], .error (.malformed (some (ascii "bad ref name"))))
  | some r => refsetChecks d q newh r

structure RefsetIo where
  flush : WriteIo
  write : WriteIo

structure RefsetOut where
  rsp : RefsetRsp
  dev : Device
  log : List Guard

def refsetFlush (d : Device) (q : RefsetReq) (io : WriteIo) : Device :=
  if q.refname = liveRef then liveCacheFlush d io else d

def Ref.moved (r : Ref) (newh : Hash) : Ref :=
  { r with hash := some newh, generation := r.generation + 1, dirty := false }

def refsetRespond (d : Device) (body : Option Bytes) (io : RefsetIo) : RefsetOut :=
  let q := refsetParse body
  match q.newh with
  | none => ⟨.malformed none, d, []⟩
  | some newh =>
    if q.refname.isEmpty ∨ ¬ q.haveExpect then
      ⟨.malformed none, d, []⟩
    else
      let d := refsetFlush d q io.flush
      let log := if q.refname = liveRef then [Guard.flush] else []
      match refsetCheck d q newh with
      | (guards, .error rsp) => ⟨rsp, d, log ++ guards⟩
      | (guards, .ok (r, pval)) =>
        let r := r.moved newh
        let (ok, store) := storeRefWrite d.store r io.write
        let d := { d with store, pval }
        if ok then
          ⟨.ok r.generation, d, log ++ guards ++ [.write]⟩
        else
          ⟨.storage, d, log ++ guards⟩

section Retention

def archiveKeep : Nat := 32
def gcInterval : Nat := 32
def gcMaxSweep : Nat := 4096

structure PruneKeep where
  names : List Bytes
  total : Nat

-- The `archiveKeep` largest names in ascending order.
def insertName (name : Bytes) : List Bytes → List Bytes
  | [] => [name]
  | n :: names => if name < n then name :: n :: names else n :: insertName name names

def pruneScanCb (pre : Bytes) (r : Ref) (k : PruneKeep) : PruneKeep :=
  if ¬ pre.isPrefixOf r.name then
    k
  else
    let k := { k with total := k.total + 1 }
    if k.names.length < archiveKeep then
      { k with names := insertName r.name k.names }
    else
      match k.names with
      | [] => k
      | smallest :: names =>
        if smallest < r.name then { k with names := insertName r.name names } else k

structure PruneDel where
  store : Store
  deleted : Nat

def pruneDelCb (pre threshold : Bytes) (r : Ref) (p : PruneDel) : PruneDel :=
  if ¬ pre.isPrefixOf r.name then
    p
  else if r.name < threshold then
    let (ok, store) := storeRefDelete p.store r.name
    { store, deleted := if ok then p.deleted + 1 else p.deleted }
  else
    p

def pruneNamespace (s : Store) (pre : Bytes) : PruneDel :=
  let (_, k) := storeRefList s (pruneScanCb pre) ⟨[], 0⟩
  if k.total ≤ archiveKeep then
    ⟨s, 0⟩
  else
    (refListView PruneDel.store (pruneDelCb pre (k.names.headD [])) ⟨s, 0⟩).2

def archivePrefix : Bytes := ascii "archive/"
def duplicatePrefix : Bytes := ascii "duplicate/"

def retentionPrefix (refname : Bytes) : Option Bytes :=
  if archivePrefix.isPrefixOf refname then
    some archivePrefix
  else if duplicatePrefix.isPrefixOf refname then
    some duplicatePrefix
  else
    none

-- A collection that never returns would hang the session; the store is as the pruning left it.
def maybeGc (d : Device) (refname : Bytes) : Device :=
  match retentionPrefix refname with
  | none => d
  | some pre =>
    let store := (pruneNamespace d.store pre).store
    if d.archivesSinceGc + 1 ≥ gcInterval then
      let store :=
        match storeGc store gcMaxSweep with
        | some out => out.store
        | none => store
      { d with store, archivesSinceGc := 0 }
    else
      { d with store, archivesSinceGc := d.archivesSinceGc + 1 }

end Retention

def handleStateRefset (d : Device) (body : Option Bytes) (io : RefsetIo) : RefsetRsp × Device :=
  let out := refsetRespond d body io
  match out.rsp with
  | .ok _ => (out.rsp, maybeGc out.dev (refsetParse body).refname)
  | _ => (out.rsp, out.dev)

end Harp
