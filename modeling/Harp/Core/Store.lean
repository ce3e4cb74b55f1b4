import Harp.Core.Object
import Harp.Lib.FileTree

/-!
This module contains the object and ref store of `core/src/store.c` on a POSIX file system.

The object directory is a list of files under their names. The ref directory is a tree; a ref name
is resolved to the components of its path, where empty and `.` components disappear. A write is
given the outcome of the storage underneath it (`WriteIo`), so every failure exit can be taken.
-/

namespace Harp

open FileTree

def strstr (s sub : Bytes) : Bool :=
  match s with
  | [] => sub.isEmpty
  | c :: s => sub.isPrefixOf (c :: s) || strstr s sub

def slash : UInt8 := 47

def dot : UInt8 := 46

def refNameMax : Nat := 160

def refNameChar (c : UInt8) : Bool :=
  (65 ≤ c && c ≤ 90) || (97 ≤ c && c ≤ 122) || (48 ≤ c && c ≤ 57)
    || c == dot || c == 95 || c == 58 || c == 45 || c == slash

def refNameOk (name : Bytes) : Bool :=
  if name.length = 0 ∨ name.length ≥ refNameMax then
    false
  else if name.head? = some slash ∨ name.getLast? = some slash then
    false
  else if strstr name [dot, dot] then
    false
  else
    name.all refNameChar

-- A name other than `.` and `..` that a directory entry can have.
structure Comp where
  b : Bytes
  ne_nil : b ≠ []
  no_slash : slash ∉ b
  no_nul : 0 ∉ b
  ne_dot : b ≠ [dot]
  ne_dotdot : b ≠ [dot, dot]
deriving DecidableEq, Repr

def Comp.of? (b : Bytes) : Option Comp :=
  if h : b ≠ [] ∧ slash ∉ b ∧ 0 ∉ b ∧ b ≠ [dot] ∧ b ≠ [dot, dot] then
    some ⟨b, h.1, h.2.1, h.2.2.1, h.2.2.2.1, h.2.2.2.2⟩
  else
    none

abbrev RefTree := Node Comp Bytes

def comps (name : Bytes) : List Comp :=
  (name.splitOn slash).filterMap Comp.of?

-- The path ends in `/.` and only resolves if a directory stands there.
def endsInDot (name : Bytes) : Bool :=
  (name.splitOn slash).getLast? == some [dot]

structure Ref where
  name : Bytes
  hash : Option Hash
  generation : UInt64
  dirty : Bool
deriving DecidableEq, Repr

def Ref.unborn (name : Bytes) : Ref :=
  ⟨name, none, 0, false⟩

def refEncode (r : Ref) : Bytes :=
  cborMap 4
    ++ cborUint 0 ++ cborText r.name
    ++ cborUint 1
    ++ (match r.hash with
      | none => cborNull
      | some h => cborBytes h.b)
    ++ cborUint 2 ++ cborUint r.generation.toNat
    ++ cborUint 3 ++ cborBool r.dirty

structure RefIter where
  r : Ref
  haveName : Bool

def refDecodeField (key : Nat) (it : RefIter) : Dec RefIter :=
  match key with
  | 0 => do
    let s ← cdecText
    if s.length ≥ refNameMax then
      Dec.fail
    else
      return ⟨{ it.r with name := cstr s }, true⟩
  | 1 => fun d =>
    if cdecPeekNull d then
      (do cdecNull; return { it with r := { it.r with hash := none } } : Dec RefIter) d
    else
      (do let h ← hashRead; return { it with r := { it.r with hash := some h } } : Dec RefIter) d
  | 2 => do
    let generation ← cdecUint
    return { it with r := { it.r with generation := UInt64.ofNat generation } }
  | 3 => do
    let dirty ← cdecBool
    return { it with r := { it.r with dirty } }
  | _ => do
    cdecSkip
    return it

def refDecode : Dec Ref := do
  let n ← cdecMap
  let it ← Dec.loop n (fun it => do let key ← cdecUint; refDecodeField key it) ⟨Ref.unborn [], false⟩
  if it.haveName then
    return it.r
  else
    Dec.fail

structure ObjFile where
  readable : Bool
  data : Option Bytes
  removable : Bool
deriving DecidableEq, Repr

-- A decimal digit can be written as a numeral.
instance neZeroDigits : NeZero 10 := ⟨by decide⟩

structure Store where
  pid : List (Fin 10)
  objects : List (Bytes × ObjFile)
  refs : RefTree

def lookupObj (name : Bytes) : List (Bytes × ObjFile) → Option ObjFile
  | [] => none
  | e :: objects => if e.1 = name then some e.2 else lookupObj name objects

def eraseObj (name : Bytes) (objects : List (Bytes × ObjFile)) : List (Bytes × ObjFile) :=
  objects.filter (fun e => e.1 ≠ name)

inductive WriteIo where
  | ok
  | mkdirFails
  | openFails
  | writeFails
  | renameFails
  -- nobody looks at what `fflush` and `fclose` return: so many bytes are on disk, and it goes on
  | flushFails (kept : Nat)
deriving DecidableEq, Repr

-- Every call succeeds whose result is looked at.
def WriteIo.unchecked (io : WriteIo) : Bool :=
  match io with
  | .ok | .flushFails _ => true
  | _ => false

def WriteIo.onDisk (io : WriteIo) (data : Bytes) : Bytes :=
  match io with
  | .flushFails kept => data.take kept
  | _ => data

def WriteIo.keeps (io : WriteIo) (data : Bytes) : Bool :=
  io.onDisk data = data

-- No call fails unnoticed.
def WriteIo.lossless (io : WriteIo) : Bool :=
  match io with
  | .flushFails _ => false
  | _ => true

def objFile (s : Store) (h : Hash) : Option ObjFile :=
  lookupObj (hashHex h) s.objects

def storeHave (s : Store) (h : Hash) : Bool :=
  match objFile s h with
  | some f => f.readable
  | none => false

def storeGet (s : Store) (h : Hash) : Option Bytes :=
  (objFile s h).bind ObjFile.data

def storePut (s : Store) (enc : Bytes) (io : WriteIo) : Bool × Store :=
  let h := hashCompute enc
  if storeHave s h then
    (true, s)
  else if io.unchecked then
    let file : ObjFile := ⟨true, some (io.onDisk enc), true⟩
    (true, { s with objects := (hashHex h, file) :: eraseObj (hashHex h) s.objects })
  else
    (false, s)

def storeRefRead (s : Store) (name : Bytes) : Option Ref :=
  if refNameOk name then
    match s.refs.look (comps name) with
    | none => some (Ref.unborn name)
    | some (.file readable data) =>
      if endsInDot name ∨ ¬ readable then
        some (Ref.unborn name)
      else
        (refDecode (Cdec.init (data.take 1024))).1
    | some (.dir _) => none
  else
    none

def mkdirs (t : RefTree) (done path : List Comp) : Option RefTree :=
  match path with
  | [] => some t
  | c :: path =>
    match t.look (done ++ [c]) with
    | none => mkdirs (t.put (done ++ [c]) (.dir true [])) (done ++ [c]) path
    | some (.dir _) => mkdirs t (done ++ [c]) path
    | some (.file _ _) => none

def tmpSuffix (pid : List (Fin 10)) : Bytes :=
  ascii ".tmp." ++ pid.map (fun d => UInt8.ofNat (48 + d.val))

theorem tmpSuffix_char (pid : List (Fin 10)) (c : UInt8) (h : c ∈ tmpSuffix pid)
    : c ≠ slash ∧ c ≠ 0 := by
  unfold tmpSuffix at h
  rw [List.mem_append] at h
  rcases h with h | h
  . have hall : (ascii ".tmp.").all (fun c => c ≠ slash ∧ c ≠ 0) = true := by decide
    rw [List.all_eq_true] at hall
    simpa using hall c h
  . rw [List.mem_map] at h
    rcases h with ⟨d, -, rfl⟩
    revert d
    decide

def Comp.tmp (pid : List (Fin 10)) (c : Comp) : Comp where
  b := c.b ++ tmpSuffix pid
  ne_nil := by simp [c.ne_nil]
  no_slash := by
    rw [List.mem_append]
    intro h
    rcases h with h | h
    . exact c.no_slash h
    . exact (tmpSuffix_char pid _ h).1 rfl
  no_nul := by
    rw [List.mem_append]
    intro h
    rcases h with h | h
    . exact c.no_nul h
    . exact (tmpSuffix_char pid _ h).2 rfl
  ne_dot := by
    intro h
    have := congrArg List.length h
    simp [tmpSuffix, ascii] at this
    omega
  ne_dotdot := by
    intro h
    have := congrArg List.length h
    simp [tmpSuffix, ascii] at this
    omega

def isDirAt (t : RefTree) (p : List Comp) : Bool :=
  match t.look p with
  | some (.dir _) => true
  | _ => false

-- The target is `dir/c`; its temporary is gone again in every case in which it was opened.
def writeAtomic (pid : List (Fin 10)) (t : RefTree) (dir : List Comp) (c : Comp) (data : Bytes)
    (io : WriteIo) : Bool × RefTree :=
  let tmp := dir ++ [c.tmp pid]
  if io = .openFails ∨ isDirAt t tmp then
    (false, t)
  else if io = .writeFails then
    (false, t.erase tmp)
  else if io = .renameFails ∨ isDirAt t (dir ++ [c]) then
    (false, t.erase tmp)
  else
    (true, (t.erase tmp).put (dir ++ [c]) (.file true (io.onDisk data)))

def storeRefWrite (s : Store) (r : Ref) (io : WriteIo) : Bool × Store :=
  if ¬ refNameOk r.name ∨ io = .mkdirFails ∨ ¬ isDirAt s.refs [] then
    (false, s)
  else if endsInDot r.name then
    -- nothing can be renamed onto the directory the name resolves to
    (false, { s with refs := (mkdirs s.refs [] (comps r.name)).getD s.refs })
  else
    match (comps r.name).getLast? with
    | none => (false, s)
    | some c =>
      let dir := (comps r.name).dropLast
      match mkdirs s.refs [] dir with
      | none => (false, s)
      | some t =>
        let (ok, t) := writeAtomic s.pid t dir c (refEncode r) io
        (ok, { s with refs := t })

-- The callback may change the files the rest of the walk reads: `view` is the store as it is now.
def walkOne (view : σ → Store) (cb : Ref → σ → σ) (sub : Bytes → σ → Bool × σ) (rel : Bytes)
    (ud : σ) (dname : Comp) : σ :=
  let crel := if rel.isEmpty then dname.b else rel ++ [slash] ++ dname.b
  if dname.b.head? = some dot then
    ud
  else if strstr dname.b (ascii ".tmp.") then
    ud
  else if dname.b.length ≥ refNameMax then
    ud
  else if crel.length ≥ refNameMax then
    ud
  else if ¬ refNameOk crel then
    ud
  else
    match (view ud).refs.look (comps crel) with
    | none => ud
    | some (.dir _) => (sub crel ud).2
    | some (.file _ _) =>
      match storeRefRead (view ud) crel with
      | some r => cb r ud
      | none => ud

def walkRefs (view : σ → Store) (cb : Ref → σ → σ) (levels : Nat) (rel : Bytes) (ud : σ)
    : Bool × σ :=
  match levels with
  | 0 => (false, ud)
  | levels + 1 =>
    match (view ud).refs.find (comps rel) with
    | some (.dir true ents) =>
      (true, (ents.map Prod.fst).foldl (walkOne view cb (walkRefs view cb levels) rel) ud)
    | _ => (false, ud)

-- Every level of the walk lengthens the name, so `refNameMax` levels are never used up.
def refListView (view : σ → Store) (cb : Ref → σ → σ) (ud : σ) : Bool × σ :=
  walkRefs view cb refNameMax [] ud

def storeRefList (s : Store) (cb : Ref → σ → σ) (ud : σ) : Bool × σ :=
  refListView (fun _ => s) cb ud

def storeRefDelete (s : Store) (name : Bytes) : Bool × Store :=
  if refNameOk name then
    if endsInDot name then
      (true, s)
    else
      match s.refs.find (comps name) with
      | some (.file _ _) => (true, { s with refs := s.refs.erase (comps name) })
      | some (.dir _ []) => (true, { s with refs := s.refs.erase (comps name) })
      | _ => (true, s)
  else
    (false, s)

end Harp
